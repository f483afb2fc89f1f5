import Mathlib.Tactic
import AvalonCores.Sync.Circuit
import AvalonCores.Sync.ShowAhead
import AvalonCores.MemoryTester.Burst

/-! The write master `mtm_pattern_writer`, and the count of the words that the memory port has
accepted of a command. -/

namespace AvalonCores.MemoryTester.PatternWriter

open AvalonCores.Sync

variable {b : ℕ} {p : MasterParams b}

structure State (p : MasterParams b) where
  loadCommandD1 : Bool
  masterActive : Bool
  write : Bool
  firstTransfer : Bool
  baseAddress : BitVec p.addressWidth
  transferCounter : BitVec p.lengthWidth
  transferAddress : BitVec p.addressWidth
  nextLengthCounter : BitVec p.lengthWidth
  shortFirstBurstCountD1 : BitVec p.burstWidth
  shortLastBurstCountD1 : BitVec p.burstWidth
  burstCounter : BitVec p.burstWidth
  burstCountD1 : BitVec p.burstWidth
  fifo : List (Word b)
deriving DecidableEq

/-- The inputs of a cycle.  `fifoIdle` is what an empty FIFO shows at its output. -/
structure Inputs (b : ℕ) where
  masterWaitrequest : Bool
  snkData : Word b
  snkValid : Bool
  snkCommandData : Command
  snkCommandValid : Bool
  fifoIdle : Word b
deriving DecidableEq

def reset : State p := ⟨false, false, false, false, 0#_, 0#_, 0#_, 0#_, 0#_, 0#_, 0#_, 0#_, []⟩

variable (s : State p) (i : Inputs b)

def transferComplete : Bool := s.write && !i.masterWaitrequest

def burstCount : BitVec p.burstWidth :=
  selectBurstCount p (enableShortLastBurst p i.snkCommandData s.nextLengthCounter)
    (enableShortFirstBurst p s.firstTransfer (transferComplete s i))
    s.shortLastBurstCountD1 s.shortFirstBurstCountD1

def burstIdle : Bool := s.burstCounter == 0#_

def burstComplete : Bool := s.burstCounter == 1#_ && transferComplete s i

def burstBeginFast : Bool :=
  s.masterActive && burstComplete s i && decide ((burstCount s i).toNat < s.fifo.length)

def burstBeginFromIdle : Bool :=
  s.masterActive && burstIdle s && decide ((burstCount s i).toNat ≤ s.fifo.length)

def burstBegin : Bool :=
  (burstBeginFast s i || burstBeginFromIdle s i) && s.nextLengthCounter != 0#_

def snkCommandReady : Bool := !s.masterActive

def loadCommand : Bool := i.snkCommandValid && snkCommandReady s

def snkReady : Bool := decide (s.fifo.length ≠ p.fifoDepth)

def fifoWrite : Bool := snkReady s && i.snkValid

/-- The sink port transfers a word. -/
def accepts : Bool := snkReady s && i.snkValid

/-- The FIFO is written with each word that the sink port transfers. -/
theorem accepts_eq : accepts s i = fifoWrite s i := rfl

def fifoRead : Bool := s.write && transferComplete s i

def resetMasterActive : Bool :=
  !loadCommand s i && s.nextLengthCounter == 0#_ && transferComplete s i

def setWrite : Bool := burstBeginFromIdle s i

def resetWrite : Bool :=
  s.nextLengthCounter == 0#_ && transferComplete s i || !burstBeginFast s i && burstComplete s i

def masterWritedata : Word b := byteReversal (ShowAhead.front s.fifo i.fifoIdle)

def step : State p where
  loadCommandD1 := loadCommand s i
  masterActive :=
    if resetMasterActive s i then false
    else if loadCommand s i then true
    else s.masterActive
  write :=
    if resetWrite s i then false
    else if setWrite s i then true
    else s.write
  firstTransfer :=
    if loadCommand s i then true
    else if s.firstTransfer && transferComplete s i then false
    else s.firstTransfer
  baseAddress :=
    if loadCommand s i then (commandAddress b i.snkCommandData).setWidth _ else s.baseAddress
  transferCounter :=
    if loadCommand s i then 0#_
    else if transferComplete s i || s.loadCommandD1 then
      s.transferCounter + BitVec.ofNat _ (2 ^ b)
    else s.transferCounter
  transferAddress :=
    if burstComplete s i || s.loadCommandD1 then s.baseAddress + s.transferCounter.setWidth _
    else s.transferAddress
  nextLengthCounter :=
    if loadCommand s i then (commandLength b i.snkCommandData).setWidth _
    else if transferComplete s i || s.loadCommandD1 then
      s.nextLengthCounter - BitVec.ofNat _ (2 ^ b)
    else s.nextLengthCounter
  shortFirstBurstCountD1 :=
    if loadCommand s i then shortFirstBurstCount p i.snkCommandData
    else s.shortFirstBurstCountD1
  shortLastBurstCountD1 :=
    if loadCommand s i then shortLastBurstCount p i.snkCommandData else s.shortLastBurstCountD1
  burstCounter :=
    if burstBegin s i then burstCount s i
    else if transferComplete s i then s.burstCounter - 1#_
    else s.burstCounter
  burstCountD1 :=
    if burstBegin s i || s.loadCommandD1 then burstCount s i else s.burstCountD1
  fifo := ShowAhead.next s.fifo (fifoRead s i) (fifoWrite s i) i.snkData

/-- The FIFO is read with each word that the memory port accepts. -/
theorem fifoRead_eq : fifoRead s i = transferComplete s i := by
  cases hw : s.write <;> simp [fifoRead, transferComplete, hw]

/-- The command that the writer works on, the number of its words that the memory port has
accepted, and the number of beats that the memory still expects of the current burst. -/
structure Ledger where
  command : Command
  accepted : ℕ
  left : ℕ

def Ledger.next (l : Ledger) (s : State p) (i : Inputs b) : Ledger where
  command := if loadCommand s i then i.snkCommandData else l.command
  accepted :=
    if loadCommand s i then 0
    else if transferComplete s i then l.accepted + 1
    else l.accepted
  left :=
    if transferComplete s i then (if l.left = 0 then s.burstCountD1.toNat else l.left) - 1
    else l.left

/-- The ledger counts each accepted word of the command. -/
theorem Ledger.next_of_not_load {s : State p} {i : Inputs b} {l : Ledger}
    (hload : loadCommand s i = false) : (l.next s i).command = l.command ∧
      (l.next s i).accepted = l.accepted + (transferComplete s i).toNat := by
  cases htc : transferComplete s i <;> simp [Ledger.next, hload, htc]

theorem Ledger.next_of_accepted {s : State p} {i : Inputs b} {l : Ledger}
    (hload : loadCommand s i = false) (htc : transferComplete s i = true) :
    (l.next s i).command = l.command ∧ (l.next s i).accepted = l.accepted + 1 := by
  have hnext := Ledger.next_of_not_load (l := l) hload
  rw [htc] at hnext
  exact hnext

theorem Ledger.next_of_stalled {s : State p} {i : Inputs b} {l : Ledger}
    (hload : loadCommand s i = false) (htc : transferComplete s i = false) : l.next s i = l := by
  simp [Ledger.next, hload, htc]

/-- An active master accepts no command. -/
theorem loadCommand_of_active {s : State p} {i : Inputs b} (active : s.masterActive = true) :
    loadCommand s i = false := by
  simp [loadCommand, snkCommandReady, active]

theorem transferComplete_of_write {s : State p} {i : Inputs b} (write : s.write = false) :
    transferComplete s i = false := by
  simp [transferComplete, write]

/-- A burst ends only on a word that the memory port accepts. -/
theorem burstComplete_of_stalled {s : State p} {i : Inputs b}
    (htc : transferComplete s i = false) : burstComplete s i = false := by
  simp [burstComplete, htc]

theorem burstBeginFast_of_incomplete {s : State p} {i : Inputs b}
    (hbc : burstComplete s i = false) : burstBeginFast s i = false := by
  simp [burstBeginFast, hbc]

theorem resetWrite_of_stalled {s : State p} {i : Inputs b} (htc : transferComplete s i = false) :
    resetWrite s i = false := by
  simp [resetWrite, htc, burstComplete_of_stalled htc]

/-- An idle master stays so unless it accepts a command. -/
theorem step_masterActive {s : State p} {i : Inputs b} (hs : s.masterActive = false)
    (hload : loadCommand s i = false) : (step s i).masterActive = false := by
  simp [step, hload, hs]

theorem masterActive_of_step {s : State p} {i : Inputs b} (hload : loadCommand s i = false)
    (hactive : (step s i).masterActive = true) : s.masterActive = true := by
  by_contra hidle
  rw [step_masterActive (by simpa using hidle) hload] at hactive
  contradiction

/-- An idle writer stays idle unless it accepts a command, and offers no word either way. -/
theorem step_idle {s : State p} {i : Inputs b} (active : s.masterActive = false)
    (write : s.write = false) : (step s i).masterActive = loadCommand s i ∧
      (step s i).write = false ∧ (step s i).loadCommandD1 = loadCommand s i := by
  have htc : transferComplete s i = false := transferComplete_of_write write
  have hset : setWrite s i = false := by simp [setWrite, burstBeginFromIdle, active]
  have hreset : resetMasterActive s i = false := by simp [resetMasterActive, htc]
  refine ⟨?_, by simp [step, hset, write], rfl⟩
  cases hload : loadCommand s i <;> simp [step, hreset, hload, active]

structure Monitored (p : MasterParams b) where
  hw : State p
  ledger : Ledger

/-- The registers after a reset, before the first command. -/
def Monitored.reset : Monitored p := ⟨PatternWriter.reset, ⟨0#64, 0#32⟩, 0, 0⟩

/-- The writer between a source of commands and words and a memory port. -/
def writer (p : MasterParams b) : Circuit (Monitored p) (Inputs b) where
  init c := c = .reset
  admits c i := loadCommand c.hw i = true → Fits p i.snkCommandData
  step c i := ⟨step c.hw i, c.ledger.next c.hw i⟩

instance (c : Monitored p) (i : Inputs b) : Decidable ((writer p).admits c i) :=
  inferInstanceAs (Decidable (_ → _))

/-- How far the writer has got: it waits for a command, has just loaded one, or has still to write
some words of one.  The length counter runs one word ahead of the accepted words. -/
inductive Counting (s : State p) (l : Ledger) : Prop
  | idle (active : s.masterActive = false) (write : s.write = false)
      (loaded : s.loadCommandD1 = false) (done : l.accepted = words b l.command)
  | loaded (active : s.masterActive = true) (write : s.write = false)
      (loaded : s.loadCommandD1 = true) (fits : Fits p l.command) (none : l.accepted = 0)
      (base : s.baseAddress = (commandAddress b l.command).setWidth _)
      (length : s.nextLengthCounter = BitVec.ofNat _ (words b l.command * 2 ^ b))
      (counter : s.transferCounter = 0#_)
  | moving (active : s.masterActive = true) (loaded : s.loadCommandD1 = false)
      (fits : Fits p l.command) (some : l.accepted < words b l.command)
      (base : s.baseAddress = (commandAddress b l.command).setWidth _)
      (length : s.nextLengthCounter.toNat = (words b l.command - 1 - l.accepted) * 2 ^ b)
      (counter : s.transferCounter = BitVec.ofNat _ ((l.accepted + 1) * 2 ^ b))

namespace Counting

variable {s : State p} {l : Ledger} {i : Inputs b}

theorem write_eq_false (h : Counting s l) (ha : s.masterActive = false) : s.write = false := by
  cases h with
  | idle _ write => exact write
  | loaded active | moving active => simp [ha] at active

theorem accepted_eq (h : Counting s l) (ha : s.masterActive = false) :
    l.accepted = words b l.command := by
  cases h with
  | idle _ _ _ done => exact done
  | loaded active | moving active => simp [ha] at active

theorem accepted_lt (h : Counting s l) (ha : s.masterActive = true) :
    l.accepted < words b l.command := by
  cases h with
  | idle active => simp [ha] at active
  | loaded _ _ _ fits none => rw [none]; exact fits.1
  | moving _ _ _ some => exact some

theorem reset : Counting (PatternWriter.reset : State p) ⟨⟨0#64, 0#32⟩, 0, 0⟩ := by
  apply Counting.idle <;> simp [PatternWriter.reset, words]

theorem next_idle (active : s.masterActive = false) (write : s.write = false)
    (done : l.accepted = words b l.command)
    (ha : loadCommand s i = true → Fits p i.snkCommandData) :
    Counting (step s i) (l.next s i) := by
  have htc : transferComplete s i = false := transferComplete_of_write write
  obtain ⟨hactive, hwrite, hloaded⟩ := step_idle (i := i) active write
  cases hload : loadCommand s i with
  | false =>
    apply Counting.idle
    · rw [hactive, hload]
    · exact hwrite
    · rw [hloaded, hload]
    · simpa [Ledger.next, hload, htc] using done
  | true =>
    have hfits := ha hload
    apply Counting.loaded
    · rw [hactive, hload]
    · exact hwrite
    · rw [hloaded, hload]
    · simpa [Ledger.next, hload] using hfits
    · simp [Ledger.next, hload]
    · simp [step, Ledger.next, hload]
    · simpa [step, Ledger.next, hload] using commandLength_setWidth p i.snkCommandData
    · simp [step, hload]

theorem next_loaded (active : s.masterActive = true) (write : s.write = false)
    (loaded : s.loadCommandD1 = true) (fits : Fits p l.command) (none : l.accepted = 0)
    (base : s.baseAddress = (commandAddress b l.command).setWidth _)
    (length : s.nextLengthCounter = BitVec.ofNat _ (words b l.command * 2 ^ b))
    (counter : s.transferCounter = 0#_) : Counting (step s i) (l.next s i) := by
  have htc : transferComplete s i = false := transferComplete_of_write write
  have hload : loadCommand s i = false := loadCommand_of_active active
  have hpos := fits.1
  have hsub : s.nextLengthCounter - BitVec.ofNat _ (2 ^ b) =
      BitVec.ofNat _ ((words b l.command - 1) * 2 ^ b) := by
    have hsplit : words b l.command * 2 ^ b = (words b l.command - 1) * 2 ^ b + 2 ^ b := by
      rw [← Nat.succ_mul, Nat.succ_eq_add_one, Nat.sub_add_cancel hpos]
    rw [length, hsplit, BitVec.ofNat_add, BitVec.add_sub_cancel]
  apply Counting.moving
  · simp [step, resetMasterActive, htc, hload, active]
  · simp [step, hload]
  · simpa [Ledger.next, hload] using fits
  · simpa [Ledger.next, hload, htc, none] using hpos
  · simpa [step, Ledger.next, hload] using base
  · simp only [step, Ledger.next, hload, htc, loaded, none, Bool.false_or, if_true,
      Bool.false_eq_true, if_false, Nat.sub_zero]
    rw [hsub, fits.toNat_lt (by omega)]
  · simp [step, Ledger.next, hload, htc, loaded, none, counter]

theorem next_moving (active : s.masterActive = true) (loaded : s.loadCommandD1 = false)
    (fits : Fits p l.command) (some : l.accepted < words b l.command)
    (base : s.baseAddress = (commandAddress b l.command).setWidth _)
    (length : s.nextLengthCounter.toNat = (words b l.command - 1 - l.accepted) * 2 ^ b)
    (counter : s.transferCounter = BitVec.ofNat _ ((l.accepted + 1) * 2 ^ b)) :
    Counting (step s i) (l.next s i) := by
  have hload : loadCommand s i = false := loadCommand_of_active active
  cases htc : transferComplete s i with
  | false =>
    apply Counting.moving
    · simp [step, resetMasterActive, htc, hload, active]
    · simp [step, hload]
    · simpa [Ledger.next, hload] using fits
    · simpa [Ledger.next, hload, htc] using some
    · simpa [step, Ledger.next, hload] using base
    · simpa [step, Ledger.next, hload, htc, loaded] using length
    · simpa [step, Ledger.next, hload, htc, loaded] using counter
  | true =>
    by_cases hlast : l.accepted + 1 = words b l.command
    · have hzero : s.nextLengthCounter = 0#_ := by
        rw [eq_zero_iff_of_toNat length]
        omega
      apply Counting.idle
      · simp [step, resetMasterActive, htc, hload, hzero]
      · simp [step, resetWrite, htc, hzero]
      · simp [step, hload]
      · simpa [Ledger.next, hload, htc] using hlast
    · have hle : 2 ^ b ≤ s.nextLengthCounter.toNat := by
        rw [length]
        exact Nat.le_mul_of_pos_left _ (by omega)
      have hBE : (BitVec.ofNat p.lengthWidth (2 ^ b)).toNat = 2 ^ b := by
        rw [BitVec.toNat_ofNat, Nat.mod_eq_of_lt (hle.trans_lt s.nextLengthCounter.isLt)]
      have hne : s.nextLengthCounter ≠ 0#_ := by
        rw [Ne, eq_zero_iff_of_toNat length]
        omega
      have hsub : (s.nextLengthCounter - BitVec.ofNat _ (2 ^ b)).toNat =
          (words b l.command - 1 - (l.accepted + 1)) * 2 ^ b := by
        rw [BitVec.toNat_sub_of_le (by rw [BitVec.le_def, hBE]; exact hle), hBE, length,
          ← Nat.sub_sub, Nat.sub_mul _ 1, one_mul]
      apply Counting.moving
      · simp [step, resetMasterActive, hne, hload, active]
      · simp [step, hload]
      · simpa [Ledger.next, hload] using fits
      · simp only [Ledger.next, hload, htc]
        simp
        omega
      · simpa [step, Ledger.next, hload] using base
      · simpa [step, Ledger.next, hload, htc] using hsub
      · simp only [step, Ledger.next, hload, htc, counter]
        simp [Nat.succ_mul, BitVec.ofNat_add]

theorem next (h : Counting s l) (ha : loadCommand s i = true → Fits p i.snkCommandData) :
    Counting (step s i) (l.next s i) := by
  cases h with
  | idle active write _ done => exact next_idle active write done ha
  | loaded active write loaded fits none base length counter =>
    exact next_loaded active write loaded fits none base length counter
  | moving active loaded fits some base length counter =>
    exact next_moving active loaded fits some base length counter

end Counting

/-- In every run of commands that fit, the length counter counts the accepted words. -/
theorem counting {c : Monitored p} (h : (writer p).Reachable c) : Counting c.hw c.ledger := by
  refine h.invariant (I := fun c => Counting c.hw c.ledger) ?_ ?_
  · rintro c rfl
    exact Counting.reset
  · rintro c i - hc ha
    exact hc.next ha

end AvalonCores.MemoryTester.PatternWriter
