import Mathlib.Tactic
import AvalonCores.Sync.Circuit
import AvalonCores.Sync.ShowAhead
import AvalonCores.MemoryTester.Burst

/-! The read master `mtm_pattern_reader`: the words that it posts of a command, and the flow control
that keeps room in its FIFO for the words that are on their way. -/

namespace AvalonCores.MemoryTester.PatternReader

open AvalonCores.Sync

variable {b : ℕ} {p : MasterParams b}

structure State (p : MasterParams b) where
  loadCommandD1 : Bool
  masterActive : Bool
  read : Bool
  firstTransfer : Bool
  earlyDoneEnable : Bool
  baseAddress : BitVec p.addressWidth
  transferCounter : BitVec p.lengthWidth
  transferAddress : BitVec p.addressWidth
  nextLengthCounter : BitVec p.lengthWidth
  shortFirstBurstCountD1 : BitVec p.burstWidth
  shortLastBurstCountD1 : BitVec p.burstWidth
  burstCountD1 : BitVec p.burstWidth
  pendingReadsCounter : BitVec (p.fifoDepthLog2 + 1)
  fifo : List (Word b)
deriving DecidableEq

/-- The inputs of a cycle.  `fifoIdle` is what an empty FIFO shows at its output. -/
structure Inputs (b : ℕ) where
  masterWaitrequest : Bool
  masterReaddata : Word b
  masterReaddatavalid : Bool
  srcReady : Bool
  snkCommandData : ReadCommand
  snkCommandValid : Bool
  fifoIdle : Word b
deriving DecidableEq

def reset : State p :=
  ⟨false, false, false, false, false, 0#_, 0#_, 0#_, 0#_, 0#_, 0#_, 0#_, 0#_, []⟩

variable (s : State p) (i : Inputs b)

def transferComplete : Bool := s.read && !i.masterWaitrequest

def burstCount : BitVec p.burstWidth :=
  selectBurstCount p (enableShortLastBurst p i.snkCommandData.toCommand s.nextLengthCounter)
    (enableShortFirstBurst p s.firstTransfer (transferComplete s i))
    s.shortLastBurstCountD1 s.shortFirstBurstCountD1

/-- The bytes that a burst moves. -/
def transferSize : ℕ := 2 ^ b * (burstCount s i).toNat

def snkCommandReady : Bool :=
  !s.masterActive && s.earlyDoneEnable ||
    !s.masterActive && !s.earlyDoneEnable && s.pendingReadsCounter == 0#_

def loadCommand : Bool := i.snkCommandValid && snkCommandReady s

def srcValid : Bool := !s.fifo.isEmpty

def srcData : Word b := ShowAhead.front s.fifo i.fifoIdle

def fifoWrite : Bool := i.masterReaddatavalid

def fifoRead : Bool := srcValid s && i.srcReady

/-- The source port transfers a word. -/
def delivers : Bool := srcValid s && i.srcReady

/-- The FIFO is read with each word that the source port transfers. -/
theorem delivers_eq : delivers s i = fifoRead s i := rfl

def resetMasterActive : Bool :=
  !loadCommand s i && s.nextLengthCounter == 0#_ && transferComplete s i

/-- The FIFO and the words on their way leave no room for two bursts of the maximum size. -/
def tooManyPendingReads : Bool :=
  decide (p.fifoDepth - p.maxBurstCount * 2 < s.fifo.length + s.pendingReadsCounter.toNat)

def setRead : Bool := s.masterActive && !tooManyPendingReads s && !s.read

def resetRead : Bool :=
  resetMasterActive s i || transferComplete s i && tooManyPendingReads s

def step : State p where
  loadCommandD1 := loadCommand s i
  masterActive :=
    if resetMasterActive s i then false
    else if loadCommand s i then true
    else s.masterActive
  read :=
    if resetRead s i then false
    else if setRead s then true
    else s.read
  firstTransfer :=
    if loadCommand s i then true
    else if s.firstTransfer && transferComplete s i then false
    else s.firstTransfer
  earlyDoneEnable :=
    if loadCommand s i then i.snkCommandData.earlyDone else s.earlyDoneEnable
  baseAddress :=
    if loadCommand s i then (commandAddress b i.snkCommandData.toCommand).setWidth _
    else s.baseAddress
  transferCounter :=
    if loadCommand s i then 0#_
    else if transferComplete s i || s.loadCommandD1 then
      s.transferCounter + BitVec.ofNat _ (transferSize s i)
    else s.transferCounter
  transferAddress :=
    if transferComplete s i || s.loadCommandD1 then s.baseAddress + s.transferCounter.setWidth _
    else s.transferAddress
  nextLengthCounter :=
    if loadCommand s i then (commandLength b i.snkCommandData.toCommand).setWidth _
    else if transferComplete s i || s.loadCommandD1 then
      s.nextLengthCounter - BitVec.ofNat _ (transferSize s i)
    else s.nextLengthCounter
  shortFirstBurstCountD1 :=
    if loadCommand s i then shortFirstBurstCount p i.snkCommandData.toCommand
    else s.shortFirstBurstCountD1
  shortLastBurstCountD1 :=
    if loadCommand s i then shortLastBurstCount p i.snkCommandData.toCommand
    else s.shortLastBurstCountD1
  burstCountD1 :=
    if transferComplete s i || s.loadCommandD1 then burstCount s i else s.burstCountD1
  pendingReadsCounter :=
    match i.masterReaddatavalid, transferComplete s i with
    | false, false => s.pendingReadsCounter
    | false, true => s.pendingReadsCounter + s.burstCountD1.setWidth _
    | true, false => s.pendingReadsCounter - 1#_
    | true, true => s.pendingReadsCounter + s.burstCountD1.setWidth _ - 1#_
  fifo :=
    ShowAhead.next s.fifo (fifoRead s i) (fifoWrite i) (byteReversal i.masterReaddata)

/-- The command that the reader works on and the words posted of it; the words posted and not yet
returned; and the words that the memory has returned and the source port has delivered. -/
structure Ledger (b : ℕ) where
  command : ReadCommand
  posted : ℕ
  outstanding : ℕ
  returned : List (Word b)
  delivered : List (Word b)

def Ledger.next (l : Ledger b) (s : State p) (i : Inputs b) : Ledger b where
  command := if loadCommand s i then i.snkCommandData else l.command
  posted :=
    if loadCommand s i then 0
    else if transferComplete s i then l.posted + s.burstCountD1.toNat
    else l.posted
  outstanding :=
    (if transferComplete s i then l.outstanding + s.burstCountD1.toNat else l.outstanding) -
      i.masterReaddatavalid.toNat
  returned := l.returned ++ if i.masterReaddatavalid then [i.masterReaddata] else []
  delivered := l.delivered ++ if delivers s i then [srcData s i] else []

/-- The ledger counts the words of each accepted burst. -/
theorem Ledger.next_of_accepted {s : State p} {i : Inputs b} {l : Ledger b}
    (hload : loadCommand s i = false) (htc : transferComplete s i = true) :
    (l.next s i).command = l.command ∧
      (l.next s i).posted = l.posted + s.burstCountD1.toNat := by
  simp [Ledger.next, hload, htc]

theorem Ledger.next_of_stalled {s : State p} {i : Inputs b} {l : Ledger b}
    (hload : loadCommand s i = false) (htc : transferComplete s i = false) :
    (l.next s i).command = l.command ∧ (l.next s i).posted = l.posted := by
  simp [Ledger.next, hload, htc]

/-- An active master accepts no command. -/
theorem loadCommand_of_active {s : State p} {i : Inputs b} (active : s.masterActive = true) :
    loadCommand s i = false := by
  simp [loadCommand, snkCommandReady, active]

theorem transferComplete_of_read {s : State p} {i : Inputs b} (read : s.read = false) :
    transferComplete s i = false := by
  simp [transferComplete, read]

/-- An idle master stays so unless it accepts a command. -/
theorem step_masterActive {s : State p} {i : Inputs b} (hs : s.masterActive = false)
    (hload : loadCommand s i = false) : (step s i).masterActive = false := by
  simp [step, hload, hs]

theorem masterActive_of_step {s : State p} {i : Inputs b} (hload : loadCommand s i = false)
    (hactive : (step s i).masterActive = true) : s.masterActive = true := by
  by_contra hidle
  rw [step_masterActive (by simpa using hidle) hload] at hactive
  contradiction

/-- An idle reader stays idle unless it accepts a command, and offers no read either way. -/
theorem step_idle {s : State p} {i : Inputs b} (active : s.masterActive = false)
    (read : s.read = false) : (step s i).masterActive = loadCommand s i ∧
      (step s i).read = false ∧ (step s i).loadCommandD1 = loadCommand s i := by
  have htc : transferComplete s i = false := transferComplete_of_read read
  have hset : setRead s = false := by simp [setRead, active]
  have hreset : resetMasterActive s i = false := by simp [resetMasterActive, htc]
  refine ⟨?_, by simp [step, hset, read], rfl⟩
  cases hload : loadCommand s i <;> simp [step, hreset, hload, active]

/-- The first burst of a command is chosen before a read of it is on offer. -/
theorem burstCount_first {s : State p} {i : Inputs b} (hp : p.burstEnable = true)
    (hrealign : p.burstRealignEnable = true) (first : s.firstTransfer = true)
    (htc : transferComplete s i = false) : burstCount s i = s.shortFirstBurstCountD1 := by
  simp [burstCount, selectBurstCount, hp, enableShortFirstBurst, hrealign, first, htc]

theorem burstCount_later {s : State p} {i : Inputs b} (hp : p.burstEnable = true)
    (htc : transferComplete s i = true) : (burstCount s i).toNat =
      if enableShortLastBurst p i.snkCommandData.toCommand s.nextLengthCounter then
        s.shortLastBurstCountD1.toNat
      else p.maxBurstCount := by
  have hfirst : enableShortFirstBurst p s.firstTransfer (transferComplete s i) = false := by
    simp [enableShortFirstBurst, htc]
  rw [burstCount, hfirst, selectBurstCount_later hp]

/-- An active master offers reads; once idle it offers none. -/
theorem step_read {s : State p} {i : Inputs b} (h : s.read = true → s.masterActive = true)
    (hread : (step s i).read = true) : (step s i).masterActive = true := by
  simp only [step] at hread ⊢
  split_ifs at hread with hreset hset
  · have hreset' : resetMasterActive s i = false := by simp_all [resetRead]
    simp only [setRead, Bool.and_eq_true] at hset
    simp [hreset', hset.1.1]
  · have hreset' : resetMasterActive s i = false := by simp_all [resetRead]
    simp [hreset', h hread]

/-- The early done mode is that of the command. -/
theorem step_earlyDoneEnable {s : State p} {i : Inputs b} {l : Ledger b}
    (h : s.earlyDoneEnable = l.command.earlyDone) :
    (step s i).earlyDoneEnable = (l.next s i).command.earlyDone := by
  simp only [step, Ledger.next, h]
  split <;> rfl

structure Monitored (p : MasterParams b) where
  hw : State p
  ledger : Ledger b

/-- The registers after a reset, before the first command. -/
def Monitored.reset : Monitored p := ⟨PatternReader.reset, ⟨⟨0#64, 0#32⟩, false⟩, 0, 0, [], []⟩

/-- The reader between a source of commands, a sink of words, and a memory that returns a word only
for a read that it has accepted in an earlier cycle. -/
def reader (p : MasterParams b) : Circuit (Monitored p) (Inputs b) where
  init c := c = .reset
  admits c i := i.masterReaddatavalid = true → 0 < c.ledger.outstanding
  step c i := ⟨step c.hw i, c.ledger.next c.hw i⟩

instance (c : Monitored p) (i : Inputs b) : Decidable ((reader p).admits c i) :=
  inferInstanceAs (Decidable (_ → _))

section FlowControl

/-- Every burst count register holds at most the maximum burst count. -/
structure Bounded (s : State p) : Prop where
  first : s.shortFirstBurstCountD1.toNat ≤ p.maxBurstCount
  last : s.shortLastBurstCountD1.toNat ≤ p.maxBurstCount
  current : s.burstCountD1.toNat ≤ p.maxBurstCount

theorem shortFirstBurstCount_le (c : Command) :
    (shortFirstBurstCount p c).toNat ≤ p.maxBurstCount := by
  cases hp : p.burstEnable with
  | false => simp [shortFirstBurstCount, hp]
  | true => rw [shortFirstBurstCount_toNat hp]; exact firstBurst_le_max

theorem shortLastBurstCount_le (c : Command) :
    (shortLastBurstCount p c).toNat ≤ p.maxBurstCount := by
  cases hp : p.burstEnable with
  | false => simp [shortLastBurstCount, hp]
  | true => rw [shortLastBurstCount_toNat hp]; exact lastBurst_le

variable {s : State p} {i : Inputs b}

theorem Bounded.burstCount (h : Bounded s) : (burstCount s i).toNat ≤ p.maxBurstCount := by
  have := p.maxBurstCount_pos
  simp only [PatternReader.burstCount, selectBurstCount]
  split_ifs
  · exact h.first
  · exact h.last
  · exact (ofNat_burstWidth le_rfl).le
  · rw [one_burstWidth]; omega

theorem Bounded.next (h : Bounded s) : Bounded (step s i) := by
  constructor
  · simp only [step]
    split
    · exact shortFirstBurstCount_le _
    · exact h.first
  · simp only [step]
    split
    · exact shortLastBurstCount_le _
    · exact h.last
  · simp only [step]
    split
    · exact h.burstCount
    · exact h.current

/-- The counter counts the words on their way, and these and the words in the FIFO fit in it.
While a read is offered there is also room for the words of that read. -/
structure Flow (s : State p) (l : Ledger b) : Prop where
  bounded : Bounded s
  pending : s.pendingReadsCounter.toNat = l.outstanding
  room : s.fifo.length + l.outstanding ≤ p.fifoDepth
  offered : s.read = true →
    s.fifo.length + l.outstanding + p.maxBurstCount ≤ p.fifoDepth
  words : l.delivered ++ s.fifo = l.returned.map byteReversal

theorem fifoDepth_ge (p : MasterParams b) : p.maxBurstCount * 2 ≤ p.fifoDepth := by
  rw [MasterParams.maxBurstCount, MasterParams.fifoDepth, ← pow_succ]
  exact Nat.pow_le_pow_right (by omega) p.fifoDepth_ge

theorem setWidth_pending (x : BitVec p.burstWidth) :
    (x.setWidth (p.fifoDepthLog2 + 1)).toNat = x.toNat := by
  rw [BitVec.toNat_setWidth, Nat.mod_eq_of_lt]
  have hle : p.burstWidth ≤ p.fifoDepthLog2 + 1 := by
    have := p.fifoDepth_ge
    unfold MasterParams.burstWidth
    omega
  exact x.isLt.trans_le (Nat.pow_le_pow_right (by omega) hle)

variable {l : Ledger b}

theorem Flow.pending_step (h : Flow s l)
    (ha : i.masterReaddatavalid = true → 0 < l.outstanding) :
    (step s i).pendingReadsCounter.toNat = (l.next s i).outstanding := by
  have hD : p.fifoDepth + p.fifoDepth = 2 ^ (p.fifoDepthLog2 + 1) := by
    rw [MasterParams.fifoDepth, pow_succ]
    omega
  have hpos : 0 < p.fifoDepth := by unfold MasterParams.fifoDepth; positivity
  have hone : (1#(p.fifoDepthLog2 + 1)).toNat = 1 := by simp
  have hroom := h.room
  have hpending := h.pending
  have hadd (ht : transferComplete s i = true) :
      (s.pendingReadsCounter + s.burstCountD1.setWidth _).toNat =
        l.outstanding + s.burstCountD1.toNat := by
    have hoffered := h.offered (by simp_all [transferComplete])
    have hle := h.bounded.current
    rw [BitVec.toNat_add, setWidth_pending, hpending, Nat.mod_eq_of_lt (by omega)]
  have hsub (x : BitVec (p.fifoDepthLog2 + 1)) (hx : 0 < x.toNat) :
      (x - 1#_).toNat = x.toNat - 1 := by
    rw [BitVec.toNat_sub_of_le (by rw [BitVec.le_def, hone]; exact hx), hone]
  cases hv : i.masterReaddatavalid with
  | false =>
    cases ht : transferComplete s i with
    | false => simpa [step, Ledger.next, hv, ht] using hpending
    | true => simpa [step, Ledger.next, hv, ht] using hadd ht
  | true =>
    have hout := ha hv
    cases ht : transferComplete s i with
    | false =>
      simp only [step, Ledger.next, hv, ht, hsub _ (hpending ▸ hout)]
      simp [hpending]
    | true =>
      simp only [step, Ledger.next, hv, ht, hsub _ (by rw [hadd ht]; omega), hadd ht]
      simp

theorem fifoRead_ne_nil (hr : fifoRead s i = true) : s.fifo ≠ [] := by
  simp only [fifoRead, srcValid, Bool.and_eq_true, Bool.not_eq_true',
    List.isEmpty_eq_false_iff] at hr
  exact hr.1

theorem Flow.words_step (h : Flow s l) :
    (l.next s i).delivered ++ (step s i).fifo = (l.next s i).returned.map byteReversal := by
  have hhistory := ShowAhead.next_history h.words (fifoRead_ne_nil (i := i))
    i.masterReaddatavalid (byteReversal i.masterReaddata) i.fifoIdle
  simp only [Ledger.next, delivers_eq]
  refine hhistory.trans ?_
  cases i.masterReaddatavalid <;> simp

/-- A read raised or kept up leaves room for the words of the next one. -/
theorem Flow.next (h : Flow s l) (ha : i.masterReaddatavalid = true → 0 < l.outstanding) :
    Flow (step s i) (l.next s i) := by
  have hD := fifoDepth_ge p
  have hroom := h.room
  have hcurrent := h.bounded.current
  have hfifo : (step s i).fifo.length + (fifoRead s i).toNat =
      s.fifo.length + i.masterReaddatavalid.toNat :=
    ShowAhead.next_length fifoRead_ne_nil _ _
  have htoo : tooManyPendingReads s =
      decide (p.fifoDepth - p.maxBurstCount * 2 < s.fifo.length + l.outstanding) := by
    rw [tooManyPendingReads, h.pending]
  have hvalid : i.masterReaddatavalid.toNat ≤ l.outstanding := by
    cases hv : i.masterReaddatavalid with
    | false => exact Nat.zero_le _
    | true => exact ha hv
  refine ⟨h.bounded.next, h.pending_step ha, ?_, ?_, h.words_step⟩
  · unfold Ledger.next
    cases ht : transferComplete s i with
    | false => simp only [Bool.false_eq_true, if_false]; omega
    | true =>
      have hoffered := h.offered (by simp_all [transferComplete])
      simp only [if_true]
      omega
  · intro hread
    simp only [step] at hread
    unfold Ledger.next
    cases ht : transferComplete s i with
    | false =>
      have : s.fifo.length + l.outstanding + p.maxBurstCount ≤ p.fifoDepth := by
        split_ifs at hread with hreset hset
        · simp only [setRead, htoo, Bool.and_eq_true, Bool.not_eq_true', decide_eq_false_iff_not]
            at hset
          omega
        · exact h.offered hread
      simp only [Bool.false_eq_true, if_false]
      omega
    | true =>
      have hreset : resetRead s i = false := by
        by_contra hr
        simp [show resetRead s i = true by simpa using hr] at hread
      simp only [resetRead, ht, htoo, Bool.or_eq_false_iff, Bool.true_and,
        decide_eq_false_iff_not] at hreset
      simp only [if_true]
      omega

theorem flow {c : Monitored p} (h : (reader p).Reachable c) : Flow c.hw c.ledger := by
  refine h.invariant (I := fun c => Flow c.hw c.ledger) ?_ ?_
  · rintro c rfl
    refine ⟨⟨?_, ?_, ?_⟩, ?_, ?_, ?_, ?_⟩ <;> simp [Monitored.reset, PatternReader.reset]
  · rintro c i - hf ha
    exact hf.next ha

/-- In every reachable state the pending counter is the number of words posted and not returned;
these and the words in the FIFO fit in it, so that a returned word never finds it full; and the
source port has delivered the first returned words, byte-reversed. -/
theorem flow_control {c : Monitored p} (h : (reader p).Reachable c) {i : Inputs b}
    (ha : (reader p).admits c i) :
    c.hw.pendingReadsCounter.toNat = c.ledger.outstanding ∧
      c.hw.fifo.length + c.ledger.outstanding ≤ p.fifoDepth ∧
      (i.masterReaddatavalid = true → c.hw.fifo.length < p.fifoDepth) ∧
      c.ledger.delivered ++ c.hw.fifo = c.ledger.returned.map byteReversal := by
  have hf := flow h
  have hroom := hf.room
  refine ⟨hf.pending, hroom, fun hv => ?_, hf.words⟩
  have := ha hv
  omega

/-- A cycle in which the command bus shows `c`, and the memory may return the word `x`. -/
def Inputs.cycle (c : ReadCommand) (commandValid : Bool) (x : Word 2) (valid : Bool) : Inputs 2 :=
  ⟨false, x, valid, false, c, commandValid, 0#32⟩

/-- A read of two words, of which the source port delivers the first one while the memory returns
the second one. -/
def twoWords : List (Inputs 2) :=
  [.cycle ⟨⟨0#64, 8#32⟩, false⟩ true 0#32 false, .cycle ⟨⟨0#64, 8#32⟩, false⟩ false 0#32 false,
    .cycle ⟨⟨0#64, 8#32⟩, false⟩ false 0#32 false,
    .cycle ⟨⟨0#64, 8#32⟩, false⟩ false 0x01020304#32 true,
    { Inputs.cycle ⟨⟨0#64, 8#32⟩, false⟩ false 0x05060708#32 true with srcReady := true }]

theorem flow_control_two_words :
    let c := run (reader .shipped).step .reset twoWords
    c.ledger.delivered = [0x04030201#32] ∧ c.hw.fifo = [0x08070605#32] ∧
      c.hw.pendingReadsCounter.toNat = c.ledger.outstanding ∧
      c.ledger.delivered ++ c.hw.fifo = c.ledger.returned.map byteReversal := by
  have hrun := (Circuit.Reachable.init (C := reader .shipped) rfl).run twoWords (by decide +kernel)
  obtain ⟨hpending, -, -, hwords⟩ :=
    flow_control hrun (i := .cycle ⟨⟨0#64, 8#32⟩, false⟩ false 5#32 false) (by decide +kernel)
  exact ⟨by decide +kernel, by decide +kernel, hpending, hwords⟩

end FlowControl

section Posting

/-- The reader with any memory, for commands that fit. -/
def poster (p : MasterParams b) : Circuit (Monitored p) (Inputs b) where
  init c := c = .reset
  admits c i := loadCommand c.hw i = true → Fits p i.snkCommandData.toCommand
  step c i := ⟨step c.hw i, c.ledger.next c.hw i⟩

instance (c : Monitored p) (i : Inputs b) : Decidable ((poster p).admits c i) :=
  inferInstanceAs (Decidable (_ → _))

/-- The short burst counts of a command with words are positive. -/
def Positive (s : State p) : Prop :=
  p.burstEnable = true → 0 < s.shortFirstBurstCountD1.toNat ∧ 0 < s.shortLastBurstCountD1.toNat

/-- How far the reader has got: it waits for a command, having posted all words of the last one,
has just loaded one, or has still to post a burst.  The length counter runs one burst ahead. -/
inductive Posting (s : State p) (l : Ledger b) : Prop
  | idle (active : s.masterActive = false) (read : s.read = false)
      (loaded : s.loadCommandD1 = false) (done : words b l.command.toCommand ≤ l.posted)
  | loaded (active : s.masterActive = true) (read : s.read = false)
      (loaded : s.loadCommandD1 = true) (fits : Fits p l.command.toCommand)
      (positive : Positive s) (none : l.posted = 0)
      (length : s.nextLengthCounter = BitVec.ofNat _ (words b l.command.toCommand * 2 ^ b))
  | moving (active : s.masterActive = true) (loaded : s.loadCommandD1 = false)
      (fits : Fits p l.command.toCommand) (positive : Positive s)
      (some : 0 < s.burstCountD1.toNat)
      (length : s.nextLengthCounter + BitVec.ofNat _ ((l.posted + s.burstCountD1.toNat) * 2 ^ b) =
        BitVec.ofNat _ (words b l.command.toCommand * 2 ^ b))

variable {s : State p} {i : Inputs b}

theorem Positive.burstCount (h : Positive s) : 0 < (burstCount s i).toNat := by
  simp only [PatternReader.burstCount, selectBurstCount]
  split_ifs with hp
  · exact (h hp).1
  · exact (h hp).2
  · rw [ofNat_burstWidth le_rfl]
    exact p.maxBurstCount_pos
  · rw [one_burstWidth]
    exact Nat.one_pos

theorem Positive.step (h : Positive s) (hload : loadCommand s i = false) :
    Positive (step s i) := by
  intro hp
  simpa [PatternReader.step, hload] using h hp

namespace Posting

variable {s : State p} {l : Ledger b} {i : Inputs b}

theorem done (h : Posting s l) (ha : s.masterActive = false) :
    words b l.command.toCommand ≤ l.posted := by
  cases h with
  | idle _ _ _ done => exact done
  | loaded active | moving active => simp [ha] at active

theorem next_idle (active : s.masterActive = false) (read : s.read = false)
    (done : words b l.command.toCommand ≤ l.posted)
    (ha : loadCommand s i = true → Fits p i.snkCommandData.toCommand) :
    Posting (step s i) (l.next s i) := by
  have htc : transferComplete s i = false := transferComplete_of_read read
  obtain ⟨hactive, hread, hloaded⟩ := step_idle (i := i) active read
  cases hload : loadCommand s i with
  | false =>
    apply Posting.idle
    · rw [hactive, hload]
    · exact hread
    · rw [hloaded, hload]
    · simpa [Ledger.next, hload, htc] using done
  | true =>
    have hfits := ha hload
    apply Posting.loaded
    · rw [hactive, hload]
    · exact hread
    · rw [hloaded, hload]
    · simpa [Ledger.next, hload] using hfits
    · intro hp
      simp only [step, hload, if_true, shortFirstBurstCount_toNat hp, shortLastBurstCount_toNat hp]
      exact ⟨firstBurst_pos hfits.1, lastBurst_pos⟩
    · simp [Ledger.next, hload]
    · simpa [step, Ledger.next, hload] using
        commandLength_setWidth p i.snkCommandData.toCommand

theorem next_loaded (active : s.masterActive = true) (read : s.read = false)
    (loaded : s.loadCommandD1 = true) (fits : Fits p l.command.toCommand) (positive : Positive s)
    (none : l.posted = 0)
    (length : s.nextLengthCounter = BitVec.ofNat _ (words b l.command.toCommand * 2 ^ b)) :
    Posting (step s i) (l.next s i) := by
  have htc : transferComplete s i = false := transferComplete_of_read read
  have hload : loadCommand s i = false := loadCommand_of_active active
  apply Posting.moving
  · simp [step, resetMasterActive, htc, hload, active]
  · simp [step, hload]
  · simpa [Ledger.next, hload] using fits
  · exact positive.step hload
  · simpa [step, loaded] using positive.burstCount
  · simp only [step, Ledger.next, hload, htc, loaded, none, length, transferSize, Bool.false_or,
      if_true, Bool.false_eq_true, if_false, Nat.zero_add]
    rw [mul_comm (2 ^ b), BitVec.sub_add_cancel]

theorem next_moving (active : s.masterActive = true) (loaded : s.loadCommandD1 = false)
    (fits : Fits p l.command.toCommand) (positive : Positive s) (some : 0 < s.burstCountD1.toNat)
    (length : s.nextLengthCounter + BitVec.ofNat _ ((l.posted + s.burstCountD1.toNat) * 2 ^ b) =
      BitVec.ofNat _ (words b l.command.toCommand * 2 ^ b)) :
    Posting (step s i) (l.next s i) := by
  have hload : loadCommand s i = false := loadCommand_of_active active
  cases htc : transferComplete s i with
  | false =>
    apply Posting.moving
    · simp [step, resetMasterActive, htc, hload, active]
    · simp [step, hload]
    · simpa [Ledger.next, hload] using fits
    · exact positive.step hload
    · simpa [step, htc, loaded] using some
    · simpa [step, Ledger.next, hload, htc, loaded] using length
  | true =>
    by_cases hzero : s.nextLengthCounter = 0#_
    · have hreset : resetMasterActive s i = true := by
        simp [resetMasterActive, htc, hload, hzero]
      apply Posting.idle
      · simp [step, hreset]
      · simp [step, resetRead, hreset]
      · simp [step, hload]
      · rw [hzero, BitVec.zero_add] at length
        obtain ⟨hcommand, hposted⟩ := Ledger.next_of_accepted (l := l) hload htc
        rw [hposted, hcommand]
        exact fits.le_of_ofNat_eq (by omega) length
    · apply Posting.moving
      · simp [step, resetMasterActive, hzero, hload, active]
      · simp [step, hload]
      · simpa [Ledger.next, hload] using fits
      · exact positive.step hload
      · simpa [step, htc] using positive.burstCount
      · simp only [step, Ledger.next, hload, htc, transferSize, Bool.true_or, if_true,
          Bool.false_eq_true, if_false]
        rw [← length, Nat.add_mul _ (burstCount s i).toNat, BitVec.ofNat_add, mul_comm (2 ^ b),
          BitVec.add_comm (BitVec.ofNat _ ((l.posted + _) * _)), ← BitVec.add_assoc,
          BitVec.sub_add_cancel]

theorem next (h : Posting s l) (ha : loadCommand s i = true → Fits p i.snkCommandData.toCommand) :
    Posting (step s i) (l.next s i) := by
  cases h with
  | idle active read _ done => exact next_idle active read done ha
  | loaded active read loaded fits positive none length =>
    exact next_loaded active read loaded fits positive none length
  | moving active loaded fits positive some length =>
    exact next_moving active loaded fits positive some length

end Posting

theorem posting {c : Monitored p} (h : (poster p).Reachable c) : Posting c.hw c.ledger := by
  refine h.invariant (I := fun c => Posting c.hw c.ledger) ?_ ?_
  · rintro c rfl
    apply Posting.idle <;> simp [Monitored.reset, PatternReader.reset, words]
  · rintro c i - hc ha
    exact hc.next ha

end Posting

end AvalonCores.MemoryTester.PatternReader
