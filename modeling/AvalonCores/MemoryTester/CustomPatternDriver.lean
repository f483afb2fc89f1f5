import Mathlib.Tactic
import AvalonCores.MemoryTester.CustomPatternChecker
import AvalonCores.MemoryTester.CustomPatternGenerator
import AvalonCores.MemoryTester.DirectIo

/-! The drivers `custom_pattern_generator.c` and `custom_pattern_checker.c`.  Their functions are
the same but for the checker's own ones.  `behaves` says what an access does to each of the stopped
cores, and `implements_registerBits` that their slave ports are register files. -/

namespace AvalonCores.MemoryTester

namespace CustomPattern

open Sync Program

/-- The definitions of the header of a core, for the registers that both cores have. -/
structure Regs where
  payloadLengthReg : ℕ
  patternSettingsReg : ℕ
  controlReg : ℕ
  patternLengthMask : BitVec 32
  patternLengthByteOffset : ℕ
  patternLengthBitOffset : ℕ
  patternPositionMask : BitVec 32
  patternPositionByteOffset : ℕ
  patternPositionBitOffset : ℕ
  infinitePayloadLengthEnableMask : BitVec 32
  infinitePayloadLengthEnableByteOffset : ℕ
  infinitePayloadLengthEnableBitOffset : ℕ
  runMask : BitVec 32
  runByteOffset : ℕ
  runBitOffset : ℕ
deriving DecidableEq, Repr

/-- `custom_pattern_generator_regs.h` -/
def generatorRegs : Regs where
  payloadLengthReg := 0x0
  patternSettingsReg := 0x4
  controlReg := 0x8
  patternLengthMask := 0x0000FFFF#32
  patternLengthByteOffset := 0
  patternLengthBitOffset := 0
  patternPositionMask := 0xFFFF0000#32
  patternPositionByteOffset := 2
  patternPositionBitOffset := 16
  infinitePayloadLengthEnableMask := 0x00000001#32
  infinitePayloadLengthEnableByteOffset := 0
  infinitePayloadLengthEnableBitOffset := 0
  runMask := 0x01000000#32
  runByteOffset := 3
  runBitOffset := 24

/-- `custom_pattern_checker_regs.h` -/
def checkerRegs : Regs where
  payloadLengthReg := 0x0
  patternSettingsReg := 0x4
  controlReg := 0x8
  patternLengthMask := 0x0000FFFF#32
  patternLengthByteOffset := 0
  patternLengthBitOffset := 0
  patternPositionMask := 0xFFFF0000#32
  patternPositionByteOffset := 2
  patternPositionBitOffset := 16
  infinitePayloadLengthEnableMask := 0x00000001#32
  infinitePayloadLengthEnableByteOffset := 0
  infinitePayloadLengthEnableBitOffset := 0
  runMask := 0x01000000#32
  runByteOffset := 3
  runBitOffset := 24

def checkerStatusReg : ℕ := 0xC

def checkerStopOnFailMask : BitVec 32 := 0x00000100#32

def checkerStopOnFailByteOffset : ℕ := 1

def checkerStopOnFailBitOffset : ℕ := 8

def checkerFailureDetectedMask : BitVec 32 := 0x00000001#32

def checkerFailureDetectedByteOffset : ℕ := 0

def checkerFailureDetectedBitOffset : ℕ := 0

section Driver

variable (g : Regs)

def setPayloadLength (length : BitVec 32) : Driver Unit :=
  write (iowr32Direct g.payloadLengthReg length)

def setPatternLength (length : BitVec 16) : Driver Unit :=
  write (iowr16Direct (g.patternSettingsReg + g.patternLengthByteOffset) length)

def setPatternPosition (position : BitVec 16) : Driver Unit :=
  write (iowr16Direct (g.patternSettingsReg + g.patternPositionByteOffset) position)

def enableInfinitePayloadLength : Driver Unit :=
  write (iowr8Direct (g.controlReg + g.infinitePayloadLengthEnableByteOffset) 1#8)

def disableInfinitePayloadLength : Driver Unit :=
  write (iowr8Direct (g.controlReg + g.infinitePayloadLengthEnableByteOffset) 0#8)

def readPayloadLength : Driver (BitVec 32) := read (iord32Direct g.payloadLengthReg)

/-- The function reads the control register, not the pattern settings. -/
def readPatternLength : Driver (BitVec 16) := do
  return ((← read (iord16Direct (g.controlReg + g.patternLengthBitOffset))) &&&
    g.patternLengthMask).setWidth 16

/-- The function reads the control register, not the pattern settings. -/
def readPatternPosition : Driver (BitVec 16) := do
  return ((← read (iord16Direct (g.controlReg + g.patternPositionByteOffset))) &&&
    (g.patternPositionMask >>> g.patternPositionBitOffset)).setWidth 16

def readInfinitePayloadLength : Driver (BitVec 8) := do
  return ((← read (iord8Direct (g.controlReg + g.infinitePayloadLengthEnableByteOffset))) &&&
    (g.infinitePayloadLengthEnableMask >>> g.infinitePayloadLengthEnableBitOffset)).setWidth 8

def readStart : Driver (BitVec 8) := do
  return ((← read (iord8Direct (g.controlReg + g.runByteOffset))) &&&
    (g.runMask >>> g.runBitOffset)).setWidth 8

end Driver

section Generator

def generatorSetPayloadLength : BitVec 32 → Driver Unit := setPayloadLength generatorRegs

def generatorSetPatternLength : BitVec 16 → Driver Unit := setPatternLength generatorRegs

def generatorSetPatternPosition : BitVec 16 → Driver Unit := setPatternPosition generatorRegs

def generatorEnableInfinitePayloadLength : Driver Unit := enableInfinitePayloadLength generatorRegs

def generatorDisableInfinitePayloadLength : Driver Unit :=
  disableInfinitePayloadLength generatorRegs

def generatorReadPayloadLength : Driver (BitVec 32) := readPayloadLength generatorRegs

def generatorReadPatternLength : Driver (BitVec 16) := readPatternLength generatorRegs

def generatorReadPatternPosition : Driver (BitVec 16) := readPatternPosition generatorRegs

def generatorReadInfinitePayloadLength : Driver (BitVec 8) :=
  readInfinitePayloadLength generatorRegs

def generatorReadStart : Driver (BitVec 8) := readStart generatorRegs

end Generator

section Checker

def checkerSetPayloadLength : BitVec 32 → Driver Unit := setPayloadLength checkerRegs

def checkerSetPatternLength : BitVec 16 → Driver Unit := setPatternLength checkerRegs

def checkerSetPatternPosition : BitVec 16 → Driver Unit := setPatternPosition checkerRegs

def checkerEnableInfinitePayloadLength : Driver Unit := enableInfinitePayloadLength checkerRegs

def checkerDisableInfinitePayloadLength : Driver Unit := disableInfinitePayloadLength checkerRegs

def checkerEnableStopOnFailure : Driver Unit :=
  write (iowr8Direct (checkerRegs.controlReg + checkerStopOnFailByteOffset) 1#8)

def checkerDisableStopOnFailure : Driver Unit :=
  write (iowr8Direct (checkerRegs.controlReg + checkerStopOnFailByteOffset) 0#8)

def checkerReadPayloadLength : Driver (BitVec 32) := readPayloadLength checkerRegs

def checkerReadPatternLength : Driver (BitVec 16) := readPatternLength checkerRegs

def checkerReadPatternPosition : Driver (BitVec 16) := readPatternPosition checkerRegs

def checkerReadInfinitePayloadLength : Driver (BitVec 8) := readInfinitePayloadLength checkerRegs

def checkerReadStopOnFailure : Driver (BitVec 8) := do
  return ((← read (iord8Direct (checkerRegs.controlReg + checkerStopOnFailByteOffset))) &&&
    (checkerStopOnFailMask >>> checkerStopOnFailBitOffset)).setWidth 8

def checkerReadStart : Driver (BitVec 8) := readStart checkerRegs

def checkerReadFailureDetected : Driver (BitVec 8) := do
  return ((← read (iord8Direct (checkerStatusReg + checkerFailureDetectedByteOffset))) &&&
    (checkerFailureDetectedMask >>> checkerFailureDetectedBitOffset)).setWidth 8

end Checker

/-- What the read functions return. -/
inductive Field
  | payloadLength
  | patternLength
  | patternPosition
  | infinitePayloadLength
  | start
  | stopOnFailure
  | failureDetected
deriving DecidableEq, Repr

/-- The width of the result of a read function. -/
@[reducible] def Field.width : Field → ℕ
  | payloadLength => 32
  | patternLength | patternPosition => 16
  | infinitePayloadLength | start | stopOnFailure | failureDetected => 8

/-- The read functions of the generator, or those of the checker with `stop`. -/
def Field.read (stop : Bool) : (f : Field) → Driver (BitVec f.width)
  | payloadLength => if stop then checkerReadPayloadLength else generatorReadPayloadLength
  | patternLength => if stop then checkerReadPatternLength else generatorReadPatternLength
  | patternPosition => if stop then checkerReadPatternPosition else generatorReadPatternPosition
  | infinitePayloadLength =>
    if stop then checkerReadInfinitePayloadLength else generatorReadInfinitePayloadLength
  | start => if stop then checkerReadStart else generatorReadStart
  | stopOnFailure => checkerReadStopOnFailure
  | failureDetected => checkerReadFailureDetected

/-- The calls of the setters. -/
inductive Setting
  | payloadLength (v : BitVec 32)
  | patternLength (v : BitVec 16)
  | patternPosition (v : BitVec 16)
  | infinitePayloadLength (enable : Bool)
  | stopOnFailure (enable : Bool)
deriving DecidableEq, Repr

namespace Setting

/-- The setters of the generator, or those of the checker with `stop`. -/
def set (stop : Bool) : Setting → Driver Unit
  | payloadLength v => if stop then checkerSetPayloadLength v else generatorSetPayloadLength v
  | patternLength v => if stop then checkerSetPatternLength v else generatorSetPatternLength v
  | patternPosition v => if stop then checkerSetPatternPosition v else generatorSetPatternPosition v
  | infinitePayloadLength true =>
    if stop then checkerEnableInfinitePayloadLength else generatorEnableInfinitePayloadLength
  | infinitePayloadLength false =>
    if stop then checkerDisableInfinitePayloadLength else generatorDisableInfinitePayloadLength
  | stopOnFailure true => checkerEnableStopOnFailure
  | stopOnFailure false => checkerDisableStopOnFailure

@[reducible] def field : Setting → Field
  | payloadLength _ => .payloadLength
  | patternLength _ => .patternLength
  | patternPosition _ => .patternPosition
  | infinitePayloadLength _ => .infinitePayloadLength
  | stopOnFailure _ => .stopOnFailure

/-- The value in the type of the matching read function. -/
def value : (x : Setting) → BitVec x.field.width
  | payloadLength v => v
  | patternLength v => v
  | patternPosition v => v
  | infinitePayloadLength enable | stopOnFailure enable => (BitVec.ofBool enable).setWidth 8

end Setting

/-- The words of the slave port. -/
structure Words where
  payloadLength : BitVec 32
  patternLength : BitVec 16
  patternPosition : BitVec 16
  infinitePayloadLength : Bool
  stopOnFailure : Bool
  start : Bool
  failureDetected : Bool
deriving DecidableEq, Repr

def Words.word (w : Words) : ℕ → BitVec 32
  | 0 => w.payloadLength
  | 1 => w.patternPosition ++ w.patternLength
  | 2 => 0#7 ++ BitVec.ofBool w.start ++ 0#15 ++ BitVec.ofBool w.stopOnFailure ++ 0#7 ++
      BitVec.ofBool w.infinitePayloadLength
  | 3 => 0#31 ++ BitVec.ofBool w.failureDetected
  | _ => 0#32

/-- The bits that keep what is written to them, apart from the run bit. -/
def writable (stop : Bool) (k : ℕ) : Bool := decide (k ≤ 64) || stop && decide (k = 72)

/-- The words after an access of a stopped core, which does not count words. -/
def Words.next (w : Words) (stop : Bool) (c : Csr) : Words where
  payloadLength := nextPayloadLength c 0 false w.payloadLength
  patternLength := nextPatternLength c w.patternLength
  patternPosition := nextPatternPosition c false 0#1 w.patternPosition
  infinitePayloadLength :=
    if loadInfinitePayloadLength c then c.writedata.getLsbD 0 else w.infinitePayloadLength
  stopOnFailure :=
    if stop && c.loadsLane 2#2 1 then c.writedata.getLsbD 8 else w.stopOnFailure
  start := w.start
  failureDetected := w.failureDetected

theorem getLsbD_control (start stop infinite : Bool) (k : ℕ) :
    (0#7 ++ BitVec.ofBool start ++ 0#15 ++ BitVec.ofBool stop ++ 0#7 ++
      BitVec.ofBool infinite).getLsbD k =
      (decide (k = 0) && infinite || decide (k = 8) && stop || decide (k = 24) && start) := by
  simp only [BitVec.getLsbD_append, BitVec.getLsbD_ofBool, BitVec.getLsbD_zero]
  split_ifs <;> grind

theorem loads_eq (c : Csr) (r : BitVec 2) :
    c.loads r = (c.write && decide (r.toNat = c.address.toNat)) := by
  rw [Csr.loads, beq_eq_decide, Bool.and_comm]

theorem getLsbD_nextPatternLength (c : Csr) (length : BitVec 16) {k : ℕ} (hk : k < 16) :
    (nextPatternLength c length).getLsbD k =
      if c.loads 1#2 = true ∧ c.byteenable.getLsbD (k / 8) = true then c.writedata.getLsbD k
      else length.getLsbD k := by
  have hlane : (loadPatternLengthLanes c).getLsbD (k / 8) = c.byteenable.getLsbD (k / 8) := by
    simp [loadPatternLengthLanes, show k / 8 < 2 by omega]
  rw [nextPatternLength, loadPatternLength]
  cases hload : c.loads 1#2 with
  | false => simp
  | true =>
    by_cases hlanes : loadPatternLengthLanes c = 0#2
    · simp [hlanes, ← hlane]
    · have hne : (true && loadPatternLengthLanes c != 0#2) = true := by simp [hlanes]
      rw [if_pos hne, getLsbD_loadLanes _ _ _ hk, hlane]
      simp [hk]

theorem getLsbD_nextPatternPosition {a : ℕ} (c : Csr) (last : BitVec a) (position : BitVec 16)
    {k : ℕ} (hk : k < 16) :
    (nextPatternPosition c false last position).getLsbD k =
      if c.loads 1#2 = true ∧ c.byteenable.getLsbD (2 + k / 8) = true then
        c.writedata.getLsbD (16 + k)
      else position.getLsbD k := by
  have hlane : (loadPatternPositionCounterLanes c).getLsbD (k / 8) =
      c.byteenable.getLsbD (2 + k / 8) := by
    simp [loadPatternPositionCounterLanes, show k / 8 < 2 by omega]
  rw [nextPatternPosition, loadPatternPositionCounter]
  cases hload : c.loads 1#2 with
  | false => simp
  | true =>
    by_cases hlanes : loadPatternPositionCounterLanes c = 0#2
    · simp [hlanes, ← hlane]
    · have hne : (true && loadPatternPositionCounterLanes c != 0#2) = true := by simp [hlanes]
      rw [if_pos hne, getLsbD_loadLanes _ _ _ hk, hlane]
      simp [hk]

theorem Words.next_step (w : Words) {stop : Bool} {c : Csr}
    (hstop : stop = false → w.stopOnFailure = false) (hrun : loadStart c = false)
    (hstatus : c.write = true → c.address ≠ 3#2) (n : ℕ) {k : ℕ} (hk : k < 32) :
    ((w.next stop c).word n).getLsbD k =
      if c.write = true ∧ n = c.address.toNat ∧ c.byteenable.getLsbD (k / 8) = true then
        writable stop (32 * n + k) && c.writedata.getLsbD k
      else (w.word n).getLsbD k := by
  have haddress := c.address.isLt
  have hstatus' : c.write = true → c.address.toNat ≠ 3 :=
    fun hw h => hstatus hw (BitVec.eq_of_toNat_eq h)
  have hloads (r : ℕ) (hr : r < 4) :
      c.loads (BitVec.ofNat 2 r) = (c.write && decide (r = c.address.toNat)) := by
    rw [loads_eq, BitVec.toNat_ofNat, Nat.mod_eq_of_lt hr]
  have h0 := hloads 0 (by decide)
  have h1 := hloads 1 (by decide)
  have h2 := hloads 2 (by decide)
  rcases n with _ | _ | _ | _ | n
  · simp only [word, next, nextPayloadLength, loadPayloadLengthCounter, h0, Bool.false_eq_true,
      if_false]
    rw [getLsbD_ite_loadLanes _ _ _ _ hk]
    simp only [writable]
    grind
  · simp only [word, next, BitVec.getLsbD_append]
    by_cases hlength : k < 16
    · rw [if_pos hlength, if_pos hlength, getLsbD_nextPatternLength c _ hlength, h1]
      simp only [writable]
      grind
    · have hlane : 2 + (k - 16) / 8 = k / 8 := by omega
      have hbit : 16 + (k - 16) = k := by omega
      rw [if_neg hlength, if_neg hlength, getLsbD_nextPatternPosition c _ _ (by omega), h1, hlane,
        hbit]
      simp only [writable]
      grind
  · simp only [loadStart, Csr.loadsLane, h2] at hrun
    simp only [word, next, getLsbD_control, loadInfinitePayloadLength, Csr.loadsLane, h2, writable]
    by_cases hinfinite : k = 0
    · subst hinfinite
      grind
    · by_cases hstopBit : k = 8
      · subst hstopBit
        grind
      · by_cases hstartBit : k = 24
        · subst hstartBit
          grind
        · have hreserved : 32 * (0 + 1 + 1) + k ≠ 72 := by omega
          simp [hinfinite, hstopBit, hstartBit, hreserved]
  · simp only [word, next]
    grind
  · simp only [word, BitVec.getLsbD_zero]
    grind

section Port

variable {σ ι : Type}

/-- A core behind its slave port of four words. -/
abbrev csrPort (step : σ → ι → σ) (withCsr : Csr → ι → ι) (readback : σ → BitVec 32) :
    Port DirectStore DirectLoad (BitVec 32) σ ι :=
  slavePort Csr.none DirectStore.toCsr DirectLoad.toCsr step withCsr readback

/-- A store to the first three words that does not write the run bit. -/
def StoreOk (x : DirectStore) : Prop := x.Within 0 12 ∧ ¬ x.Writes 88

/-- What an access does to a core in the states of `inv`, whose words are `words`. -/
structure Behaves (step : σ → ι → σ) (withCsr : Csr → ι → ι) (readback : σ → BitVec 32)
    (words : σ → Words) (inv : σ → Prop) (stop : Bool) (size : ℕ) : Prop where
  inv_step : ∀ {s}, inv s → ∀ c i, loadStart c = false → inv (step s (withCsr c i))
  words_step : ∀ {s}, inv s → ∀ c i, loadStart c = false → (c.write = true → c.address ≠ 3#2) →
    words (step s (withCsr c i)) = (words s).next stop c
  readback_step : ∀ {s}, inv s → ∀ c i, c.read = true → 4 * c.address.toNat < size →
    readback (step s (withCsr c i)) = (words s).word c.address.toNat
  stopOnFailure : ∀ {s}, inv s → stop = false → (words s).stopOnFailure = false
  size_le : size ≤ 16

theorem implements_registerBits {step : σ → ι → σ} {withCsr : Csr → ι → ι}
    {readback : σ → BitVec 32} {words : σ → Words} {inv : σ → Prop} {stop : Bool} {size : ℕ}
    (h : Behaves step withCsr readback words inv stop size) :
    (csrPort step withCsr readback).Implements (registerBits (writable stop))
      (fun s => wordBits (words s).word) inv StoreOk (·.Within 0 size) := by
  have hkeep {s : σ} (hs : inv s) {c : Csr} (hw : c.write = false) (i : ι) :
      inv (step s (withCsr c i)) ∧
        wordBits (words (step s (withCsr c i))).word = wordBits (words s).word := by
    have hrun : loadStart c = false := by simp [loadStart, hw]
    refine ⟨h.inv_step hs c i hrun, funext fun k => ?_⟩
    rw [h.words_step hs c i hrun (by simp [hw]), wordBits,
      (words s).next_step (h.stopOnFailure hs) hrun (by simp [hw]) _ (Nat.mod_lt k (by decide)),
      if_neg (by simp [hw]), wordBits]
  constructor
  case idle =>
    intro s hs i
    exact hkeep hs rfl i
  case store =>
    rintro s x hs ⟨⟨haligned, -, hoffset⟩, hstart⟩ i
    have hword : (BitVec.ofNat 2 (x.word 4)).toNat = x.word 4 := toNat_wordAddress (by omega)
    have hrun : loadStart x.toCsr = false := by
      rw [DirectStore.writes_iff haligned] at hstart
      simp only [loadStart, Csr.loadsLane, loads_eq, DirectStore.toCsr, hword]
      simp at hstart ⊢
      exact hstart
    have hstatus : x.toCsr.address ≠ 3#2 := by
      intro hthree
      have := congrArg BitVec.toNat hthree
      simp only [DirectStore.toCsr, DirectStore.word, BitVec.toNat_ofNat] at this
      omega
    refine ⟨rfl, h.inv_step hs _ i hrun, ?_⟩
    refine wordBits_store haligned fun n k hk => ?_
    show ((words (step s (withCsr x.toCsr i))).word n).getLsbD k = _
    rw [h.words_step hs _ i hrun fun _ => hstatus,
      (words s).next_step (h.stopOnFailure hs) hrun (fun _ => hstatus) n hk]
    simp [DirectStore.toCsr, hword]
  case load =>
    intro s l hs hl i
    have hword : (BitVec.ofNat 2 (l.offset / 4)).toNat = l.offset / 4 :=
      toNat_wordAddress (hl.upper.trans_le h.size_le)
    have hsize : 4 * l.toCsr.address.toNat < size := by
      have := hl.upper
      simp only [DirectLoad.toCsr, hword]
      omega
    obtain ⟨hinv, hwords⟩ := hkeep hs (c := l.toCsr) rfl i
    refine ⟨rfl, hinv, hwords, ?_⟩
    show l.value (readback (step s (withCsr l.toCsr i))) = _
    rw [h.readback_step hs _ i rfl hsize, ← wordBits_load hl.aligned]
    simp only [DirectLoad.toCsr, hword]

end Port

end CustomPattern

namespace CustomPatternGenerator

open Sync CustomPattern

variable {a m : ℕ}

def words (s : State a m) : Words where
  payloadLength := s.payloadLengthCounter
  patternLength := s.patternLength
  patternPosition := s.patternPositionCounter
  infinitePayloadLength := s.infinitePayloadLength
  stopOnFailure := false
  start := s.start
  failureDetected := false

def withCsr (c : Csr) (i : Inputs m) : Inputs m := { i with csr := c }

theorem readbackMux_eq (s : State a m) (i : Inputs m) :
    readbackMux s i = (words s).word i.csr.address.toNat := by
  have hcontrol : ∀ start infinite : Bool,
      0#7 ++ BitVec.ofBool start ++ 0#15 ++ 0#8 ++ BitVec.ofBool infinite =
        0#7 ++ BitVec.ofBool start ++ 0#15 ++ BitVec.ofBool false ++ 0#7 ++
          BitVec.ofBool infinite := by decide
  rw [readbackMux]
  rcases i.csr.address.toNat with _ | _ | _ | _ | n
  · rfl
  · rfl
  · exact hcontrol s.start s.infinitePayloadLength
  · exact (by decide : 0#32 = 0#31 ++ BitVec.ofBool false)
  · rfl

theorem behaves :
    Behaves (step (a := a) (m := m)) withCsr (·.readbackMuxD1) words (·.start = false) false
      12 where
  inv_step hs c i hrun := by simp [step, withCsr, clearStart, hs, hrun]
  words_step hs c i hrun _ := by
    simp [words, step, withCsr, Words.next, nextPayloadLength, nextPatternPosition, clearStart, hs,
      hrun, decrementPayloadLengthCounter, incrementPatternPositionCounter]
  readback_step hs c i hr _ := by
    simp [step, withCsr, hr, readbackMux_eq]
  stopOnFailure _ _ := rfl
  size_le := by decide

end CustomPatternGenerator

namespace CustomPatternChecker

open Sync CustomPattern

variable {a m : ℕ}

/-- The words of the slave port, of which the status word is shown when `status` is set. -/
def words (status : Bool) (s : State a m) : Words where
  payloadLength := s.payloadLengthCounter
  patternLength := s.patternLength
  patternPosition := s.patternPositionCounter
  infinitePayloadLength := s.infinitePayloadLength
  stopOnFailure := s.stopOnFailure
  start := s.start
  failureDetected := status && s.failureDetected

def withCsr (c : Csr) (i : Inputs m) : Inputs m := { i with csr := c }

/-- No word is on its way to the failure bit. -/
structure Settled (s : State a m) : Prop where
  validDataD1 : s.validDataD1 = false
  validDataD2 : s.validDataD2 = false
  validDataD3 : s.validDataD3 = false
  validDataD4 : s.validDataD4 = false

theorem readbackMux_eq (s : State a m) (i : Inputs m) {status : Bool}
    (h : 4 * i.csr.address.toNat < if status then 16 else 12) :
    readbackMux s i = (words status s).word i.csr.address.toNat := by
  rw [readbackMux]
  revert h
  rcases i.csr.address.toNat with _ | _ | _ | _ | n
  · intro; rfl
  · intro; rfl
  · intro; rfl
  · cases status <;> simp [words, Words.word]
  · cases status <;> simp <;> omega

theorem behaves (status : Bool) :
    Behaves (step (a := a) (m := m)) withCsr (·.readbackMuxD1) (words status)
      (fun s => s.start = false ∧ (status = true → Settled s)) true
      (if status then 16 else 12) where
  inv_step hs c i hrun := by
    obtain ⟨hstart, hsettled⟩ := hs
    refine ⟨by simp [step, withCsr, clearStart, hstart, hrun], fun hstatus => ?_⟩
    have h := hsettled hstatus
    constructor
    · simp [step, validData, snkReady, hstart]
    · exact h.validDataD1
    · exact h.validDataD2
    · exact h.validDataD3
  words_step {s} hs c i hrun hstatus := by
    obtain ⟨hstart, hsettled⟩ := hs
    have hclear : clearFailureDetected (withCsr c i) = false := by
      cases hw : c.write with
      | false => simp [clearFailureDetected, withCsr, hw]
      | true => simp [clearFailureDetected, withCsr, Csr.loadsLane, Csr.loads, hstatus hw]
    have hfailure : (status && (step s (withCsr c i)).failureDetected) =
        (status && s.failureDetected) := by
      cases status with
      | false => rfl
      | true =>
        have hset : setFailureDetected s = false := by
          simp [setFailureDetected, (hsettled rfl).validDataD4]
        simp [step, hset, hclear]
    simp only [words, hfailure, Words.next]
    simp [step, withCsr, nextPayloadLength, nextPatternPosition, clearStart, hstart, hrun,
      decrementPayloadLengthCounter, incrementPatternPositionCounter, loadStopOnFailure]
  readback_step {s} hs c i hr h := by
    have hmux := readbackMux_eq s (withCsr c i) h
    simpa [step, withCsr, hr] using hmux
  stopOnFailure _ h := by contradiction
  size_le := by cases status <;> decide

end CustomPatternChecker

end AvalonCores.MemoryTester
