import Mathlib.Tactic
import AvalonCores.Sync.Execution
import AvalonCores.MemoryTester.CustomPattern

/-! The pattern source `mtm_custom_pattern_generator`, which replays the pattern memory.
`Replaying` relates its registers to the number of words that it has read since it was started. -/

namespace AvalonCores.MemoryTester.CustomPatternGenerator

open Sync CustomPattern

structure State (a m : ℕ) where
  start : Bool
  patternLengthMinusOne : BitVec a
  payloadLengthCounter : BitVec 32
  patternLength : BitVec 16
  patternPositionCounter : BitVec 16
  infinitePayloadLength : Bool
  readbackMuxD1 : BitVec 32
  readMemoryD1 : Bool
  readMemoryD2 : Bool
  readMemoryD3 : Bool
  memoryDataD1 : BitVec (8 * m)
deriving DecidableEq, Repr

/-- The inputs, with what port B of the pattern memory returns. -/
structure Inputs (m : ℕ) where
  csr : Csr
  srcReady : Bool
  memoryData : BitVec (8 * m)
deriving DecidableEq, Repr

variable {a m : ℕ}

def reset : State a m := ⟨false, 0#_, 0#_, 0#_, 0#_, false, 0#_, false, false, false, 0#_⟩

variable (s : State a m) (i : Inputs m)

def clearStart : Bool := s.start && !s.infinitePayloadLength && s.payloadLengthCounter == 0#_

def incrementPatternPositionCounter : Bool := s.start && i.srcReady && !clearStart s

def decrementPayloadLengthCounter : Bool := s.start && i.srcReady && !s.infinitePayloadLength

def internalMemoryAddress : BitVec a := s.patternPositionCounter.setWidth a

def readMemory : Bool :=
  s.start && i.srcReady &&
    (s.infinitePayloadLength || !s.infinitePayloadLength && s.payloadLengthCounter != 0#_)

def srcValid : Bool := s.readMemoryD3

def srcData : BitVec (8 * m) := reverseSymbols s.memoryDataD1

def readbackMux : BitVec 32 :=
  match i.csr.address.toNat with
  | 0 => s.payloadLengthCounter
  | 1 => s.patternPositionCounter ++ s.patternLength
  | 2 => 0#7 ++ BitVec.ofBool s.start ++ 0#15 ++ 0#8 ++ BitVec.ofBool s.infinitePayloadLength
  | _ => 0#32

def step : State a m where
  start :=
    if clearStart s then false
    else if loadStart i.csr then i.csr.writedata.getLsbD 24
    else s.start
  patternLengthMinusOne :=
    if clearStart s then s.patternLengthMinusOne
    else if loadStart i.csr then (s.patternLength - 1#_).setWidth a
    else s.patternLengthMinusOne
  payloadLengthCounter :=
    nextPayloadLength i.csr m (decrementPayloadLengthCounter s i) s.payloadLengthCounter
  patternLength := nextPatternLength i.csr s.patternLength
  patternPositionCounter :=
    nextPatternPosition i.csr (incrementPatternPositionCounter s i) s.patternLengthMinusOne
      s.patternPositionCounter
  infinitePayloadLength :=
    if loadInfinitePayloadLength i.csr then i.csr.writedata.getLsbD 0 else s.infinitePayloadLength
  readbackMuxD1 := if i.csr.read then readbackMux s i else s.readbackMuxD1
  readMemoryD1 := readMemory s i
  readMemoryD2 := s.readMemoryD1
  readMemoryD3 := s.readMemoryD2
  memoryDataD1 := if s.readMemoryD2 then i.memoryData else s.memoryDataD1

/-- The generator has just been started, by a write of the run bit while it was stopped, in finite
mode with a payload of `n` words. -/
structure Started (n : ℕ) (s : State a m) : Prop where
  written : ∃ t i, t.start = false ∧ loadStart i.csr = true ∧ i.csr.writedata.getLsbD 24 = true ∧
    s = step t i
  infinite : s.infinitePayloadLength = false
  payload : s.payloadLengthCounter.toNat = n * m

/-- The generator from its start on, without another write to its registers. -/
def circuit (a m n : ℕ) : Circuit (State a m) (Inputs m) where
  init := Started n
  admits _ i := i.csr.write = false
  step := step

/-- The pattern memory returns the word at the address presented two cycles earlier. -/
def Reads (memory : BitVec a → BitVec (8 * m)) (st : ℕ → State a m) (i : ℕ → Inputs m) : Prop :=
  ∀ t, (i (t + 2)).memoryData = memory (internalMemoryAddress (st t))

/-- The generator has read `k` of the `n` words of a run that started at position `pos` of a pattern
of length `len`.  It has stopped only if it has read all of them. -/
structure Replaying (pos len n : ℕ) (k : ℕ) (s : State a m) : Prop where
  infinite : s.infinitePayloadLength = false
  length : s.patternLength.toNat = len
  last : s.patternLengthMinusOne = (s.patternLength - 1#_).setWidth a
  position : s.patternPositionCounter.toNat = (pos + k) % len
  le : k ≤ n
  payload : s.start = true → s.payloadLengthCounter.toNat = (n - k) * m
  stopped : s.start = false → k = n

section Step

variable {s : State a m} {i : Inputs m} {pos len n k : ℕ}

theorem Started.replaying (h : Started n s) (hpos : s.patternPositionCounter.toNat = pos)
    (hlen : s.patternLength.toNat = len) (hlt : pos < len) : Replaying pos len n 0 s := by
  obtain ⟨t, i, ht, hload, hrun, hs⟩ := h.written
  have hclear : clearStart t = false := by simp [clearStart, ht]
  have hstart : s.start = true := by simp [hs, step, hclear, hload, hrun]
  constructor
  case infinite => exact h.infinite
  case length => exact hlen
  case last => simp [hs, step, hclear, hload, nextPatternLength,
    loadPatternLength_of_loadStart hload]
  case position => rw [hpos, Nat.add_zero, Nat.mod_eq_of_lt hlt]
  case le => exact Nat.zero_le n
  case payload =>
    intro _
    rw [Nat.sub_zero, h.payload]
  case stopped =>
    intro hfalse
    rw [hstart] at hfalse
    contradiction

namespace Replaying

/-- The run bit is cleared exactly when no word is left. -/
theorem clearStart_eq (hm : 0 < m) (h : Replaying pos len n k s) :
    clearStart s = (s.start && decide (k = n)) := by
  cases hs : s.start with
  | false => simp [clearStart, hs]
  | true =>
    have hle := h.le
    have hzero : s.payloadLengthCounter = 0#_ ↔ k = n := by
      rw [← BitVec.toNat_inj, h.payload hs]
      simp
      omega
    simp only [clearStart, hs, h.infinite, Bool.true_and, Bool.not_false]
    rw [Bool.eq_iff_iff, beq_iff_eq, decide_eq_true_iff, hzero]

/-- The memory is read with every ready cycle until no word is left. -/
theorem readMemory_eq (hm : 0 < m) (h : Replaying pos len n k s) :
    readMemory s i = (i.srcReady && decide (k < n)) := by
  have hle := h.le
  cases hs : s.start with
  | false => simp [readMemory, hs, h.stopped hs]
  | true =>
    have hclear := h.clearStart_eq hm
    have hpayload : (s.payloadLengthCounter == 0#_) = decide (k = n) := by
      simpa [clearStart, hs, h.infinite] using hclear
    have hlt : (!decide (k = n)) = decide (k < n) := by
      rw [Bool.eq_iff_iff]
      simp
      omega
    simp only [readMemory, hs, h.infinite, bne, hpayload, hlt]
    simp

theorem incrementPatternPositionCounter_eq (hm : 0 < m) (h : Replaying pos len n k s) :
    incrementPatternPositionCounter s i = readMemory s i := by
  have hle := h.le
  rw [h.readMemory_eq hm, incrementPatternPositionCounter, h.clearStart_eq hm]
  cases hs : s.start with
  | false => simp [h.stopped hs]
  | true =>
    have hlt : (!decide (k = n)) = decide (k < n) := by
      rw [Bool.eq_iff_iff]
      simp
      omega
    simp [hlt]

theorem start_step (hm : 0 < m) (h : Replaying pos len n k s) (hi : i.csr.write = false) :
    (step s i).start = decide (k < n) := by
  have hle := h.le
  simp only [step, h.clearStart_eq hm, loadStart, Csr.loadsLane_eq_false hi]
  cases hs : s.start with
  | false => simp [h.stopped hs]
  | true =>
    by_cases hk : k = n
    · simp [hk]
    · simp [hk]
      omega

theorem next (hm : 0 < m) (hlen : len ≤ 2 ^ a) (hpos : 0 < len) (h : Replaying pos len n k s)
    (hi : i.csr.write = false) :
    Replaying pos len n (k + (readMemory s i).toNat) (step s i) := by
  have hread := h.readMemory_eq (i := i) hm
  constructor
  case infinite =>
    simp [step, loadInfinitePayloadLength, Csr.loadsLane_eq_false hi, h.infinite]
  case length => simpa [step, nextPatternLength_of_quiet hi] using h.length
  case last =>
    simpa [step, loadStart, Csr.loadsLane_eq_false hi, nextPatternLength_of_quiet hi] using h.last
  case position =>
    simp only [step, nextPatternPosition_of_quiet hi, h.incrementPatternPositionCounter_eq hm]
    cases hr : readMemory s i with
    | false => simpa using h.position
    | true =>
      have hlt : s.patternPositionCounter.toNat < s.patternLength.toNat := by
        rw [h.position, h.length]
        exact Nat.mod_lt _ hpos
      rw [if_pos rfl, h.last, increment_toNat (h.length ▸ hlen) hlt, h.position, h.length,
        Nat.mod_add_mod, Bool.toNat_true, Nat.add_assoc]
  case le =>
    have hle := h.le
    rw [hread]
    by_cases hk : k < n
    · cases i.srcReady with
      | false => simpa using hle
      | true => simp [hk]
    · simp [hk, hle]
  case payload =>
    intro hs'
    rw [h.start_step hm hi, decide_eq_true_iff] at hs'
    have hs : s.start = true := by
      by_contra hs
      have := h.stopped (by simpa using hs)
      omega
    have hpayload := h.payload hs
    simp only [step, nextPayloadLength_of_quiet hi, decrementPayloadLengthCounter, hs, h.infinite,
      hread, hs', decide_true, Bool.and_true, Bool.true_and, Bool.not_false]
    cases i.srcReady with
    | false => simpa using hpayload
    | true =>
      have hsplit : (n - k) * m = (n - (k + 1)) * m + m := by
        rw [← Nat.succ_mul, Nat.succ_eq_add_one]
        congr 1
        omega
      have hsize := s.payloadLengthCounter.isLt
      have hword : (BitVec.ofNat 32 m).toNat = m := by
        rw [BitVec.toNat_ofNat]
        exact Nat.mod_eq_of_lt (by omega)
      rw [if_pos rfl, BitVec.toNat_sub_of_le (by rw [BitVec.le_def, hword]; omega), hword, hpayload,
        Bool.toNat_true, hsplit, Nat.add_sub_cancel]
  case stopped =>
    intro hs'
    rw [h.start_step hm hi, decide_eq_false_iff_not] at hs'
    have hle := h.le
    rw [hread, decide_eq_false hs', Bool.and_false, Bool.toNat_false]
    omega

end Replaying

end Step

section Execution

variable {st : ℕ → State a m} {i : ℕ → Inputs m} {memory : BitVec a → BitVec (8 * m)}
  {pos len n : ℕ}

/-- The words read before cycle `t`. -/
def readCount (st : ℕ → State a m) (i : ℕ → Inputs m) (t : ℕ) : ℕ :=
  Nat.count (fun t => readMemory (st t) (i t) = true) t

/-- The number of cycles before cycle `t` in which the sink is ready. -/
def readyCount (i : ℕ → Inputs m) (t : ℕ) : ℕ := Nat.count (fun t => (i t).srcReady = true) t

/-- A run of `n` words from position `pos` of the first `len` words of the memory.  Each word leaves
three cycles after a ready cycle that reads it, as many words as ready cycles leave, up to `n`, and
the run bit falls after the last one is read. -/
structure Replays (memory : BitVec a → BitVec (8 * m)) (pos len n : ℕ) (st : ℕ → State a m)
    (i : ℕ → Inputs m) : Prop where
  valid : ∀ t, srcValid (st (t + 3)) = readMemory (st t) (i t)
  ready : ∀ t, readMemory (st t) (i t) = true → (st t).start = true ∧ (i t).srcReady = true
  emitted : ∀ t, collected (fun t => srcValid (st (t + 3))) (fun t => srcData (st (t + 3))) t =
    (List.range (min n (readyCount i t))).map fun k =>
      reverseSymbols (patternWord memory ((pos + k) % len))
  position : ∀ t, (st t).patternPositionCounter.toNat = (pos + min n (readyCount i t)) % len
  start : ∀ t, (st (t + 1)).start = decide (readyCount i t < n)

theorem replaying (hm : 0 < m) (he : (circuit a m n).Execution st i)
    (hpos : (st 0).patternPositionCounter.toNat = pos) (hlen : (st 0).patternLength.toNat = len)
    (hlt : pos < len) (hfit : len ≤ 2 ^ a) (t : ℕ) :
    Replaying pos len n (readCount st i t) (st t) := by
  induction t with
  | zero => exact he.init.replaying hpos hlen hlt
  | succ t ih =>
    have hnext := ih.next hm hfit (by omega) (he.admits t)
    have hcount : readCount st i (t + 1) = readCount st i t + (readMemory (st t) (i t)).toNat :=
      count_add_toNat _ t
    rw [hcount, he.step]
    exact hnext

/-- What has been read leaves the three pipeline stages after the memory. -/
theorem srcData_eq (he : (circuit a m n).Execution st i) (hmem : Reads memory st i) {t : ℕ}
    (hr : readMemory (st t) (i t) = true) :
    srcData (st (t + 3)) = reverseSymbols (memory (internalMemoryAddress (st t))) := by
  have hd2 : (st (t + 2)).readMemoryD2 = true := by
    rw [he.step, he.step]
    exact hr
  rw [he.step, ← hmem t]
  simp [srcData, circuit, step, hd2]

theorem readCount_eq (hm : 0 < m) (hrun : ∀ t, Replaying pos len n (readCount st i t) (st t))
    (t : ℕ) : readCount st i t = min n (readyCount i t) := by
  refine count_eq_min (p := fun t => readMemory (st t) (i t)) (q := fun t => (i t).srcReady) ?_ t
  intro t
  simp only [(hrun t).readMemory_eq hm, Bool.and_eq_true, decide_eq_true_iff]
  rfl

/-- A started generator replays the pattern cyclically from its start position. -/
theorem execution_replays (hm : 0 < m) (he : (circuit a m n).Execution st i)
    (hmem : Reads memory st i) (hpos : (st 0).patternPositionCounter.toNat = pos)
    (hlen : (st 0).patternLength.toNat = len) (hlt : pos < len) (hfit : len ≤ 2 ^ a) :
    Replays memory pos len n st i := by
  have hrun := replaying hm he hpos hlen hlt hfit
  have hvalid (t : ℕ) : srcValid (st (t + 3)) = readMemory (st t) (i t) := by
    rw [he.step, he.step, he.step]
    rfl
  constructor
  case valid => exact hvalid
  case ready =>
    intro t hr
    simp only [readMemory, Bool.and_eq_true] at hr
    exact hr.1
  case emitted =>
    intro t
    simp only [hvalid, ← readCount_eq hm hrun]
    refine collected_eq_map fun t _ hr => ?_
    rw [srcData_eq he hmem hr]
    congr 2
    apply BitVec.eq_of_toNat_eq
    rw [internalMemoryAddress, BitVec.toNat_setWidth, (hrun t).position, BitVec.toNat_ofNat]
    rfl
  case position =>
    intro t
    rw [← readCount_eq hm hrun]
    exact (hrun t).position
  case start =>
    intro t
    rw [he.step, circuit, (hrun t).start_step hm (he.admits t), readCount_eq hm hrun]
    simp

end Execution

/-- A step of the generator together with port B of its pattern memory. -/
def coupledStep (memory : BitVec a → BitVec (8 * m)) (x : State a m × ReadPort a m)
    (i : Csr × Bool) : State a m × ReadPort a m :=
  (step x.1 ⟨i.1, i.2, x.2.q⟩, x.2.step memory (internalMemoryAddress x.1))

section Coupled

variable (memory : BitVec a → BitVec (8 * m)) (x : State a m × ReadPort a m) (i : ℕ → Csr × Bool)

def coupledState (t : ℕ) : State a m := (trajectory (coupledStep memory) x i t).1

def coupledInputs (t : ℕ) : Inputs m :=
  ⟨(i t).1, (i t).2, (trajectory (coupledStep memory) x i t).2.q⟩

theorem coupled_reads : Reads memory (coupledState memory x i) (coupledInputs memory x i) :=
  fun _ => rfl

theorem coupled_execution {n : ℕ} (hx : Started n x.1) (hi : ∀ t, (i t).1.write = false) :
    (circuit a m n).Execution (coupledState memory x i) (coupledInputs memory x i) where
  init := hx
  admits t := hi t
  step _ := rfl

end Coupled

/-- A pattern of two words of a byte each. -/
def twoWords (k : BitVec 1) : BitVec (8 * 1) := if k = 0#_ then 0x0F#_ else 0xF0#_

/-- A generator that is stopped at position 1 of a pattern of two words, with a payload of three. -/
def stopped : State 1 1 := { reset with
  payloadLengthCounter := 3#_
  patternLength := 2#_
  patternPositionCounter := 1#_ }

/-- The write of the run bit. -/
def run : Inputs 1 := ⟨⟨2#_, false, true, 0x01000000#_, 0b1000#_⟩, true, 0#_⟩

theorem started_run : Started 3 (step stopped run) where
  written := ⟨stopped, run, rfl, rfl, rfl, rfl⟩
  infinite := rfl
  payload := rfl

/-- With a sink that is ready in every other cycle, it sends the second word, the first one, and
the second one again. -/
theorem replays_twoWords :
    Replays twoWords 1 2 3
      (coupledState twoWords (step stopped run, ⟨0#_, 0#_⟩) fun t => (Csr.none, t % 2 == 0))
      (coupledInputs twoWords (step stopped run, ⟨0#_, 0#_⟩) fun t => (Csr.none, t % 2 == 0)) :=
  execution_replays (by decide) (coupled_execution _ _ _ started_run fun _ => rfl)
    (coupled_reads _ _ _) rfl rfl (by decide) (by decide)

end AvalonCores.MemoryTester.CustomPatternGenerator
