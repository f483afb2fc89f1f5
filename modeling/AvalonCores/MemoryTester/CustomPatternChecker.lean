import Mathlib.Tactic
import AvalonCores.Sync.Execution
import AvalonCores.MemoryTester.CustomPattern

/-! The pattern sink `mtm_custom_pattern_checker`, which compares what it accepts with the pattern
memory.  The word and its expected value take two paths of three cycles, and the result of the
comparison reaches the failure bit two cycles later. -/

namespace AvalonCores.MemoryTester.CustomPatternChecker

open Sync CustomPattern

structure State (a m : ℕ) where
  start : Bool
  patternLengthMinusOne : BitVec a
  stopOnFailure : Bool
  payloadLengthCounter : BitVec 32
  patternLength : BitVec 16
  patternPositionCounter : BitVec 16
  infinitePayloadLength : Bool
  failureDetected : Bool
  readbackMuxD1 : BitVec 32
  dataInD1 : BitVec (8 * m)
  dataInD2 : BitVec (8 * m)
  dataInD3 : BitVec (8 * m)
  validDataD1 : Bool
  validDataD2 : Bool
  validDataD3 : Bool
  validDataD4 : Bool
  dataCompareD1 : Bool
  memoryDataD1 : BitVec (8 * m)
deriving DecidableEq, Repr

/-- The inputs, with what port B of the pattern memory returns. -/
structure Inputs (m : ℕ) where
  csr : Csr
  snkData : BitVec (8 * m)
  snkValid : Bool
  memoryData : BitVec (8 * m)
deriving DecidableEq, Repr

variable {a m : ℕ}

def reset : State a m :=
  ⟨false, 0#_, false, 0#_, 0#_, 0#_, false, false, 0#_, 0#_, 0#_, 0#_, false, false, false, false,
    false, 0#_⟩

variable (s : State a m) (i : Inputs m)

def loadStopOnFailure : Bool := i.csr.loadsLane 2#2 1

def incrementPatternPositionCounter : Bool := s.start && i.snkValid

def decrementPayloadLengthCounter : Bool := s.start && i.snkValid && !s.infinitePayloadLength

def clearStart : Bool :=
  s.start && (s.failureDetected && s.stopOnFailure ||
    !s.infinitePayloadLength && s.payloadLengthCounter == 0#_)

def snkReady : Bool := s.start

def internalMemoryAddress : BitVec a := s.patternPositionCounter.setWidth a

def validData : Bool := i.snkValid && snkReady s

def dataIn : BitVec (8 * m) := reverseSymbols i.snkData

def dataCompare : Bool := s.memoryDataD1 == s.dataInD3

def setFailureDetected : Bool := !s.dataCompareD1 && s.validDataD4

def clearFailureDetected : Bool := i.csr.loadsLane 3#2 0 && i.csr.writedata.getLsbD 0

def readbackMux : BitVec 32 :=
  match i.csr.address.toNat with
  | 0 => s.payloadLengthCounter
  | 1 => s.patternPositionCounter ++ s.patternLength
  | 2 => 0#7 ++ BitVec.ofBool s.start ++ 0#15 ++ BitVec.ofBool s.stopOnFailure ++ 0#7 ++
      BitVec.ofBool s.infinitePayloadLength
  | _ => 0#31 ++ BitVec.ofBool s.failureDetected

def step : State a m where
  start :=
    if clearStart s then false
    else if loadStart i.csr then i.csr.writedata.getLsbD 24
    else s.start
  patternLengthMinusOne :=
    if clearStart s then s.patternLengthMinusOne
    else if loadStart i.csr then (s.patternLength - 1#_).setWidth a
    else s.patternLengthMinusOne
  stopOnFailure := if loadStopOnFailure i then i.csr.writedata.getLsbD 8 else s.stopOnFailure
  payloadLengthCounter :=
    nextPayloadLength i.csr m (decrementPayloadLengthCounter s i) s.payloadLengthCounter
  patternLength := nextPatternLength i.csr s.patternLength
  patternPositionCounter :=
    nextPatternPosition i.csr (incrementPatternPositionCounter s i) s.patternLengthMinusOne
      s.patternPositionCounter
  infinitePayloadLength :=
    if loadInfinitePayloadLength i.csr then i.csr.writedata.getLsbD 0 else s.infinitePayloadLength
  failureDetected :=
    if setFailureDetected s then true
    else if clearFailureDetected i then false
    else s.failureDetected
  readbackMuxD1 := if i.csr.read then readbackMux s i else s.readbackMuxD1
  dataInD1 := dataIn i
  dataInD2 := s.dataInD1
  dataInD3 := s.dataInD2
  validDataD1 := validData s i
  validDataD2 := s.validDataD1
  validDataD3 := s.validDataD2
  validDataD4 := s.validDataD3
  dataCompareD1 := dataCompare s
  memoryDataD1 := if s.validDataD2 then i.memoryData else s.memoryDataD1

/-- The checker has just been started, by a write of the run bit while it was stopped, without a
failure and without a comparison under way. -/
structure Started (s : State a m) : Prop where
  written : ∃ t i, t.start = false ∧ loadStart i.csr = true ∧ i.csr.writedata.getLsbD 24 = true ∧
    s = step t i
  failureDetected : s.failureDetected = false
  validDataD1 : s.validDataD1 = false
  validDataD2 : s.validDataD2 = false
  validDataD3 : s.validDataD3 = false
  validDataD4 : s.validDataD4 = false

/-- The checker from its start on, without another write to its registers. -/
def circuit (a m : ℕ) : Circuit (State a m) (Inputs m) where
  init := Started
  admits _ i := i.csr.write = false
  step := step

/-- The access writes neither the pattern length and position nor the failure bit. -/
structure Quiet (i : Inputs m) : Prop where
  failure : clearFailureDetected i = false
  length : loadPatternLength i.csr = false
  position : loadPatternPositionCounter i.csr = false

theorem quiet_of_idle {i : Inputs m} (hi : i.csr.write = false) : Quiet i where
  failure := by simp [clearFailureDetected, hi]
  length := by simp [loadPatternLength, hi]
  position := by simp [loadPatternPositionCounter, hi]

/-- A checker that may be running, without a failure and without a comparison under way. -/
structure Clear (s : State a m) : Prop where
  last : s.start = true → s.patternLengthMinusOne = (s.patternLength - 1#_).setWidth a
  failureDetected : s.failureDetected = false
  validDataD1 : s.validDataD1 = false
  validDataD2 : s.validDataD2 = false
  validDataD3 : s.validDataD3 = false
  validDataD4 : s.validDataD4 = false

/-- The checker before its start or from then on, while software may write its payload length and
its control register. -/
def watching (a m : ℕ) : Circuit (State a m) (Inputs m) where
  init := Clear
  admits _ := Quiet
  step := step

/-- The pattern memory returns the word at the address presented two cycles earlier. -/
def Reads (memory : BitVec a → BitVec (8 * m)) (st : ℕ → State a m) (i : ℕ → Inputs m) : Prop :=
  ∀ t, (i (t + 2)).memoryData = memory (internalMemoryAddress (st t))

/-- The checker compares with position `k`, counted from the start of the pattern, next. -/
structure Positioned (len k : ℕ) (s : State a m) : Prop where
  length : s.patternLength.toNat = len
  last : s.patternLengthMinusOne = (s.patternLength - 1#_).setWidth a
  position : s.patternPositionCounter.toNat = k % len

section Step

variable {s : State a m} {i : Inputs m} {len k : ℕ}

/-- The checker counts to the end of its pattern while it is running. -/
structure Tracking (len k : ℕ) (s : State a m) : Prop where
  length : s.patternLength.toNat = len
  last : s.start = true → s.patternLengthMinusOne = (s.patternLength - 1#_).setWidth a
  position : s.patternPositionCounter.toNat = k % len

theorem Tracking.next (hlen : len ≤ 2 ^ a) (hpos : 0 < len) (h : Tracking len k s) (hi : Quiet i) :
    Tracking len (k + (validData s i).toNat) (step s i) := by
  have hvalid : incrementPatternPositionCounter s i = validData s i := Bool.and_comm _ _
  have hlength : (step s i).patternLength = s.patternLength := by
    simp [step, nextPatternLength, hi.length]
  constructor
  case length => rw [hlength, h.length]
  case last =>
    rw [hlength]
    simp only [step]
    cases clearStart s with
    | true => simp
    | false => cases loadStart i.csr <;> simp_all [h.last]
  case position =>
    simp only [step, nextPatternPosition, hi.position, hvalid, Bool.false_eq_true, if_false]
    cases hv : validData s i with
    | false => simpa using h.position
    | true =>
      have hstart : s.start = true := by
        simp only [validData, snkReady, Bool.and_eq_true] at hv
        exact hv.2
      have hlt : s.patternPositionCounter.toNat < s.patternLength.toNat := by
        rw [h.position, h.length]
        exact Nat.mod_lt _ hpos
      rw [if_pos rfl, h.last hstart, increment_toNat (h.length ▸ hlen) hlt, h.position, h.length,
        Nat.mod_add_mod, Bool.toNat_true]

theorem Started.last (h : Started s) :
    s.patternLengthMinusOne = (s.patternLength - 1#_).setWidth a := by
  obtain ⟨t, i, ht, hload, hrun, hs⟩ := h.written
  have hclear : clearStart t = false := by simp [clearStart, ht]
  simp [hs, step, hclear, hload, nextPatternLength, loadPatternLength_of_loadStart hload]

theorem Started.clear (h : Started s) : Clear s :=
  ⟨fun _ => h.last, h.failureDetected, h.validDataD1, h.validDataD2, h.validDataD3, h.validDataD4⟩

theorem Started.positioned (h : Started s) (hpos : s.patternPositionCounter.toNat = k)
    (hlen : s.patternLength.toNat = len) (hlt : k < len) : Positioned len k s := by
  constructor
  case length => exact hlen
  case last => exact h.last
  case position => rw [hpos, Nat.mod_eq_of_lt hlt]

theorem Positioned.next (hlen : len ≤ 2 ^ a) (hpos : 0 < len) (h : Positioned len k s)
    (hi : i.csr.write = false) : Positioned len (k + (validData s i).toNat) (step s i) := by
  have htracking : Tracking len k s := ⟨h.length, fun _ => h.last, h.position⟩
  have hnext := htracking.next hlen hpos (quiet_of_idle hi)
  constructor
  case length => exact hnext.length
  case last =>
    simpa [step, loadStart, Csr.loadsLane_eq_false hi, nextPatternLength_of_quiet hi] using h.last
  case position => exact hnext.position

/-- Without a clear, the failure bit collects the failed comparisons. -/
theorem failureDetected_of_uncleared (hi : clearFailureDetected i = false) :
    (step s i).failureDetected = (s.failureDetected || (!s.dataCompareD1 && s.validDataD4)) := by
  simp only [step, setFailureDetected, hi]
  cases !s.dataCompareD1 && s.validDataD4 <;> simp

end Step

section Execution

variable {st : ℕ → State a m} {i : ℕ → Inputs m} {memory : BitVec a → BitVec (8 * m)}
  {pos len : ℕ}

/-- The words accepted before cycle `t`. -/
def accepted (st : ℕ → State a m) (i : ℕ → Inputs m) (t : ℕ) : List (BitVec (8 * m)) :=
  collected (fun t => validData (st t) (i t)) (fun t => (i t).snkData) t

/-- The word of cycle `t` is accepted and differs from the one that the checker expects. -/
def differs (memory : BitVec a → BitVec (8 * m)) (st : ℕ → State a m) (i : ℕ → Inputs m)
    (t : ℕ) : Bool :=
  validData (st t) (i t) && memory (internalMemoryAddress (st t)) != reverseSymbols (i t).snkData

/-- A word and the word of the pattern memory that is read for it meet after three cycles. -/
theorem failureDetected_latency (hstep : ∀ t, st (t + 1) = step (st t) (i t)) (t : ℕ)
    (hclear : clearFailureDetected (i (t + 4)) = false) :
    (st (t + 5)).failureDetected = ((st (t + 4)).failureDetected ||
      (validData (st t) (i t) && (i (t + 2)).memoryData != reverseSymbols (i t).snkData)) := by
  have hd2 : (st (t + 2)).validDataD2 = validData (st t) (i t) := by
    rw [hstep, hstep]
    rfl
  have hd4 : (st (t + 4)).validDataD4 = validData (st t) (i t) := by
    rw [hstep, hstep, hstep, hstep]
    rfl
  have hin : (st (t + 3)).dataInD3 = reverseSymbols (i t).snkData := by
    rw [hstep, hstep, hstep]
    rfl
  have hcompare : (st (t + 4)).dataCompareD1 =
      ((st (t + 3)).memoryDataD1 == reverseSymbols (i t).snkData) := by
    rw [hstep, ← hin]
    rfl
  have hlast : (st (t + 5)).failureDetected =
      ((st (t + 4)).failureDetected ||
        (!(st (t + 4)).dataCompareD1 && (st (t + 4)).validDataD4)) := by
    rw [hstep (t + 4)]
    exact failureDetected_of_uncleared hclear
  rw [hlast, hcompare, hd4]
  cases hv : validData (st t) (i t) with
  | false => simp
  | true =>
    have hword : (st (t + 3)).memoryDataD1 = (i (t + 2)).memoryData := by
      rw [hstep]
      simp [step, hd2, hv]
    simp [hword, bne]

section Watching

variable (he : (watching a m).Execution st i)

include he

theorem failure_after (hmem : Reads memory st i) (t : ℕ) :
    (st (t + 5)).failureDetected = ((st (t + 4)).failureDetected || differs memory st i t) := by
  rw [failureDetected_latency he.step t (he.admits _).failure, differs, hmem]

/-- The four stages are empty at the start. -/
theorem failure_early {t : ℕ} (ht : t ≤ 4) : (st t).failureDetected = false := by
  have h4 : ∀ t < 4, (st t).validDataD4 = false := by
    intro t ht
    interval_cases t
    · exact he.init.validDataD4
    · rw [he.step]
      exact he.init.validDataD3
    · rw [he.step, he.step]
      exact he.init.validDataD2
    · rw [he.step, he.step, he.step]
      exact he.init.validDataD1
  induction t with
  | zero => exact he.init.failureDetected
  | succ t ih =>
    rw [he.step, watching, failureDetected_of_uncleared (he.admits t).failure, ih (by omega),
      h4 t (by omega), Bool.and_false, Bool.or_false]

theorem failure_iff_differs (hmem : Reads memory st i) (t : ℕ) :
    (st (t + 4)).failureDetected = true ↔ ∃ u < t, differs memory st i u = true := by
  induction t with
  | zero => simp [failure_early he (le_refl 4)]
  | succ t ih =>
    rw [show t + 1 + 4 = t + 5 by omega, failure_after he hmem, Bool.or_eq_true, ih]
    constructor
    · rintro (⟨u, hu, h⟩ | h)
      · exact ⟨u, by omega, h⟩
      · exact ⟨t, by omega, h⟩
    · rintro ⟨u, hu, h⟩
      rcases Nat.lt_succ_iff_lt_or_eq.mp hu with hlt | rfl
      · exact .inl ⟨u, hlt, h⟩
      · exact .inr h

/-- The checker counts the accepted words. -/
theorem tracking (hpos : (st 0).patternPositionCounter.toNat = pos)
    (hlen : (st 0).patternLength.toNat = len) (hlt : pos < len) (hfit : len ≤ 2 ^ a) (t : ℕ) :
    Tracking len (pos + (accepted st i t).length) (st t) := by
  induction t with
  | zero =>
    refine ⟨hlen, he.init.last, ?_⟩
    rw [hpos, accepted, collected_length, Nat.count_zero, Nat.add_zero, Nat.mod_eq_of_lt hlt]
  | succ t ih =>
    have hnext := ih.next hfit (by omega) (he.admits t)
    have hcount : (accepted st i (t + 1)).length =
        (accepted st i t).length + (validData (st t) (i t)).toNat := collected_length_succ _ _ t
    rw [hcount, ← Nat.add_assoc, he.step]
    exact hnext

end Watching

theorem watching_of_started (he : (circuit a m).Execution st i) :
    (watching a m).Execution st i where
  init := he.init.clear
  admits t := quiet_of_idle (he.admits t)
  step := he.step

theorem failureDetected_early (he : (circuit a m).Execution st i) {t : ℕ} (ht : t ≤ 4) :
    (st t).failureDetected = false := failure_early (watching_of_started he) ht

theorem failureDetected_iff_differs (he : (circuit a m).Execution st i)
    (hmem : Reads memory st i) (t : ℕ) :
    (st (t + 4)).failureDetected = true ↔ ∃ u < t, differs memory st i u = true :=
  failure_iff_differs (watching_of_started he) hmem t

theorem positioned (he : (circuit a m).Execution st i)
    (hpos : (st 0).patternPositionCounter.toNat = pos) (hlen : (st 0).patternLength.toNat = len)
    (hlt : pos < len) (hfit : len ≤ 2 ^ a) (t : ℕ) :
    Positioned len (pos + (accepted st i t).length) (st t) := by
  induction t with
  | zero => exact he.init.positioned hpos hlen hlt
  | succ t ih =>
    have hnext := ih.next hfit (by omega) (he.admits t)
    have hcount : (accepted st i (t + 1)).length =
        (accepted st i t).length + (validData (st t) (i t)).toNat := collected_length_succ _ _ t
    rw [hcount, ← Nat.add_assoc, he.step]
    exact hnext

/-- A failed comparison is one of an accepted word with the next word of the pattern. -/
theorem differs_iff_of_position {t : ℕ}
    (h : (st t).patternPositionCounter.toNat = (pos + (accepted st i t).length) % len) :
    differs memory st i t = true ↔ validData (st t) (i t) = true ∧
      reverseSymbols (i t).snkData ≠
        patternWord memory ((pos + (accepted st i t).length) % len) := by
  have haddress : internalMemoryAddress (st t) =
      BitVec.ofNat a ((pos + (accepted st i t).length) % len) := by
    apply BitVec.eq_of_toNat_eq
    rw [internalMemoryAddress, BitVec.toNat_setWidth, h, BitVec.toNat_ofNat]
  rw [differs, Bool.and_eq_true, bne_iff_ne, haddress, ne_comm]
  rfl

theorem differs_iff {t : ℕ} (h : Positioned len (pos + (accepted st i t).length) (st t)) :
    differs memory st i t = true ↔ validData (st t) (i t) = true ∧
      reverseSymbols (i t).snkData ≠
        patternWord memory ((pos + (accepted st i t).length) % len) :=
  differs_iff_of_position h.position

/-- Five cycles after the last accepted word, the failure bit tells whether one of the accepted
words differs from the word of the pattern at its position. -/
theorem pattern_failureDetected_iff (he : (circuit a m).Execution st i) (hmem : Reads memory st i)
    (hpos : (st 0).patternPositionCounter.toNat = pos) (hlen : (st 0).patternLength.toNat = len)
    (hlt : pos < len) (hfit : len ≤ 2 ^ a) {t : ℕ}
    (hquiet : ∀ u < t, t ≤ u + 5 → validData (st u) (i u) = false) :
    (st t).failureDetected = true ↔ ∃ k w, (accepted st i t)[k]? = some w ∧
      reverseSymbols w ≠ patternWord memory ((pos + k) % len) := by
  have hdiffers (u : ℕ) : differs memory st i u = true ↔ validData (st u) (i u) = true ∧
      reverseSymbols (i u).snkData ≠
        patternWord memory ((pos + (accepted st i u).length) % len) :=
    differs_iff (positioned he hpos hlen hlt hfit u)
  have hfailure : (st t).failureDetected = true ↔ ∃ u < t, differs memory st i u = true := by
    have hlate : ∀ u < t, t ≤ u + 5 → differs memory st i u = false := by
      intro u hu hut
      simp [differs, hquiet u hu hut]
    rcases Nat.lt_or_ge t 4 with ht | ht
    · rw [failureDetected_early he (by omega)]
      constructor
      · intro h
        contradiction
      · rintro ⟨u, hu, h⟩
        rw [hlate u hu (by omega)] at h
        contradiction
    · obtain ⟨d, rfl⟩ := Nat.exists_eq_add_of_le' ht
      rw [failureDetected_iff_differs he hmem]
      constructor
      · rintro ⟨u, hu, h⟩
        exact ⟨u, by omega, h⟩
      · rintro ⟨u, hu, h⟩
        refine ⟨u, ?_, h⟩
        by_contra hge
        rw [hlate u hu (by omega)] at h
        contradiction
  rw [hfailure]
  constructor
  · rintro ⟨u, hu, h⟩
    obtain ⟨hv, hne⟩ := (hdiffers u).mp h
    refine ⟨(accepted st i u).length, (i u).snkData, ?_, hne⟩
    exact collected_getElem?.mpr ⟨u, hu, hv, (collected_length _ _ _).symm, rfl⟩
  · rintro ⟨k, w, hw, hne⟩
    obtain ⟨u, hu, hv, hk, rfl⟩ := collected_getElem?.mp hw
    refine ⟨u, hu, (hdiffers u).mpr ⟨hv, ?_⟩⟩
    rwa [accepted, collected_length, hk]

end Execution

/-- A step of the checker together with port B of its pattern memory. -/
def coupledStep (memory : BitVec a → BitVec (8 * m)) (x : State a m × ReadPort a m)
    (i : Csr × BitVec (8 * m) × Bool) : State a m × ReadPort a m :=
  (step x.1 ⟨i.1, i.2.1, i.2.2, x.2.q⟩, x.2.step memory (internalMemoryAddress x.1))

section Coupled

variable (memory : BitVec a → BitVec (8 * m)) (x : State a m × ReadPort a m)
  (i : ℕ → Csr × BitVec (8 * m) × Bool)

def coupledState (t : ℕ) : State a m := (trajectory (coupledStep memory) x i t).1

def coupledInputs (t : ℕ) : Inputs m :=
  ⟨(i t).1, (i t).2.1, (i t).2.2, (trajectory (coupledStep memory) x i t).2.q⟩

theorem coupled_reads : Reads memory (coupledState memory x i) (coupledInputs memory x i) :=
  fun _ => rfl

theorem coupled_execution (hx : Started x.1) (hi : ∀ t, (i t).1.write = false) :
    (circuit a m).Execution (coupledState memory x i) (coupledInputs memory x i) where
  init := hx
  admits t := hi t
  step _ := rfl

end Coupled

/-- A pattern of two words of a byte each. -/
def twoWords (k : BitVec 1) : BitVec (8 * 1) := if k = 0#_ then 0x0F#_ else 0xF0#_

/-- A checker that is stopped at position 1 of a pattern of two words, with a payload of three. -/
def stopped : State 1 1 := { reset with
  payloadLengthCounter := 3#_
  patternLength := 2#_
  patternPositionCounter := 1#_ }

/-- The write of the run bit. -/
def run : Inputs 1 := ⟨⟨2#_, false, true, 0x01000000#_, 0b1000#_⟩, 0#_, false, 0#_⟩

theorem started_run : Started (step stopped run) where
  written := ⟨stopped, run, rfl, rfl, rfl, rfl⟩
  failureDetected := rfl
  validDataD1 := rfl
  validDataD2 := rfl
  validDataD3 := rfl
  validDataD4 := rfl

/-- Two words, in the cycles 0 and 1. -/
def wrongWords (t : ℕ) : Csr × BitVec (8 * 1) × Bool := (Csr.none, 0xF0#_, decide (t < 2))

/-- The second of the two words is wrong. -/
theorem failureDetected_wrongWords :
    (coupledState twoWords (step stopped run, ⟨0#_, 0#_⟩) wrongWords 7).failureDetected = true := by
  refine (pattern_failureDetected_iff (coupled_execution _ _ _ started_run fun _ => rfl)
    (coupled_reads _ _ _) rfl rfl (by decide) (by decide) ?_).mpr
      ⟨1, 0xF0#_, by decide, by decide +kernel⟩
  intro u hu hut
  have : (coupledInputs twoWords (step stopped run, ⟨0#_, 0#_⟩) wrongWords u).snkValid = false := by
    simp only [coupledInputs, wrongWords, decide_eq_false_iff_not]
    omega
  simp [validData, this]

end AvalonCores.MemoryTester.CustomPatternChecker
