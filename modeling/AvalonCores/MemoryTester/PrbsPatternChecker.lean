import Mathlib.Tactic
import AvalonCores.Sync.Execution
import AvalonCores.MemoryTester.PrbsPipeline

/-! The pattern sink `mtm_prbs_pattern_checker`.  `Checking` relates its registers to the words that
it has accepted: the comparison of a word passes through two stages before it reaches the failure
bit. -/

namespace AvalonCores.MemoryTester.PrbsPatternChecker

open Sync Prbs

variable {dataWidth b : ℕ}

structure State (dataWidth : ℕ) where
  start : Bool
  seedChecker : Bool
  stopOnFailure : Bool
  payloadLengthCounter : BitVec 32
  infinitePayloadLength : Bool
  failureDetected : Bool
  polynomial : BitVec 128
  pipeline : BitVec dataWidth
  pipelineD1 : BitVec dataWidth
  pipelineEnableD1 : Bool
  pipelineEnableD2 : Bool
  dataInD1 : BitVec dataWidth
  dataCompareD1 : Bool
  readbackMuxD1 : BitVec 32
deriving DecidableEq

/-- The ports of the core, with what the bits of `data_in` show that nothing drives.  A width of
whole bytes has none of these. -/
structure Inputs (dataWidth : ℕ) where
  csr : CsrAccess
  snkData : BitVec dataWidth
  snkValid : Bool
  undriven : BitVec dataWidth := 0#_
deriving DecidableEq

def reset : State dataWidth :=
  ⟨false, false, false, 0#_, false, false, polynomialResetValue dataWidth, seedValue dataWidth,
    0#_, false, false, 0#_, false, 0#_⟩

variable (s : State dataWidth) (i : Inputs dataWidth)

def loadPayloadLengthCounter : Bool := i.csr.loads 0#3

def loadInfinitePayloadLength : Bool := i.csr.loadsLane 2#3 0

def loadStopOnFailure : Bool := i.csr.loadsLane 2#3 1

def loadStart : Bool := i.csr.loadsLane 2#3 3

def loadSeedChecker : Bool := i.csr.loadsLane 2#3 2

def clearSeedChecker : Bool := loadStart i && s.seedChecker

def pipelineEnable : Bool := s.start && i.snkValid

def decrementPayloadLengthCounter : Bool := s.start && i.snkValid && !s.infinitePayloadLength

def clearStart : Bool :=
  s.start && (s.failureDetected && s.stopOnFailure ||
    !s.infinitePayloadLength && s.payloadLengthCounter == 0#_)

def snkReady : Bool := s.start

/-- The sink port transfers a word. -/
def accepts : Bool := snkReady s && i.snkValid

def dataIn : BitVec dataWidth := reverseSymbols i.undriven i.snkData

def dataCompare : Bool := s.dataInD1 == s.pipelineD1

def setFailureDetected : Bool := !s.dataCompareD1 && s.pipelineEnableD2

def clearFailureDetected : Bool := i.csr.loadsLane 3#3 0 && i.csr.writedata.getLsbD 0

def readbackMux : BitVec 32 :=
  match i.csr.address.toNat with
  | 0 => s.payloadLengthCounter
  | 2 => 0#7 ++ BitVec.ofBool s.start ++ 0#7 ++ BitVec.ofBool s.seedChecker ++ 0#7 ++
      BitVec.ofBool s.stopOnFailure ++ 0#7 ++ BitVec.ofBool s.infinitePayloadLength
  | 3 => 0#31 ++ BitVec.ofBool s.failureDetected
  | 4 => s.polynomial.extractLsb' 0 32
  | 5 => s.polynomial.extractLsb' 32 32
  | 6 => s.polynomial.extractLsb' 64 32
  | 7 => s.polynomial.extractLsb' 96 32
  | _ => 0#32

def step : State dataWidth where
  start :=
    if clearStart s then false
    else if loadStart i then i.csr.writedata.getLsbD 24
    else s.start
  seedChecker :=
    if clearSeedChecker s i then false
    else if loadSeedChecker i then i.csr.writedata.getLsbD 16
    else s.seedChecker
  stopOnFailure := if loadStopOnFailure i then i.csr.writedata.getLsbD 8 else s.stopOnFailure
  payloadLengthCounter :=
    if loadPayloadLengthCounter i then
      loadLanes i.csr.byteenable i.csr.writedata s.payloadLengthCounter
    else if decrementPayloadLengthCounter s i then
      s.payloadLengthCounter - BitVec.ofNat _ (numOfSymbols dataWidth)
    else s.payloadLengthCounter
  infinitePayloadLength :=
    if loadInfinitePayloadLength i then i.csr.writedata.getLsbD 0 else s.infinitePayloadLength
  failureDetected :=
    if setFailureDetected s then true
    else if clearFailureDetected i then false
    else s.failureDetected
  polynomial := nextPolynomial i.csr s.polynomial
  pipeline :=
    if s.seedChecker then seedValue dataWidth
    else if pipelineEnable s i then pipelineInput s.polynomial s.pipeline
    else s.pipeline
  pipelineD1 := if pipelineEnable s i then s.pipeline else s.pipelineD1
  pipelineEnableD1 := pipelineEnable s i
  pipelineEnableD2 := s.pipelineEnableD1
  dataInD1 := if pipelineEnable s i then dataIn i else s.dataInD1
  dataCompareD1 := if s.pipelineEnableD1 then dataCompare s else s.dataCompareD1
  readbackMuxD1 := if i.csr.read then readbackMux s i else s.readbackMuxD1

/-- The core from reset on, with any accesses and any stream. -/
def fromReset (dataWidth : ℕ) : Circuit (State dataWidth) (Inputs dataWidth) where
  init s := s = reset
  admits _ _ := True
  step := step

/-- The pipeline moves on with each word that the sink port transfers. -/
theorem accepts_eq {s : State dataWidth} {i : Inputs dataWidth} :
    accepts s i = pipelineEnable s i := rfl

theorem dataIn_eq (i : Inputs (8 * 2 ^ b)) : dataIn i = byteReversal i.snkData :=
  reverseSymbols_word i.undriven i.snkData

/-- The checker has just been started in finite mode, and no comparison is under way. -/
structure Started (length : BitVec 32) (polynomial : BitVec 128) (x : Word b)
    (s : State (8 * 2 ^ b)) : Prop where
  start : s.start = true
  seedChecker : s.seedChecker = false
  infinite : s.infinitePayloadLength = false
  payload : s.payloadLengthCounter = length
  failureDetected : s.failureDetected = false
  polynomial_eq : s.polynomial = polynomial
  pipeline : s.pipeline = x
  pipelineEnableD1 : s.pipelineEnableD1 = false
  pipelineEnableD2 : s.pipelineEnableD2 = false

/-- For each of the accepted words, whether it is the byte reversal of the next iterate. -/
def verdicts (polynomial : BitVec 128) (x : Word b) (accepted : List (Word b)) : List Bool :=
  accepted.mapIdx fun k w => byteReversal w == iterate polynomial x k

/-- The words accepted after a cycle. -/
def nextAccepted (s : State (8 * 2 ^ b)) (i : Inputs (8 * 2 ^ b)) (accepted : List (Word b)) :
    List (Word b) :=
  accepted ++ if accepts s i then [i.snkData] else []

/-- The checker has been started with the polynomial `polynomial` and the pipeline `x` and has
accepted the words `accepted`.  The verdicts of the last ones may still be in the two stages before
the failure bit. -/
structure Checking (polynomial : BitVec 128) (x : Word b) (s : State (8 * 2 ^ b))
    (accepted : List (Word b)) : Prop where
  seedChecker : s.seedChecker = false
  polynomial_eq : s.polynomial = polynomial
  pipeline : s.pipeline = iterate polynomial x accepted.length
  verdicts : ∃ done, PrbsPatternChecker.verdicts polynomial x accepted =
      done ++ (if s.pipelineEnableD2 then [s.dataCompareD1] else []) ++
        (if s.pipelineEnableD1 then [dataCompare s] else []) ∧
    s.failureDetected = done.any not

/-- The access clears no failure, sets no seed bit and writes no polynomial. -/
structure Quiet (i : Inputs (8 * 2 ^ b)) : Prop where
  failure : clearFailureDetected i = false
  seed : (loadSeedChecker i && i.csr.writedata.getLsbD 16) = false
  polynomial : loadPolynomial i.csr = false

theorem quiet_of_idle {i : Inputs (8 * 2 ^ b)} (hi : i.csr.write = false) : Quiet i where
  failure := by simp [clearFailureDetected, hi]
  seed := by simp [loadSeedChecker, hi]
  polynomial := by simp [loadPolynomial, hi]

/-- A checker that may be running, without a failure and without a comparison under way. -/
structure Clear (polynomial : BitVec 128) (x : Word b) (s : State (8 * 2 ^ b)) : Prop where
  seedChecker : s.seedChecker = false
  failureDetected : s.failureDetected = false
  polynomial_eq : s.polynomial = polynomial
  pipeline : s.pipeline = x
  pipelineEnableD1 : s.pipelineEnableD1 = false
  pipelineEnableD2 : s.pipelineEnableD2 = false

theorem Clear.checking {polynomial : BitVec 128} {x : Word b} {s : State (8 * 2 ^ b)}
    (h : Clear polynomial x s) : Checking polynomial x s [] where
  seedChecker := h.seedChecker
  polynomial_eq := h.polynomial_eq
  pipeline := h.pipeline
  verdicts := ⟨[], by simp [PrbsPatternChecker.verdicts, h.pipelineEnableD1, h.pipelineEnableD2],
    by simp [h.failureDetected]⟩

theorem Started.checking {length : BitVec 32} {polynomial : BitVec 128} {x : Word b}
    {s : State (8 * 2 ^ b)} (h : Started length polynomial x s) : Checking polynomial x s [] :=
  Clear.checking ⟨h.seedChecker, h.failureDetected, h.polynomial_eq, h.pipeline,
    h.pipelineEnableD1, h.pipelineEnableD2⟩

namespace Checking

variable {polynomial : BitVec 128} {x : Word b} {s : State (8 * 2 ^ b)} {i : Inputs (8 * 2 ^ b)}
  {accepted : List (Word b)}

theorem verdicts_append (polynomial : BitVec 128) (x w : Word b) (accepted : List (Word b)) :
    PrbsPatternChecker.verdicts polynomial x (accepted ++ [w]) =
      PrbsPatternChecker.verdicts polynomial x accepted ++
        [byteReversal w == iterate polynomial x accepted.length] := by
  simp [PrbsPatternChecker.verdicts, List.mapIdx_append]

theorem next_of_quiet (h : Checking polynomial x s accepted) (hi : Quiet i) :
    Checking polynomial x (step s i) (nextAccepted s i accepted) := by
  have hpipeline := h.pipeline
  obtain ⟨done, hverdicts, hfailure⟩ := h.verdicts
  constructor
  case seedChecker =>
    have hseed := hi.seed
    cases hload : loadSeedChecker i with
    | false => simp [step, clearSeedChecker, hload, h.seedChecker]
    | true => simpa [step, clearSeedChecker, hload, h.seedChecker] using hseed
  case polynomial_eq => simpa [step, nextPolynomial, hi.polynomial] using h.polynomial_eq
  case pipeline =>
    cases he : pipelineEnable s i with
    | false => simpa [step, h.seedChecker, nextAccepted, accepts_eq, he] using hpipeline
    | true =>
      simp [step, h.seedChecker, nextAccepted, accepts_eq, he, hpipeline, h.polynomial_eq,
        iterate_succ]
  case verdicts =>
    refine ⟨done ++ if s.pipelineEnableD2 then [s.dataCompareD1] else [], ?_, ?_⟩
    · -- What was in the first stage is now in the second one.
      have hsecond : (if (step s i).pipelineEnableD2 then [(step s i).dataCompareD1] else []) =
          if s.pipelineEnableD1 then [dataCompare s] else [] := by
        simp only [step]
        split <;> rfl
      rw [hsecond, ← hverdicts]
      cases he : pipelineEnable s i with
      | false => simp [step, nextAccepted, accepts_eq, he]
      | true =>
        simp [step, nextAccepted, accepts_eq, he, verdicts_append, dataCompare, dataIn_eq,
          hpipeline]
    · simp only [step, setFailureDetected, hi.failure, hfailure, List.any_append]
      cases s.pipelineEnableD2 <;> cases s.dataCompareD1 <;> simp

theorem next (h : Checking polynomial x s accepted) (hi : i.csr.write = false) :
    Checking polynomial x (step s i) (nextAccepted s i accepted) :=
  h.next_of_quiet (quiet_of_idle hi)

/-- Once the two stages are empty, the failure bit tells whether an accepted word differs. -/
theorem failureDetected_iff (h : Checking polynomial x s accepted)
    (h1 : s.pipelineEnableD1 = false) (h2 : s.pipelineEnableD2 = false) :
    s.failureDetected = true ↔
      ∃ k w, accepted[k]? = some w ∧ byteReversal w ≠ iterate polynomial x k := by
  obtain ⟨done, hverdicts, hfailure⟩ := h.verdicts
  simp only [h1, h2, Bool.false_eq_true, if_false, List.append_nil] at hverdicts
  rw [hfailure, ← hverdicts, List.any_eq_true]
  simp only [PrbsPatternChecker.verdicts, List.mem_iff_getElem?, List.getElem?_mapIdx,
    Option.map_eq_some_iff]
  constructor
  · rintro ⟨v, ⟨k, w, hw, rfl⟩, hv⟩
    exact ⟨k, w, hw, by simpa using hv⟩
  · rintro ⟨k, w, hw, hne⟩
    exact ⟨_, ⟨k, w, hw, rfl⟩, by simpa using hne⟩

end Checking

/-- The checker, which the software may start and stop at any time. -/
def circuit (polynomial : BitVec 128) (x : Word b) :
    Circuit (State (8 * 2 ^ b)) (Inputs (8 * 2 ^ b)) where
  init := Clear polynomial x
  admits _ := Quiet
  step := step

section Execution

variable {polynomial : BitVec 128} {x : Word b} {st : ℕ → State (8 * 2 ^ b)}
  {i : ℕ → Inputs (8 * 2 ^ b)}

/-- The words accepted before cycle `t`. -/
def accepted (st : ℕ → State (8 * 2 ^ b)) (i : ℕ → Inputs (8 * 2 ^ b)) (t : ℕ) : List (Word b) :=
  collected (fun t => accepts (st t) (i t)) (fun t => (i t).snkData) t

theorem checking (he : (circuit polynomial x).Execution st i) (t : ℕ) :
    Checking polynomial x (st t) (accepted st i t) := by
  induction t with
  | zero => exact he.init.checking
  | succ t ih =>
    rw [accepted, collected_succ, he.step]
    exact ih.next_of_quiet (he.admits t)

/-- Three cycles after the last accepted word, the failure bit tells whether one of the accepted
words differs from the iterate at its place. -/
theorem drained_failureDetected_iff (he : (circuit polynomial x).Execution st i) {t : ℕ}
    (hquiet : ∀ u < t, t ≤ u + 3 → accepts (st u) (i u) = false) :
    (st t).failureDetected = true ↔ ∃ k w, (accepted st i t)[k]? = some w ∧
      byteReversal w ≠ iterate polynomial x k := by
  have h1 : (st t).pipelineEnableD1 = false := by
    cases t with
    | zero => exact he.init.pipelineEnableD1
    | succ t =>
      rw [he.step]
      exact hquiet t (by omega) (by omega)
  have h2 : (st t).pipelineEnableD2 = false := by
    cases t with
    | zero => exact he.init.pipelineEnableD2
    | succ t =>
      rw [he.step]
      cases t with
      | zero => exact he.init.pipelineEnableD1
      | succ t =>
        rw [he.step]
        exact hquiet t (by omega) (by omega)
  exact (checking he t).failureDetected_iff h1 h2

end Execution

/-- A checker that is running without an end to its payload. -/
def running : State (8 * 2 ^ 1) := { reset with start := true, infinitePayloadLength := true }

/-- A wrong word in cycle 0, and none later. -/
def wrongWord (t : ℕ) : Inputs (8 * 2 ^ 1) where
  csr := .none
  snkData := 0#_
  snkValid := t == 0

theorem failureDetected_wrongWord :
    (trajectory step running wrongWord 4).failureDetected = true := by
  have he : (circuit (b := 1) (polynomialResetValue 16) (seedValue 16)).Execution
      (trajectory step running wrongWord) wrongWord :=
    Circuit.execution_trajectory ⟨rfl, rfl, rfl, rfl, rfl, rfl⟩ fun _ _ => quiet_of_idle rfl
  refine (drained_failureDetected_iff he ?_).mpr ⟨0, 0#_, by decide, by decide +kernel⟩
  intro u hu hut
  have : u ≠ 0 := by omega
  simp [accepts, wrongWord, this]

end AvalonCores.MemoryTester.PrbsPatternChecker
