import Mathlib.Tactic
import AvalonCores.Sync.Countdown
import AvalonCores.MemoryTester.PrbsPatternChecker
import AvalonCores.MemoryTester.CustomPatternChecker

/-! The end of a run of the two pattern checkers.  Their run bit looks at the payload counter one
cycle after the word that exhausts it, so that a word that is valid in that cycle is accepted, too:
it wraps the counter and advances the sequence by one. -/

namespace AvalonCores.MemoryTester

open Sync

namespace PrbsPatternChecker

open Prbs

variable {b n : ℕ}

/-- The checker runs in finite mode with a payload of `n` words, and failures do not stop it. -/
structure Loaded (n : ℕ) (s : State (8 * 2 ^ b)) : Prop where
  start : s.start = true
  infinite : s.infinitePayloadLength = false
  stopOnFailure : s.stopOnFailure = false
  payload : s.payloadLengthCounter.toNat = n * 2 ^ b

/-- A run without a write to the registers. -/
def payloadRun (b n : ℕ) : Circuit (State (8 * 2 ^ b)) (Inputs (8 * 2 ^ b)) where
  init := Loaded n
  admits _ i := i.csr.write = false
  step := step

section Execution

variable {st : ℕ → State (8 * 2 ^ b)} {i : ℕ → Inputs (8 * 2 ^ b)}

/-- The words accepted before cycle `t`. -/
def acceptedCount (st : ℕ → State (8 * 2 ^ b)) (i : ℕ → Inputs (8 * 2 ^ b)) (t : ℕ) : ℕ :=
  Countdown.taken (fun t => snkReady (st t)) (fun t => (i t).snkValid) t

/-- When the run bit has fallen, the checker has accepted `n` words, its payload counter is 0, and
the shift register has made `n` steps. -/
def Consumes (n : ℕ) (st : ℕ → State (8 * 2 ^ b)) (i : ℕ → Inputs (8 * 2 ^ b)) : Prop :=
  ∀ t, (st t).start = true → (st (t + 1)).start = false →
    acceptedCount st i (t + 1) = n ∧ (st (t + 1)).payloadLengthCounter = 0#_ ∧
      (st (t + 1)).pipeline = iterate (st 0).polynomial (st 0).pipeline n

/-- The modes, the seed bit and the polynomial stay as they are. -/
theorem modes (he : (payloadRun b n).Execution st i) (t : ℕ) :
    (st t).infinitePayloadLength = false ∧ (st t).stopOnFailure = false ∧
      (st t).seedChecker = (st 0).seedChecker ∧ (st t).polynomial = (st 0).polynomial := by
  induction t with
  | zero => exact ⟨he.init.infinite, he.init.stopOnFailure, rfl, rfl⟩
  | succ t ih =>
    have hi : (i t).csr.write = false := he.admits t
    obtain ⟨hinfinite, hstop, hseed, hpoly⟩ := ih
    rw [he.step]
    simp [payloadRun, step, loadInfinitePayloadLength, loadStopOnFailure, clearSeedChecker,
      loadSeedChecker, loadStart, nextPolynomial_eq hi, CsrAccess.loadsLane_eq_false hi, hinfinite,
      hstop, hseed, hpoly]

theorem countdown (he : (payloadRun b n).Execution st i) :
    Countdown (2 ^ b) (fun t => (st t).start) (fun t => (st t).payloadLengthCounter)
      (fun t => (i t).snkValid) where
  start_succ t := by
    have hi : (i t).csr.write = false := he.admits t
    obtain ⟨hinfinite, hstop, -, -⟩ := modes he t
    rw [he.step]
    cases hs : (st t).start <;> cases hc : (st t).payloadLengthCounter == 0#_ <;>
      simp [payloadRun, step, clearStart, loadStart, CsrAccess.loadsLane_eq_false hi, hinfinite,
        hstop, hs, hc, bne]
  counter_succ t := by
    have hi : (i t).csr.write = false := he.admits t
    rw [he.step]
    simp [payloadRun, step, loadPayloadLengthCounter, decrementPayloadLengthCounter,
      CsrAccess.loads_eq_false hi, (modes he t).1]

/-- The shift register makes a step with each accepted word. -/
theorem pipeline_unseeded (he : (payloadRun b n).Execution st i)
    (hseed : (st 0).seedChecker = false) (t : ℕ) :
    (st t).pipeline = iterate (st 0).polynomial (st 0).pipeline (acceptedCount st i t) := by
  induction t with
  | zero => rfl
  | succ t ih =>
    obtain ⟨-, -, hseed', hpoly⟩ := modes he t
    have hcount : acceptedCount st i (t + 1) =
        acceptedCount st i t + (pipelineEnable (st t) (i t)).toNat := Countdown.taken_succ _ _ t
    rw [he.step, hcount]
    cases hen : pipelineEnable (st t) (i t) with
    | false => simpa [payloadRun, step, hen, hseed', hseed] using ih
    | true => simp [payloadRun, step, hen, hseed', hseed, ih, hpoly, iterate_succ]

/-- While the seed bit is set, the shift register holds the seed. -/
theorem pipeline_seeded (he : (payloadRun b n).Execution st i)
    (hseed : (st 0).seedChecker = true) (t : ℕ) :
    (st (t + 1)).pipeline = seedValue (8 * 2 ^ b) := by
  rw [he.step]
  simp [payloadRun, step, (modes he t).2.2.1, hseed]

theorem consumes_iff (he : (payloadRun b n).Execution st i) (hn : 0 < n) :
    Consumes n st i ↔ ∀ t, IsNth (fun t => (i t).snkValid) n t → (i (t + 1)).snkValid = false ∧
      ((st 0).seedChecker = false ∨
        iterate (st 0).polynomial (st 0).pipeline n = seedValue (8 * 2 ^ b)) := by
  have hcountdown := countdown he
  have hexact := hcountdown.exact_iff he.init.start he.init.payload (Nat.two_pow_pos b) hn
    (P := fun t => (st t).pipeline = iterate (st 0).polynomial (st 0).pipeline n)
  refine hexact.trans (forall₂_congr fun t ht => and_congr_right fun hv => ?_)
  have hends := hcountdown.ends he.init.start he.init.payload (Nat.two_pow_pos b) ht
  have hcount : acceptedCount st i (t + 2) = n := hends.taken_eq hv
  cases hseed : (st 0).seedChecker with
  | false =>
    rw [pipeline_unseeded he hseed (t + 2), hcount]
    simp
  | true =>
    rw [pipeline_seeded he hseed (t + 1), eq_comm]
    simp

end Execution

end PrbsPatternChecker

namespace CustomPatternChecker

open CustomPattern

variable {a m n : ℕ}

/-- The checker runs in finite mode with a payload of `n` words, and failures do not stop it. -/
structure Loaded (n : ℕ) (s : State a m) : Prop where
  start : s.start = true
  infinite : s.infinitePayloadLength = false
  stopOnFailure : s.stopOnFailure = false
  payload : s.payloadLengthCounter.toNat = n * m

/-- A run without a write to the registers. -/
def payloadRun (a m n : ℕ) : Circuit (State a m) (Inputs m) where
  init := Loaded n
  admits _ i := i.csr.write = false
  step := step

section Execution

variable {st : ℕ → State a m} {i : ℕ → Inputs m}

/-- The words accepted before cycle `t`. -/
def acceptedCount (st : ℕ → State a m) (i : ℕ → Inputs m) (t : ℕ) : ℕ :=
  Countdown.taken (fun t => snkReady (st t)) (fun t => (i t).snkValid) t

/-- When the run bit has fallen, the checker has accepted `n` words, its payload counter is 0, and
its position has moved on by `n` words. -/
def Consumes (n : ℕ) (st : ℕ → State a m) (i : ℕ → Inputs m) : Prop :=
  ∀ t, (st t).start = true → (st (t + 1)).start = false →
    acceptedCount st i (t + 1) = n ∧ (st (t + 1)).payloadLengthCounter = 0#_ ∧
      (st (t + 1)).patternPositionCounter =
        (increment (st 0).patternLengthMinusOne)^[n] (st 0).patternPositionCounter

/-- The modes and the pattern length stay as they are. -/
theorem modes (he : (payloadRun a m n).Execution st i) (t : ℕ) :
    (st t).infinitePayloadLength = false ∧ (st t).stopOnFailure = false ∧
      (st t).patternLengthMinusOne = (st 0).patternLengthMinusOne := by
  induction t with
  | zero => exact ⟨he.init.infinite, he.init.stopOnFailure, rfl⟩
  | succ t ih =>
    have hi : (i t).csr.write = false := he.admits t
    obtain ⟨hinfinite, hstop, hlast⟩ := ih
    rw [he.step]
    simp [payloadRun, step, loadInfinitePayloadLength, loadStopOnFailure, loadStart,
      Csr.loadsLane_eq_false hi, hinfinite, hstop, hlast]

theorem countdown (he : (payloadRun a m n).Execution st i) :
    Countdown m (fun t => (st t).start) (fun t => (st t).payloadLengthCounter)
      (fun t => (i t).snkValid) where
  start_succ t := by
    have hi : (i t).csr.write = false := he.admits t
    obtain ⟨hinfinite, hstop, -⟩ := modes he t
    rw [he.step]
    cases hs : (st t).start <;> cases hc : (st t).payloadLengthCounter == 0#_ <;>
      simp [payloadRun, step, clearStart, loadStart, Csr.loadsLane_eq_false hi, hinfinite, hstop,
        hs, hc, bne]
  counter_succ t := by
    have hi : (i t).csr.write = false := he.admits t
    rw [he.step]
    simp [payloadRun, step, decrementPayloadLengthCounter, nextPayloadLength_of_quiet hi,
      (modes he t).1]

/-- The position moves on with each accepted word. -/
theorem position_eq (he : (payloadRun a m n).Execution st i) (t : ℕ) :
    (st t).patternPositionCounter =
      (increment (st 0).patternLengthMinusOne)^[acceptedCount st i t]
        (st 0).patternPositionCounter := by
  induction t with
  | zero => rfl
  | succ t ih =>
    have hi : (i t).csr.write = false := he.admits t
    have hcount : acceptedCount st i (t + 1) =
        acceptedCount st i t + (incrementPatternPositionCounter (st t) (i t)).toNat :=
      Countdown.taken_succ _ _ t
    rw [he.step, hcount]
    simp only [payloadRun, step, nextPatternPosition_of_quiet hi, (modes he t).2.2]
    cases hen : incrementPatternPositionCounter (st t) (i t) with
    | false => simpa using ih
    | true => simp [Function.iterate_succ_apply', ← ih]

theorem consumes_iff (he : (payloadRun a m n).Execution st i) (hm : 0 < m) (hn : 0 < n) :
    Consumes n st i ↔
      ∀ t, IsNth (fun t => (i t).snkValid) n t → (i (t + 1)).snkValid = false := by
  have hcountdown := countdown he
  have hexact := hcountdown.exact_iff he.init.start he.init.payload hm hn
    (P := fun t => (st t).patternPositionCounter =
      (increment (st 0).patternLengthMinusOne)^[n] (st 0).patternPositionCounter)
  refine hexact.trans (forall₂_congr fun t ht => and_iff_left_of_imp fun hv => ?_)
  have hcount : acceptedCount st i (t + 2) = n :=
    (hcountdown.ends he.init.start he.init.payload hm ht).taken_eq hv
  rw [position_eq he, hcount]

end Execution

end CustomPatternChecker

/-- Both checkers consume exactly their payload if and only if no word is valid in the cycle after
the last one of the payload and, in the PRBS checker, no seed bit holds the shift register. -/
theorem checkers_consume_iff {n : ℕ} (hn : 0 < n) :
    (∀ b (st : ℕ → PrbsPatternChecker.State (8 * 2 ^ b)) i,
      (PrbsPatternChecker.payloadRun b n).Execution st i →
        (PrbsPatternChecker.Consumes n st i ↔ ∀ t, IsNth (fun t => (i t).snkValid) n t →
          (i (t + 1)).snkValid = false ∧ ((st 0).seedChecker = false ∨
            Prbs.iterate (st 0).polynomial (st 0).pipeline n = Prbs.seedValue (8 * 2 ^ b)))) ∧
    ∀ a m (st : ℕ → CustomPatternChecker.State a m) i, 0 < m →
      (CustomPatternChecker.payloadRun a m n).Execution st i →
        (CustomPatternChecker.Consumes n st i ↔
          ∀ t, IsNth (fun t => (i t).snkValid) n t → (i (t + 1)).snkValid = false) :=
  ⟨fun _ _ _ he => PrbsPatternChecker.consumes_iff he hn,
    fun _ _ _ _ hm he => CustomPatternChecker.consumes_iff he hm hn⟩

/-- A PRBS checker with a payload of one word, which is about to run. -/
def loadedPrbs : PrbsPatternChecker.State (8 * 2 ^ 1) :=
  { PrbsPatternChecker.reset with start := true, payloadLengthCounter := 2#_ }

def loadedCustom : CustomPatternChecker.State 1 1 :=
  { (CustomPatternChecker.reset : CustomPatternChecker.State 1 1) with
    start := true
    patternLengthMinusOne := 1#_
    patternLength := 2#_
    payloadLengthCounter := 1#_ }

/-- A word is valid in the cycles before cycle `k`. -/
def prbsWords (k t : ℕ) : PrbsPatternChecker.Inputs (8 * 2 ^ 1) where
  csr := .none
  snkData := 0#_
  snkValid := decide (t < k)

def customWords (k t : ℕ) : CustomPatternChecker.Inputs 1 := ⟨.none, 0xFF#_, decide (t < k), 0#_⟩

theorem execution_prbsWords (k : ℕ) : (PrbsPatternChecker.payloadRun 1 1).Execution
    (trajectory PrbsPatternChecker.step loadedPrbs (prbsWords k)) (prbsWords k) :=
  Circuit.execution_trajectory ⟨rfl, rfl, rfl, rfl⟩ fun _ _ => rfl

theorem execution_customWords (k : ℕ) : (CustomPatternChecker.payloadRun 1 1 1).Execution
    (trajectory CustomPatternChecker.step loadedCustom (customWords k)) (customWords k) :=
  Circuit.execution_trajectory ⟨rfl, rfl, rfl, rfl⟩ fun _ _ => rfl

/-- One word, and none in the cycle after it. -/
theorem consume_singleWord :
    PrbsPatternChecker.Consumes 1 (trajectory PrbsPatternChecker.step loadedPrbs (prbsWords 1))
        (prbsWords 1) ∧
      CustomPatternChecker.Consumes 1
        (trajectory CustomPatternChecker.step loadedCustom (customWords 1)) (customWords 1) := by
  obtain ⟨hprbs, hcustom⟩ := checkers_consume_iff (n := 1) Nat.one_pos
  refine ⟨(hprbs 1 _ _ (execution_prbsWords 1)).mpr fun t _ => ⟨?_, .inl rfl⟩,
    (hcustom 1 1 _ _ Nat.one_pos (execution_customWords 1)).mpr fun t _ => ?_⟩
  · simp [prbsWords]
  · simp [customWords]

/-- A word that is valid in the cycle after the only one of the payload is accepted, too. -/
theorem not_consume_twoWords :
    ((PrbsPatternChecker.payloadRun 1 1).Execution
        (trajectory PrbsPatternChecker.step loadedPrbs (prbsWords 2)) (prbsWords 2) ∧
      ¬ PrbsPatternChecker.Consumes 1
        (trajectory PrbsPatternChecker.step loadedPrbs (prbsWords 2)) (prbsWords 2)) ∧
    (CustomPatternChecker.payloadRun 1 1 1).Execution
        (trajectory CustomPatternChecker.step loadedCustom (customWords 2)) (customWords 2) ∧
      ¬ CustomPatternChecker.Consumes 1
        (trajectory CustomPatternChecker.step loadedCustom (customWords 2)) (customWords 2) := by
  refine ⟨⟨execution_prbsWords 2, fun h => ?_⟩, execution_customWords 2, fun h => ?_⟩
  · have := (h 1 (by decide) (by decide)).1
    revert this
    decide
  · have := (h 1 (by decide) (by decide)).1
    revert this
    decide

end AvalonCores.MemoryTester
