import Mathlib.Tactic
import AvalonCores.Sync.Countdown
import AvalonCores.MemoryTester.PrbsPatternGenerator
import AvalonCores.MemoryTester.PrbsPatternChecker

/-! Runs of the PRBS cores that begin with a write of the seed bit together with the run bit.  The
seed bit is cleared only by a write of the run bit that finds it set.  After a write of both bits,
it stays set and holds the shift register at the seed from the second cycle of the run on, while
the first cycle still has the old content. -/

namespace AvalonCores.MemoryTester

open Sync

namespace Prbs

/-- The words shown in the cycles of `e` by a register `p` that has `x` in cycle 0 and `seed`
later are the iterates of `seed` if and only if cycle 0 shows none or `x` is the seed, and no
second word is shown or the seed is its own successor. -/
theorem held_iff {α : Type*} {f : α → α} {x seed : α} {p : ℕ → α} {e : ℕ → Bool}
    (h0 : p 0 = x) (hheld : ∀ t, p (t + 1) = seed) :
    (∀ t, e t = true → p t = f^[Nat.count (e · = true) t] seed) ↔
      (e 0 = true → x = seed) ∧
        ((∃ t u, t < u ∧ e t = true ∧ e u = true) → f seed = seed) := by
  constructor
  · intro hall
    refine ⟨fun he => ?_, ?_⟩
    · rw [← h0, hall 0 he]
      rfl
    · rintro ⟨t, u, htu, ht, hu⟩
      -- The second word is the first iterate.
      have hlt : 1 < Nat.count (e · = true) (u + 1) := by
        have hpos : Nat.count (e · = true) t < Nat.count (e · = true) u :=
          Nat.count_strict_mono (p := (e · = true)) ht htu
        rw [Nat.count_succ, if_pos hu]
        omega
      obtain ⟨v, -, hv, hcount⟩ := exists_count_eq hlt
      have hword := hall v hv
      cases v with
      | zero => simp at hcount
      | succ v =>
        rw [hheld, hcount] at hword
        exact hword.symm
  · rintro ⟨hfirst, hsecond⟩ t ht
    cases t with
    | zero =>
      rw [h0, hfirst ht]
      rfl
    | succ t =>
      rw [hheld]
      by_cases hzero : Nat.count (e · = true) (t + 1) = 0
      · rw [hzero]
        rfl
      · obtain ⟨u, hu, heu⟩ := Nat.count_ne_iff_exists.mp hzero
        exact (Function.iterate_fixed (hsecond ⟨u, t + 1, hu, heu, ht⟩) _).symm

/-- What the two cores have in common: a seed bit that loads the shift register with the seed, and
that no cycle without a write clears, and the stage that shows the shift register of each enabled
cycle. -/
structure SeededCore (b : ℕ) (σ ι : Type) where
  step : σ → ι → σ
  csr : ι → CsrAccess
  seed : σ → Bool
  enable : σ → ι → Bool
  pipeline : σ → Word b
  pipelineD1 : σ → Word b
  seed_step : ∀ s i, seed s = true → (csr i).write = false → seed (step s i) = true
  pipeline_step : ∀ s i, seed s = true → pipeline (step s i) = seedValue (8 * 2 ^ b)
  pipelineD1_step : ∀ s i, enable s i = true → pipelineD1 (step s i) = pipeline s

namespace SeededCore

variable {b : ℕ} {σ ι : Type} (C : SeededCore b σ ι) {st : ℕ → σ} {i : ℕ → ι}
  (hstep : ∀ t, st (t + 1) = C.step (st t) (i t)) (hwrite : ∀ t, (C.csr (i t)).write = false)
  (hseed : C.seed (st 0) = true)

include hstep hwrite hseed

/-- The seed bit holds the shift register from the second cycle on. -/
theorem pipeline_held (t : ℕ) : C.pipeline (st (t + 1)) = seedValue (8 * 2 ^ b) := by
  have hset : C.seed (st t) = true := by
    induction t with
    | zero => exact hseed
    | succ t ih =>
      rw [hstep]
      exact C.seed_step _ _ ih (hwrite t)
  rw [hstep]
  exact C.pipeline_step _ _ hset

/-- The words shown are the iterates of the seed if and only if the first cycle shows none or the
shift register has held the seed before, and no second word is shown or the seed is its own
successor. -/
theorem shown_iff (polynomial : BitVec 128) :
    (∀ t, C.enable (st t) (i t) = true → C.pipelineD1 (st (t + 1)) =
      iterate polynomial (seedValue (8 * 2 ^ b))
        (Nat.count (fun u => C.enable (st u) (i u) = true) t)) ↔
      (C.enable (st 0) (i 0) = true → C.pipeline (st 0) = seedValue (8 * 2 ^ b)) ∧
        ((∃ t u, t < u ∧ C.enable (st t) (i t) = true ∧ C.enable (st u) (i u) = true) →
          pipelineInput polynomial (seedValue (8 * 2 ^ b)) = seedValue (8 * 2 ^ b)) := by
  refine Iff.trans (forall₂_congr fun t ht => ?_) (held_iff (f := pipelineInput polynomial)
    (p := fun t => C.pipeline (st t)) (e := fun t => C.enable (st t) (i t)) rfl
    (C.pipeline_held hstep hwrite hseed))
  rw [hstep, C.pipelineD1_step _ _ ht]
  rfl

end SeededCore

end Prbs

namespace PrbsPatternGenerator

open Prbs

variable {b : ℕ} {x : Word b}

/-- A control write has set the seed bit and the run bit of a stopped generator whose shift register
held `x`. -/
structure SeededWithRun (x : Word b) (s : State (8 * 2 ^ b)) : Prop where
  written : ∃ t i, t.start = false ∧ t.seedGenerator = false ∧ t.pipeline = x ∧
    loadStart i = true ∧ i.csr.writedata.getLsbD 24 = true ∧
    loadSeedGenerator i = true ∧ i.csr.writedata.getLsbD 16 = true ∧ s = step t i

/-- The run from such a write on, without another write to the registers. -/
def seededRun (x : Word b) : Circuit (State (8 * 2 ^ b)) Inputs where
  init := SeededWithRun x
  admits _ i := i.csr.write = false
  step := step

theorem SeededWithRun.fields {s : State (8 * 2 ^ b)} (h : SeededWithRun x s) :
    s.start = true ∧ s.seedGenerator = true ∧ s.pipeline = x := by
  obtain ⟨t, i, hstart, hseed, hx, hload, hrun, hloadSeed, hset, rfl⟩ := h.written
  simp [step, clearStart, clearSeedGenerator, pipelineEnable, hstart, hseed, hx, hload, hrun,
    hloadSeed, hset]

/-- The shift register of the generator. -/
def seededCore (b : ℕ) : SeededCore b (State (8 * 2 ^ b)) Inputs where
  step := step
  csr := Inputs.csr
  seed := State.seedGenerator
  enable := pipelineEnable
  pipeline := State.pipeline
  pipelineD1 := State.pipelineD1
  seed_step s i hs hi := by
    simp [step, clearSeedGenerator, loadStart, loadSeedGenerator, CsrAccess.loadsLane_eq_false hi,
      hs]
  pipeline_step s i hs := by simp [step, hs]
  pipelineD1_step s i he := by simp [step, he]

section Execution

variable {st : ℕ → State (8 * 2 ^ b)} {i : ℕ → Inputs}

/-- The words sent are the iterates of the seed. -/
def EmitsSeeded (st : ℕ → State (8 * 2 ^ b)) : Prop :=
  ∀ t, srcValid (st (t + 1)) = true → srcData (st (t + 1)) =
    byteReversal (iterate (st 0).polynomial (seedValue (8 * 2 ^ b))
      (Nat.count (fun u => srcValid (st (u + 1)) = true) t))

theorem emitsSeeded_iff (he : (seededRun x).Execution st i) :
    EmitsSeeded st ↔ ((i 0).srcReady = true → x = seedValue (8 * 2 ^ b)) ∧
      ((∃ t u, t < u ∧ pipelineEnable (st t) (i t) = true ∧ pipelineEnable (st u) (i u) = true) →
        pipelineInput (st 0).polynomial (seedValue (8 * 2 ^ b)) = seedValue (8 * 2 ^ b)) := by
  obtain ⟨hstart, hseed, hx⟩ := he.init.fields
  have hvalid (t : ℕ) : srcValid (st (t + 1)) = pipelineEnable (st t) (i t) := by
    rw [he.step]
    rfl
  have hfirst : (i 0).srcReady = pipelineEnable (st 0) (i 0) := by simp [pipelineEnable, hstart]
  have hshown := (seededCore b).shown_iff he.step he.admits hseed (st 0).polynomial
  rw [hfirst, EmitsSeeded, ← hx]
  simp only [hvalid]
  refine Iff.trans (forall₂_congr fun t _ => ?_) hshown
  exact (byteReversal_injective b).eq_iff

end Execution

end PrbsPatternGenerator

namespace PrbsPatternChecker

open Prbs

variable {b : ℕ} {x : Word b}

/-- A control write has set the seed bit and the run bit of a stopped checker whose shift register
held `x`. -/
structure SeededWithRun (x : Word b) (s : State (8 * 2 ^ b)) : Prop where
  written : ∃ t i, t.start = false ∧ t.seedChecker = false ∧ t.pipeline = x ∧
    loadStart i = true ∧ i.csr.writedata.getLsbD 24 = true ∧
    loadSeedChecker i = true ∧ i.csr.writedata.getLsbD 16 = true ∧ s = step t i

/-- The run from such a write on, without another write to the registers. -/
def seededRun (x : Word b) : Circuit (State (8 * 2 ^ b)) (Inputs (8 * 2 ^ b)) where
  init := SeededWithRun x
  admits _ i := i.csr.write = false
  step := step

theorem SeededWithRun.fields {s : State (8 * 2 ^ b)} (h : SeededWithRun x s) :
    s.start = true ∧ s.seedChecker = true ∧ s.pipeline = x := by
  obtain ⟨t, i, hstart, hseed, hx, hload, hrun, hloadSeed, hset, rfl⟩ := h.written
  simp [step, clearStart, clearSeedChecker, pipelineEnable, hstart, hseed, hx, hload, hrun,
    hloadSeed, hset]

/-- The shift register of the checker. -/
def seededCore (b : ℕ) : SeededCore b (State (8 * 2 ^ b)) (Inputs (8 * 2 ^ b)) where
  step := step
  csr := Inputs.csr
  seed := State.seedChecker
  enable := pipelineEnable
  pipeline := State.pipeline
  pipelineD1 := State.pipelineD1
  seed_step s i hs hi := by
    simp [step, clearSeedChecker, loadStart, loadSeedChecker, CsrAccess.loadsLane_eq_false hi, hs]
  pipeline_step s i hs := by simp [step, hs]
  pipelineD1_step s i he := by simp [step, he]

section Execution

variable {st : ℕ → State (8 * 2 ^ b)} {i : ℕ → Inputs (8 * 2 ^ b)}

/-- The words that the accepted ones are compared with are the iterates of the seed. -/
def ExpectsSeeded (st : ℕ → State (8 * 2 ^ b)) (i : ℕ → Inputs (8 * 2 ^ b)) : Prop :=
  ∀ t, pipelineEnable (st t) (i t) = true → (st (t + 1)).pipelineD1 =
    iterate (st 0).polynomial (seedValue (8 * 2 ^ b))
      (Nat.count (fun u => pipelineEnable (st u) (i u) = true) t)

theorem expectsSeeded_iff (he : (seededRun x).Execution st i) :
    ExpectsSeeded st i ↔ ((i 0).snkValid = true → x = seedValue (8 * 2 ^ b)) ∧
      ((∃ t u, t < u ∧ pipelineEnable (st t) (i t) = true ∧ pipelineEnable (st u) (i u) = true) →
        pipelineInput (st 0).polynomial (seedValue (8 * 2 ^ b)) = seedValue (8 * 2 ^ b)) := by
  obtain ⟨hstart, hseed, hx⟩ := he.init.fields
  have hfirst : (i 0).snkValid = pipelineEnable (st 0) (i 0) := by simp [pipelineEnable, hstart]
  rw [hfirst, ← hx]
  exact (seededCore b).shown_iff he.step he.admits hseed (st 0).polynomial

end Execution

end PrbsPatternChecker

open Prbs

/-- A run that begins with a write of both bits shows the iterates of the seed if and only if its
first cycle transfers no word or the shift register has held the seed before, and it transfers at
most one word or the seed is its own successor. -/
theorem seeded_run_iff (b : ℕ) (x : Word b) :
    (∀ (st : ℕ → PrbsPatternGenerator.State (8 * 2 ^ b)) i,
      (PrbsPatternGenerator.seededRun x).Execution st i →
        (PrbsPatternGenerator.EmitsSeeded st ↔ ((i 0).srcReady = true → x = seedValue (8 * 2 ^ b)) ∧
          ((∃ t u, t < u ∧ PrbsPatternGenerator.pipelineEnable (st t) (i t) = true ∧
            PrbsPatternGenerator.pipelineEnable (st u) (i u) = true) →
            pipelineInput (st 0).polynomial (seedValue (8 * 2 ^ b)) = seedValue (8 * 2 ^ b)))) ∧
    ∀ (st : ℕ → PrbsPatternChecker.State (8 * 2 ^ b)) i,
      (PrbsPatternChecker.seededRun x).Execution st i →
        (PrbsPatternChecker.ExpectsSeeded st i ↔
          ((i 0).snkValid = true → x = seedValue (8 * 2 ^ b)) ∧
          ((∃ t u, t < u ∧ PrbsPatternChecker.pipelineEnable (st t) (i t) = true ∧
            PrbsPatternChecker.pipelineEnable (st u) (i u) = true) →
            pipelineInput (st 0).polynomial (seedValue (8 * 2 ^ b)) = seedValue (8 * 2 ^ b))) :=
  ⟨fun _ _ => PrbsPatternGenerator.emitsSeeded_iff, fun _ _ => PrbsPatternChecker.expectsSeeded_iff⟩

/-- The write of the seed bit and the run bit. -/
def seedAndRun : CsrAccess := ⟨2#_, false, true, 0x01010000#_, 0b1100#_⟩

/-- A generator after its reset and the two writes of the payload and of the control register. -/
def seededGenerator (payload : BitVec 32) : PrbsPatternGenerator.State (8 * 2 ^ 1) :=
  PrbsPatternGenerator.step { PrbsPatternGenerator.reset with payloadLengthCounter := payload }
    ⟨seedAndRun, true⟩

def seededChecker (payload : BitVec 32) : PrbsPatternChecker.State (8 * 2 ^ 1) :=
  PrbsPatternChecker.step { PrbsPatternChecker.reset with payloadLengthCounter := payload }
    { csr := seedAndRun, snkData := 0#_, snkValid := false }

/-- The sink is ready in the cycles before cycle `k`. -/
def readyBefore (k t : ℕ) : PrbsPatternGenerator.Inputs := ⟨.none, decide (t < k)⟩

def validBefore (k t : ℕ) : PrbsPatternChecker.Inputs (8 * 2 ^ 1) where
  csr := .none
  snkData := 0#_
  snkValid := decide (t < k)

theorem execution_seededGenerator (payload : BitVec 32) (k : ℕ) :
    (PrbsPatternGenerator.seededRun (seedValue 16)).Execution
      (trajectory PrbsPatternGenerator.step (seededGenerator payload) (readyBefore k))
      (readyBefore k) :=
  Circuit.execution_trajectory ⟨_, _, rfl, rfl, rfl, rfl, rfl, rfl, rfl, rfl⟩ fun _ _ => rfl

theorem execution_seededChecker (payload : BitVec 32) (k : ℕ) :
    (PrbsPatternChecker.seededRun (seedValue 16)).Execution
      (trajectory PrbsPatternChecker.step (seededChecker payload) (validBefore k))
      (validBefore k) :=
  Circuit.execution_trajectory ⟨_, _, rfl, rfl, rfl, rfl, rfl, rfl, rfl, rfl⟩ fun _ _ => rfl

/-- From the reset on, a single word is the seed. -/
theorem seeded_singleWord :
    PrbsPatternGenerator.EmitsSeeded
        (trajectory PrbsPatternGenerator.step (seededGenerator 4#_) (readyBefore 1)) ∧
      PrbsPatternChecker.ExpectsSeeded
        (trajectory PrbsPatternChecker.step (seededChecker 4#_) (validBefore 1))
        (validBefore 1) := by
  obtain ⟨hgenerator, hchecker⟩ := seeded_run_iff 1 (seedValue 16)
  refine ⟨(hgenerator _ _ (execution_seededGenerator 4#_ 1)).mpr ⟨fun _ => rfl, ?_⟩,
    (hchecker _ _ (execution_seededChecker 4#_ 1)).mpr ⟨fun _ => rfl, ?_⟩⟩
  · rintro ⟨t, u, htu, -, hu⟩
    simp only [PrbsPatternGenerator.pipelineEnable, readyBefore, Bool.and_eq_true,
      decide_eq_true_iff] at hu
    omega
  · rintro ⟨t, u, htu, -, hu⟩
    simp only [PrbsPatternChecker.pipelineEnable, validBefore, Bool.and_eq_true,
      decide_eq_true_iff] at hu
    omega

/-- From the reset on, the second of two words is the seed again. -/
theorem not_seeded_twoWords :
    ((PrbsPatternGenerator.seededRun (seedValue 16)).Execution
        (trajectory PrbsPatternGenerator.step (seededGenerator 4#_) (readyBefore 2))
        (readyBefore 2) ∧
      ¬ PrbsPatternGenerator.EmitsSeeded
        (trajectory PrbsPatternGenerator.step (seededGenerator 4#_) (readyBefore 2))) ∧
    (PrbsPatternChecker.seededRun (seedValue 16)).Execution
        (trajectory PrbsPatternChecker.step (seededChecker 4#_) (validBefore 2)) (validBefore 2) ∧
      ¬ PrbsPatternChecker.ExpectsSeeded
        (trajectory PrbsPatternChecker.step (seededChecker 4#_) (validBefore 2))
        (validBefore 2) := by
  have hne : pipelineInput (polynomialResetValue 16) (seedValue 16) ≠ seedValue 16 := by
    decide +kernel
  refine ⟨⟨execution_seededGenerator 4#_ 2, fun h => ?_⟩,
    execution_seededChecker 4#_ 2, fun h => ?_⟩
  · rw [PrbsPatternGenerator.emitsSeeded_iff (execution_seededGenerator 4#_ 2)] at h
    exact hne (h.2 ⟨0, 1, by omega, by decide, by decide⟩)
  · rw [PrbsPatternChecker.expectsSeeded_iff (execution_seededChecker 4#_ 2)] at h
    exact hne (h.2 ⟨0, 1, by omega, by decide, by decide⟩)

end AvalonCores.MemoryTester
