import Mathlib.Tactic
import AvalonCores.MemoryTester.CheckerPayload

/-! The verdict of a pattern checker that has stopped.  The run bit falls while the comparisons of
the last words are still under way, for three cycles in the PRBS checker and for five in the custom
pattern checker, so that the failure bit is final only some cycles later. -/

namespace AvalonCores.MemoryTester

open Sync

/-- The bit `failure` is set `latency + 1` cycles after a mismatch, which happens only while `start`
is set, and stays set. -/
structure Verdict (latency : ℕ) (start failure : ℕ → Bool) (mismatch : ℕ → Prop) : Prop where
  running : ∀ t, mismatch t → start t = true
  reported : ∀ t, mismatch t → failure (t + latency + 1) = true
  sticky : ∀ t, failure t = true → failure (t + 1) = true

/-- Once `start` has been 0 in a cycle and in the `latency` cycles before it, `failure` tells about
all mismatches. -/
theorem Verdict.failure_of_stopped {latency : ℕ} {start failure : ℕ → Bool}
    {mismatch : ℕ → Prop} (h : Verdict latency start failure mismatch) {t : ℕ}
    (hstop : ∀ u, u ≤ t → t ≤ u + latency → start u = false) (hm : ∃ u < t, mismatch u) :
    failure t = true := by
  obtain ⟨u, hu, hmu⟩ := hm
  have hlate : u + latency + 1 ≤ t := by
    by_contra hlt
    have := hstop u hu.le (by omega)
    rw [h.running u hmu] at this
    contradiction
  obtain ⟨d, rfl⟩ := Nat.exists_eq_add_of_le hlate
  clear hstop hu hlate
  induction d with
  | zero => exact h.reported u hmu
  | succ d ih => exact h.sticky _ ih

namespace PrbsPatternChecker

open Prbs

variable {b : ℕ}

/-- The checker under any accesses to its registers but those that clear the failure bit. -/
def uncleared (b : ℕ) : Circuit (State (8 * 2 ^ b)) (Inputs (8 * 2 ^ b)) where
  init _ := True
  admits _ i := clearFailureDetected i = false
  step := step

/-- The word of cycle `t` is accepted and differs from the content of the shift register. -/
def Mismatches (st : ℕ → State (8 * 2 ^ b)) (i : ℕ → Inputs (8 * 2 ^ b)) (t : ℕ) : Prop :=
  pipelineEnable (st t) (i t) = true ∧ byteReversal (i t).snkData ≠ (st t).pipeline

/-- While the run bit is 0 and has been so for two cycles, the failure bit is 1 if an accepted word
has differed. -/
def FinalVerdict (st : ℕ → State (8 * 2 ^ b)) (i : ℕ → Inputs (8 * 2 ^ b)) : Prop :=
  ∀ t, (∀ u, u ≤ t → t ≤ u + 2 → (st u).start = false) → (∃ u < t, Mismatches st i u) →
    (st t).failureDetected = true

section Execution

variable {st : ℕ → State (8 * 2 ^ b)} {i : ℕ → Inputs (8 * 2 ^ b)}

theorem failureDetected_latency (hstep : ∀ t, st (t + 1) = step (st t) (i t)) (t : ℕ)
    (hclear : clearFailureDetected (i (t + 2)) = false) :
    (st (t + 3)).failureDetected = ((st (t + 2)).failureDetected ||
      (pipelineEnable (st t) (i t) && byteReversal (i t).snkData != (st t).pipeline)) := by
  have hd1 : (st (t + 1)).pipelineEnableD1 = pipelineEnable (st t) (i t) := by
    rw [hstep]
    rfl
  have hd2 : (st (t + 2)).pipelineEnableD2 = pipelineEnable (st t) (i t) := by
    rw [hstep, ← hd1]
    rfl
  have hlast : (st (t + 3)).failureDetected = ((st (t + 2)).failureDetected ||
      (!(st (t + 2)).dataCompareD1 && (st (t + 2)).pipelineEnableD2)) := by
    rw [hstep (t + 2)]
    simp only [step, setFailureDetected, hclear]
    cases !(st (t + 2)).dataCompareD1 && (st (t + 2)).pipelineEnableD2 <;> simp
  rw [hlast, hd2]
  cases he : pipelineEnable (st t) (i t) with
  | false => simp
  | true =>
    have hdata : (st (t + 1)).dataInD1 = byteReversal (i t).snkData := by
      rw [hstep]
      simp [step, he, dataIn_eq]
    have hexpected : (st (t + 1)).pipelineD1 = (st t).pipeline := by
      rw [hstep]
      simp [step, he]
    have hcompare : (st (t + 2)).dataCompareD1 =
        (byteReversal (i t).snkData == (st t).pipeline) := by
      rw [← hdata, ← hexpected, hstep (t + 1)]
      simp [step, hd1, he, dataCompare]
    rw [hcompare, Bool.and_true, Bool.true_and]
    rfl

theorem verdict (he : (uncleared b).Execution st i) :
    Verdict 2 (fun t => (st t).start) (fun t => (st t).failureDetected) (Mismatches st i) where
  running t h := by
    have := h.1
    simp only [pipelineEnable, Bool.and_eq_true] at this
    exact this.1
  reported t h := by
    rw [failureDetected_latency he.step t (he.admits _), h.1, Bool.true_and, Bool.or_eq_true,
      bne_iff_ne]
    exact .inr h.2
  sticky t h := by
    have hclear : clearFailureDetected (i t) = false := he.admits t
    rw [he.step]
    simp [uncleared, step, hclear, h]

end Execution

end PrbsPatternChecker

namespace CustomPatternChecker

open CustomPattern

variable {a m : ℕ}

/-- The checker under any accesses to its registers but those that clear the failure bit. -/
def uncleared (a m : ℕ) : Circuit (State a m) (Inputs m) where
  init _ := True
  admits _ i := clearFailureDetected i = false
  step := step

/-- The word of cycle `t` is accepted and differs from the word that the pattern memory returns for
the position of that cycle. -/
def Mismatches (st : ℕ → State a m) (i : ℕ → Inputs m) (t : ℕ) : Prop :=
  validData (st t) (i t) = true ∧ (i (t + 2)).memoryData ≠ reverseSymbols (i t).snkData

/-- While the run bit is 0 and has been so for four cycles, the failure bit is 1 if an accepted word
has differed. -/
def FinalVerdict (st : ℕ → State a m) (i : ℕ → Inputs m) : Prop :=
  ∀ t, (∀ u, u ≤ t → t ≤ u + 4 → (st u).start = false) → (∃ u < t, Mismatches st i u) →
    (st t).failureDetected = true

section Execution

variable {st : ℕ → State a m} {i : ℕ → Inputs m}

theorem verdict (he : (uncleared a m).Execution st i) :
    Verdict 4 (fun t => (st t).start) (fun t => (st t).failureDetected) (Mismatches st i) where
  running t h := by
    have := h.1
    simp only [validData, Bool.and_eq_true] at this
    exact this.2
  reported t h := by
    rw [failureDetected_latency he.step t (he.admits _), h.1, Bool.true_and, Bool.or_eq_true,
      bne_iff_ne]
    exact .inr h.2
  sticky t h := by
    rw [he.step, uncleared, failureDetected_of_uncleared (he.admits t), h, Bool.true_or]

end Execution

end CustomPatternChecker

/-- The failure bits of both checkers are final when the run bits have been 0 for two and for four
cycles. -/
theorem checkers_finalVerdict :
    (∀ b (st : ℕ → PrbsPatternChecker.State (8 * 2 ^ b)) i,
      (PrbsPatternChecker.uncleared b).Execution st i →
        PrbsPatternChecker.FinalVerdict st i) ∧
    ∀ a m (st : ℕ → CustomPatternChecker.State a m) i,
      (CustomPatternChecker.uncleared a m).Execution st i →
        CustomPatternChecker.FinalVerdict st i :=
  ⟨fun _ _ _ he _ hstop hm => (PrbsPatternChecker.verdict he).failure_of_stopped hstop hm,
    fun _ _ _ _ he _ hstop hm => (CustomPatternChecker.verdict he).failure_of_stopped hstop hm⟩

theorem uncleared_prbsWords (k : ℕ) : (PrbsPatternChecker.uncleared 1).Execution
    (trajectory PrbsPatternChecker.step loadedPrbs (prbsWords k)) (prbsWords k) :=
  Circuit.execution_trajectory trivial fun _ _ => rfl

theorem uncleared_customWords (k : ℕ) : (CustomPatternChecker.uncleared 1 1).Execution
    (trajectory CustomPatternChecker.step loadedCustom (customWords k)) (customWords k) :=
  Circuit.execution_trajectory trivial fun _ _ => rfl

/-- The only word of the payload is wrong.  The run bit is 0 from cycle 2 on. -/
theorem mismatches_singleWord :
    PrbsPatternChecker.Mismatches (trajectory PrbsPatternChecker.step loadedPrbs (prbsWords 1))
        (prbsWords 1) 0 ∧
      CustomPatternChecker.Mismatches
        (trajectory CustomPatternChecker.step loadedCustom (customWords 1)) (customWords 1) 0 := by
  refine ⟨⟨by decide, ?_⟩, by decide, ?_⟩ <;> decide +kernel

theorem failureDetected_singleWord :
    (trajectory PrbsPatternChecker.step loadedPrbs (prbsWords 1) 4).failureDetected = true ∧
      (trajectory CustomPatternChecker.step loadedCustom (customWords 1) 6).failureDetected =
        true := by
  obtain ⟨hprbs, hcustom⟩ := checkers_finalVerdict
  obtain ⟨hmp, hmc⟩ := mismatches_singleWord
  refine ⟨hprbs 1 _ _ (uncleared_prbsWords 1) 4 ?_ ⟨0, by omega, hmp⟩,
    hcustom 1 1 _ _ (uncleared_customWords 1) 6 ?_ ⟨0, by omega, hmc⟩⟩
  · intro u hu hlast
    interval_cases u <;> first | omega | decide
  · intro u hu hlast
    interval_cases u <;> first | omega | decide

/-- In cycle 2, the run bits are 0, and neither failure bit tells about the wrong word. -/
theorem not_final_singleWord :
    ((PrbsPatternChecker.uncleared 1).Execution
        (trajectory PrbsPatternChecker.step loadedPrbs (prbsWords 1)) (prbsWords 1) ∧
      (trajectory PrbsPatternChecker.step loadedPrbs (prbsWords 1) 2).start = false ∧
      (∃ u < 2, PrbsPatternChecker.Mismatches
        (trajectory PrbsPatternChecker.step loadedPrbs (prbsWords 1)) (prbsWords 1) u) ∧
      (trajectory PrbsPatternChecker.step loadedPrbs (prbsWords 1) 2).failureDetected = false) ∧
    (CustomPatternChecker.uncleared 1 1).Execution
        (trajectory CustomPatternChecker.step loadedCustom (customWords 1)) (customWords 1) ∧
      (trajectory CustomPatternChecker.step loadedCustom (customWords 1) 2).start = false ∧
      (∃ u < 2, CustomPatternChecker.Mismatches
        (trajectory CustomPatternChecker.step loadedCustom (customWords 1)) (customWords 1) u) ∧
      (trajectory CustomPatternChecker.step loadedCustom (customWords 1) 2).failureDetected =
        false := by
  obtain ⟨hmp, hmc⟩ := mismatches_singleWord
  exact ⟨⟨uncleared_prbsWords 1, by decide, ⟨0, by omega, hmp⟩, by decide⟩,
    uncleared_customWords 1, by decide, ⟨0, by omega, hmc⟩, by decide⟩

end AvalonCores.MemoryTester
