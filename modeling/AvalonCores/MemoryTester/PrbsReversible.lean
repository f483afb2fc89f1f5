import Mathlib.Tactic
import AvalonCores.Lfsr.Reversible
import AvalonCores.MemoryTester.PrbsPatternChecker
import AvalonCores.MemoryTester.PrbsPatternGenerator
import AvalonCores.MemoryTester.PrbsPeriod
import AvalonCores.Sync.PermutedRegister

/-! The shift registers of the PRBS cores permute their contents under every polynomial.  They load
their highest bit from bit 0 whatever the polynomial says of it, so that they are Galois registers
whose highest bit is a tap. -/

namespace AvalonCores.MemoryTester.Prbs

open Sync

variable {w : ℕ}

/-- The polynomial with the tap on the highest bit that the shift register always has. -/
def galoisTaps (w : ℕ) (polynomial : BitVec 128) : BitVec w :=
  polynomial.setWidth w ||| BitVec.twoPow w (w - 1)

theorem galoisTaps_top (hw : 0 < w) (polynomial : BitVec 128) :
    (galoisTaps w polynomial).getLsbD (w - 1) = true := by
  have hlt : w - 1 < w := by omega
  rw [galoisTaps, BitVec.getLsbD_or, BitVec.getLsbD_twoPow, decide_eq_true hlt,
    decide_eq_true rfl, Bool.and_self, Bool.or_true]

theorem pipelineInput_eq_step_galoisTaps (hw : 0 < w) (polynomial : BitVec 128) (s : BitVec w) :
    pipelineInput polynomial s = Lfsr.step (galoisTaps w polynomial) s := by
  refine pipelineInput_eq_step_of_taps (galoisTaps_top hw polynomial) ?_ s
  intro d hd
  have hin : d < w := by omega
  have hne : w - 1 ≠ d := by omega
  rw [galoisTaps, BitVec.getLsbD_or, BitVec.getLsbD_setWidth, BitVec.getLsbD_twoPow,
    decide_eq_true hin, decide_eq_false hne, Bool.and_false, Bool.or_false, Bool.true_and]

/-- The step of the shift register as a permutation of its contents. -/
def pipelineEquiv (polynomial : BitVec 128) : Equiv.Perm (BitVec w) where
  toFun := pipelineInput polynomial
  invFun := Lfsr.back (galoisTaps w polynomial)
  left_inv s := by
    rcases Nat.eq_zero_or_pos w with rfl | hw
    · exact Subsingleton.elim _ _
    · rw [pipelineInput_eq_step_galoisTaps hw, Lfsr.back_step (galoisTaps_top hw polynomial)]
  right_inv s := by
    rcases Nat.eq_zero_or_pos w with rfl | hw
    · exact Subsingleton.elim _ _
    · rw [pipelineInput_eq_step_galoisTaps hw, Lfsr.step_back (galoisTaps_top hw polynomial)]

theorem pipelineInput_zero (polynomial : BitVec 128) : pipelineInput polynomial 0#w = 0#w := by
  apply BitVec.eq_of_getLsbD_eq
  intro d hd
  rw [getLsbD_pipelineInput polynomial 0#w hd]
  simp only [BitVec.getLsbD_zero, Bool.false_and, Bool.xor_false, ite_self]

/-- All four values of `SEED_VALUE` have bit 1 set, which a width of two bits leaves in place. -/
theorem seedValue_ne_zero (hw : 2 ≤ w) : seedValue w ≠ 0#w := by
  intro h
  have hbit : (seedValue w).getLsbD 1 = true := by
    have hlt : 1 < w := hw
    rw [seedValue, BitVec.getLsbD_ofNat, decide_eq_true hlt, Bool.true_and]
    split_ifs <;> decide
  rw [h, BitVec.getLsbD_zero] at hbit
  contradiction

/-- The action of a core with the given seed bit, pipeline enable and polynomial. -/
def shiftAction (seed enable : Bool) (polynomial : BitVec 128) : RegisterAction (BitVec 128) :=
  if seed then .load else if enable then .move polynomial else .keep

theorem next_shiftAction (seed enable : Bool) (polynomial : BitVec 128) (x : BitVec w) :
    (shiftAction seed enable polynomial).next (seedValue w) pipelineEquiv x =
      if seed then seedValue w else if enable then pipelineInput polynomial x else x := by
  cases seed
  · cases enable <;> rfl
  · rfl

theorem shiftAction_ne_load {seed : Bool} (h : seed = false) (enable : Bool)
    (polynomial : BitVec 128) : shiftAction seed enable polynomial ≠ .load := by
  rw [h]
  cases enable <;> nofun

/-- The shift register of the generator. -/
def generator (w : ℕ) : PermutedRegister (PrbsPatternGenerator.fromReset w) (seedValue w)
    pipelineEquiv where
  content s := s.pipeline
  action s i :=
    shiftAction s.seedGenerator (PrbsPatternGenerator.pipelineEnable s i) s.polynomial
  content_init := by
    rintro _ rfl
    rfl
  content_step _ _ := (next_shiftAction _ _ _ _).symm

/-- The shift register of the checker. -/
def checker (w : ℕ) : PermutedRegister (PrbsPatternChecker.fromReset w) (seedValue w)
    pipelineEquiv where
  content s := s.pipeline
  action s i :=
    shiftAction s.seedChecker (PrbsPatternChecker.pipelineEnable s i) s.polynomial
  content_init := by
    rintro _ rfl
    rfl
  content_step _ _ := (next_shiftAction _ _ _ _).symm

theorem generator_ne_zero (hw : 2 ≤ w) {s : PrbsPatternGenerator.State w}
    (h : (PrbsPatternGenerator.fromReset w).Reachable s) : s.pipeline ≠ 0#w :=
  (generator w).content_ne (seedValue_ne_zero hw) pipelineInput_zero h

theorem checker_ne_zero (hw : 2 ≤ w) {s : PrbsPatternChecker.State w}
    (h : (PrbsPatternChecker.fromReset w).Reachable s) : s.pipeline ≠ 0#w :=
  (checker w).content_ne (seedValue_ne_zero hw) pipelineInput_zero h

/-- Under every polynomial the step is a bijection that fixes 0.  So the shift register of a core
is never 0, and those of two cores that differ still differ when both have gone on with the same
polynomials, whatever the accesses and the handshakes were. -/
theorem pipelineInput_reversible (hw : 2 ≤ w) :
    (∀ polynomial : BitVec 128,
      Function.Bijective (pipelineInput polynomial : BitVec w → BitVec w) ∧
      pipelineInput polynomial 0#w = 0#w) ∧
    (∀ s, (PrbsPatternGenerator.fromReset w).Reachable s → s.pipeline ≠ 0#w) ∧
    (∀ s, (PrbsPatternChecker.fromReset w).Reachable s → s.pipeline ≠ 0#w) ∧
    (generator w).StaysApart (generator w) ∧
    (generator w).StaysApart (checker w) ∧
    (checker w).StaysApart (checker w) := by
  refine ⟨fun polynomial => ⟨?_, pipelineInput_zero polynomial⟩, fun _ => generator_ne_zero hw,
    fun _ => checker_ne_zero hw, ?_, ?_, ?_⟩
  · exact (pipelineEquiv polynomial).bijective
  · exact PermutedRegister.staysApart _ _
  · exact PermutedRegister.staysApart _ _
  · exact PermutedRegister.staysApart _ _

theorem pipelineInput_reversible_24 : 2 ≤ 24 ∧
    (∀ polynomial : BitVec 128,
      Function.Bijective (pipelineInput polynomial : BitVec 24 → BitVec 24) ∧
      pipelineInput polynomial 0#24 = 0#24) ∧
    (∀ s, (PrbsPatternGenerator.fromReset 24).Reachable s → s.pipeline ≠ 0#24) ∧
    (∀ s, (PrbsPatternChecker.fromReset 24).Reachable s → s.pipeline ≠ 0#24) ∧
    (generator 24).StaysApart (generator 24) ∧
    (generator 24).StaysApart (checker 24) ∧
    (checker 24).StaysApart (checker 24) :=
  ⟨by decide, pipelineInput_reversible (by decide)⟩

/-- A checker that is out of step with its generator, and takes every step with it under the same
polynomials, does not come into step. -/
theorem generator_ne_checker {s : PrbsPatternGenerator.State w}
    {i : ℕ → PrbsPatternGenerator.Inputs} {s' : PrbsPatternChecker.State w}
    {i' : ℕ → PrbsPatternChecker.Inputs w}
    (hseed : ∀ t, (trajectory PrbsPatternGenerator.step s i t).seedGenerator = false)
    (hseed' : ∀ t, (trajectory PrbsPatternChecker.step s' i' t).seedChecker = false)
    (henable : ∀ t, PrbsPatternChecker.pipelineEnable
        (trajectory PrbsPatternChecker.step s' i' t) (i' t) =
      PrbsPatternGenerator.pipelineEnable
        (trajectory PrbsPatternGenerator.step s i t) (i t))
    (hpolynomial : ∀ t, (trajectory PrbsPatternChecker.step s' i' t).polynomial =
      (trajectory PrbsPatternGenerator.step s i t).polynomial)
    (hne : s.pipeline ≠ s'.pipeline) (t : ℕ) :
    (trajectory PrbsPatternGenerator.step s i t).pipeline ≠
      (trajectory PrbsPatternChecker.step s' i' t).pipeline := by
  have hapart : (generator w).StaysApart (checker w) := PermutedRegister.staysApart _ _
  refine hapart.lockstep (fun t => shiftAction_ne_load (hseed t) _ _) (fun t => ?_) hne t
  have hequal : (trajectory PrbsPatternChecker.step s' i' t).seedChecker =
      (trajectory PrbsPatternGenerator.step s i t).seedGenerator :=
    (hseed' t).trans (hseed t).symm
  exact congr (congrArg₂ shiftAction hequal (henable t)) (hpolynomial t)

/-! ### The cores with `8 * 2 ^ b` bits -/

theorem two_le_word (b : ℕ) : 2 ≤ 8 * 2 ^ b := by
  have := Nat.two_pow_pos b
  omega

/-- With the default polynomial, a generator goes from any state of a run through all contents
but 0. -/
theorem isLeast_period_generator {b : ℕ} (hb : 1 ≤ b ∧ b ≤ 4)
    {s : PrbsPatternGenerator.State (8 * 2 ^ b)}
    (h : (PrbsPatternGenerator.fromReset (8 * 2 ^ b)).Reachable s) :
    IsLeast {k | 0 < k ∧ iterate (polynomialResetValue (8 * 2 ^ b)) s.pipeline k = s.pipeline}
      (2 ^ (8 * 2 ^ b) - 1) :=
  isLeast_period hb (generator_ne_zero (two_le_word b) h)

theorem isLeast_period_checker {b : ℕ} (hb : 1 ≤ b ∧ b ≤ 4)
    {s : PrbsPatternChecker.State (8 * 2 ^ b)}
    (h : (PrbsPatternChecker.fromReset (8 * 2 ^ b)).Reachable s) :
    IsLeast {k | 0 < k ∧ iterate (polynomialResetValue (8 * 2 ^ b)) s.pipeline k = s.pipeline}
      (2 ^ (8 * 2 ^ b) - 1) :=
  isLeast_period hb (checker_ne_zero (two_le_word b) h)

end AvalonCores.MemoryTester.Prbs
