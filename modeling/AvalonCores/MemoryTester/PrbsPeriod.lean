import Mathlib.Tactic
import Mathlib.NumberTheory.LucasPrimality
import AvalonCores.Lfsr.GaloisRegister
import AvalonCores.MemoryTester.PrbsPipeline

/-! The period of the PRBS sequences with the default polynomials.  The shift register of the PRBS
cores is a Galois register when the highest bit of the polynomial is set.  The four default
polynomials pass its test for the prime factors of `2 ^ w - 1`. -/

namespace AvalonCores.MemoryTester.Prbs

/-- The highest bit, which the shift register loads from bit 0 without a tap, is a tap on 0. -/
theorem pipelineInput_eq_step_of_taps {w : ℕ} {polynomial : BitVec 128} {p : BitVec w}
    (htop : p.getLsbD (w - 1) = true)
    (hlow : ∀ d, d + 1 < w → p.getLsbD d = polynomial.getLsbD d) (s : BitVec w) :
    pipelineInput polynomial s = Lfsr.step p s := by
  apply BitVec.eq_of_getLsbD_eq
  intro d hd
  rw [getLsbD_pipelineInput polynomial s hd, Lfsr.getLsbD_step]
  split
  case isTrue h => rw [hlow d h]
  case isFalse h =>
    obtain rfl : d = w - 1 := by omega
    rw [show w - 1 + 1 = w by omega, BitVec.getLsbD_of_ge s w le_rfl, htop, Bool.and_true,
      Bool.false_xor]

theorem pipelineInput_eq_step {w : ℕ} {polynomial : BitVec 128}
    (htop : polynomial.getLsbD (w - 1) = true) (s : BitVec w) :
    pipelineInput polynomial s = Lfsr.step (polynomial.setWidth w) s := by
  rcases Nat.eq_zero_or_pos w with rfl | hw
  · exact Subsingleton.elim _ _
  · refine pipelineInput_eq_step_of_taps ?_ ?_ s
    · rw [BitVec.getLsbD_setWidth, htop, decide_eq_true (by omega), Bool.and_true]
    · intro d hd
      rw [BitVec.getLsbD_setWidth, decide_eq_true (by omega), Bool.true_and]

theorem isLeast_iterate {w : ℕ} {polynomial : BitVec 128} {qs : List ℕ} (hw : 0 < w)
    (htop : polynomial.getLsbD (w - 1) = true) (hprod : qs.prod = 2 ^ w - 1)
    (hprime : ∀ q ∈ qs, q.Prime)
    (hcheck : Lfsr.check w (polynomial.setWidth w).toNat qs = true) {s : BitVec w}
    (hs : s ≠ 0#w) : IsLeast {k | 0 < k ∧ iterate polynomial s k = s} (2 ^ w - 1) := by
  have hstep : pipelineInput polynomial = Lfsr.step (polynomial.setWidth w) :=
    funext (pipelineInput_eq_step htop)
  simp only [iterate, hstep]
  exact Lfsr.isLeast_of_check hw hprod hprime hcheck hs

/-- A prime factor of `2 ^ 64 + 1`, by the test of Lucas. -/
theorem prime_factor_fermat6 : Nat.Prime 67280421310721 := by
  refine lucas_primality _ 3 ?_ fun q hq hdvd => ?_
  · norm_num
    reduce_mod_char
  · have hmem : q ∈ List.replicate 8 2 ++ [5, 47, 373, 2998279] := by
      refine mem_list_primes_of_dvd_prod hq.prime (fun r hr => Nat.Prime.prime ?_) ?_
      · simp only [List.mem_append, List.mem_replicate, List.mem_cons, List.not_mem_nil,
          or_false] at hr
        rcases hr with ⟨-, rfl⟩ | rfl | rfl | rfl | rfl <;> norm_num
      · norm_num at hdvd ⊢
        exact hdvd
    simp only [List.mem_append, List.mem_replicate, List.mem_cons, List.not_mem_nil,
      or_false] at hmem
    rcases hmem with ⟨-, rfl⟩ | rfl | rfl | rfl | rfl
    all_goals
      norm_num
      reduce_mod_char
      decide

/-- The prime factors of `2 ^ w - 1` for the `w` bits of a word. -/
def primeFactors (b : ℕ) : List ℕ :=
  match b with
  | 1 => [3, 5, 17, 257]
  | 2 => [3, 5, 17, 257, 65537]
  | 3 => [3, 5, 17, 257, 641, 65537, 6700417]
  | _ => [3, 5, 17, 257, 641, 65537, 274177, 6700417, 67280421310721]

theorem prime_of_mem_primeFactors {b q : ℕ} (hq : q ∈ primeFactors b) : q.Prime := by
  have hmem : q ∈ primeFactors 4 := by
    unfold primeFactors at hq
    split at hq <;> simp only [primeFactors, List.mem_cons, List.not_mem_nil, or_false] at hq ⊢ <;>
      tauto
  simp only [primeFactors, List.mem_cons, List.not_mem_nil, or_false] at hmem
  rcases hmem with rfl | rfl | rfl | rfl | rfl | rfl | rfl | rfl | rfl
  case inr.inr.inr.inr.inr.inr.inr.inr => exact prime_factor_fermat6
  all_goals norm_num

theorem check_16 : Lfsr.check 16 0xB400 (primeFactors 1) = true := by decide +kernel

theorem check_32 : Lfsr.check 32 0xA3000000 (primeFactors 2) = true := by decide +kernel

theorem check_64 : Lfsr.check 64 0xD800000000000000 (primeFactors 3) = true := by decide +kernel

theorem check_128 :
    Lfsr.check 128 0xE1000000000000000000000000000000 (primeFactors 4) = true := by
  decide +kernel

/-- With the default polynomial of its width, the shift register comes back to any content but 0
after `2 ^ w - 1` steps and not before. -/
theorem isLeast_period {b : ℕ} (hb : 1 ≤ b ∧ b ≤ 4) {s : Word b} (hs : s ≠ 0#_) :
    IsLeast {k | 0 < k ∧ iterate (polynomialResetValue (8 * 2 ^ b)) s k = s}
      (2 ^ (8 * 2 ^ b) - 1) := by
  have hpos : 0 < 8 * 2 ^ b := by positivity
  obtain ⟨h1, h4⟩ := hb
  refine isLeast_iterate hpos ?_ ?_ (fun q => prime_of_mem_primeFactors (b := b)) ?_ hs
  · interval_cases b <;> decide
  · interval_cases b <;> decide
  · interval_cases b
    · exact check_16
    · exact check_32
    · exact check_64
    · exact check_128

theorem isLeast_period_seed :
    IsLeast {k | 0 < k ∧ iterate (polynomialResetValue 128) (seedValue 128) k = seedValue 128}
      (2 ^ 128 - 1) :=
  isLeast_period (b := 4) ⟨by decide, le_rfl⟩ (by decide)

end AvalonCores.MemoryTester.Prbs
