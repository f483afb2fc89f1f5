import Mathlib.Tactic
import Mathlib.Data.FinEnum
import AvalonCores.Lfsr.Period

/-! Galois linear feedback shift registers that shift to the right.  Bit `w - 1 - i` of the register
is the coefficient of `x ^ i` of a polynomial over GF(2), and a step multiplies it by `x` modulo the
polynomial of the taps.  `mul` is the product modulo that polynomial, with which `power` finds the
content after `n` steps from 1 in as many multiplications as `n` has binary digits. -/

namespace AvalonCores.Lfsr

open Function

variable {w : ℕ} (p : BitVec w)

def step (s : BitVec w) : BitVec w := (s >>> 1) ^^^ (if s.getLsbD 0 then p else 0#w)

/-- The polynomial 1. -/
def one (w : ℕ) : BitVec w := BitVec.twoPow w (w - 1)

/-- The product of `s` and the polynomial of the low `j` bits of `a`, from the coefficient of the
highest power down. -/
def mulLow (a s : BitVec w) : ℕ → BitVec w
  | 0 => 0#w
  | j + 1 => step p (mulLow a s j) ^^^ (if a.getLsbD j then s else 0#w)

def mul (a s : BitVec w) : BitVec w := mulLow p a s w

variable {p}

theorem getLsbD_step (s : BitVec w) (d : ℕ) :
    (step p s).getLsbD d = (s.getLsbD (d + 1) ^^ (s.getLsbD 0 && p.getLsbD d)) := by
  rw [step, BitVec.getLsbD_xor, BitVec.getLsbD_ushiftRight, Nat.add_comm 1 d]
  cases s.getLsbD 0 <;> simp

theorem step_xor (s t : BitVec w) : step p (s ^^^ t) = step p s ^^^ step p t := by
  apply BitVec.eq_of_getLsbD_eq
  intro d _
  simp only [getLsbD_step, BitVec.getLsbD_xor]
  cases s.getLsbD (d + 1) <;> cases t.getLsbD (d + 1) <;> cases s.getLsbD 0 <;>
    cases t.getLsbD 0 <;> simp

@[simp] theorem step_zero : step p 0#w = 0#w := by simp [step]

theorem mulLow_step (a s : BitVec w) (j : ℕ) :
    mulLow p a (step p s) j = step p (mulLow p a s j) := by
  induction j with
  | zero => simp [mulLow]
  | succ j ih =>
    simp only [mulLow, ih, step_xor]
    congr 1
    split <;> simp

theorem mul_iterate_step (a s : BitVec w) (n : ℕ) :
    mul p a ((step p)^[n] s) = (step p)^[n] (mul p a s) := by
  induction n with
  | zero => rfl
  | succ n ih => rw [iterate_succ_apply', iterate_succ_apply', mul, mulLow_step, ← mul, ih]

theorem mulLow_one (a : BitVec w) {j : ℕ} (hj : j ≤ w) : mulLow p a (one w) j = a <<< (w - j) := by
  induction j with
  | zero => simp [mulLow]
  | succ j ih =>
    apply BitVec.eq_of_getLsbD_eq
    intro d hd
    rw [mulLow, ih (by omega), BitVec.getLsbD_xor, getLsbD_step]
    simp only [BitVec.getLsbD_shiftLeft]
    have hlow : j < w := by omega
    rcases Nat.eq_or_lt_of_le (show d ≤ w - 1 by omega) with rfl | hlt
    · have hbit : (if a.getLsbD j then one w else 0#w).getLsbD (w - 1) = a.getLsbD j := by
        cases a.getLsbD j <;> simp [one, hd]
      have hout : ¬ w - 1 + 1 < w := by omega
      have hin : ¬ w - 1 < w - (j + 1) := by omega
      rw [hbit, show w - 1 - (w - (j + 1)) = j by omega]
      simp [hlow, hout, hin, hd]
    · have hbit : (if a.getLsbD j then one w else 0#w).getLsbD d = false := by
        cases a.getLsbD j
        · simp
        · have : w - 1 ≠ d := by omega
          simp [one, BitVec.getLsbD_twoPow, this]
      have hiff : decide (d + 1 < w - j) = decide (d < w - (j + 1)) := by
        rw [decide_eq_decide]
        omega
      have hin : d + 1 < w := by omega
      rw [hbit, hiff, show d + 1 - (w - j) = d - (w - (j + 1)) by omega]
      simp [hlow, hin, hd]

/-- The polynomial 1 is neutral. -/
theorem mul_one (a : BitVec w) : mul p a (one w) = a := by
  rw [mul, mulLow_one a le_rfl, Nat.sub_self, BitVec.shiftLeft_zero]

/-- The product of two powers of `x` is the power with the sum of their exponents. -/
theorem mul_iterate_one (m n : ℕ) :
    mul p ((step p)^[m] (one w)) ((step p)^[n] (one w)) = (step p)^[m + n] (one w) := by
  rw [mul_iterate_step, mul_one, Nat.add_comm, iterate_add_apply]

/-! ### Evaluation

The definitions on natural numbers use the functions that the kernel evaluates on literals, and
`force` has it evaluate an argument before it goes on. -/

def force {β : Type*} (n : ℕ) (f : ℕ → β) : β := Nat.rec (f 0) (fun n _ => f n.succ) n

@[simp] theorem force_eq {β : Type*} (n : ℕ) (f : ℕ → β) : force n f = f n := by cases n <;> rfl

def stepNat (p s : ℕ) : ℕ := Nat.xor (Nat.div s 2) (Nat.mul (Nat.mod s 2) p)

def mulNat (p a s : ℕ) (j : ℕ) : ℕ :=
  Nat.rec 0 (fun j r => force r fun r =>
    Nat.xor (stepNat p r) (Nat.mul (Nat.mod (Nat.shiftRight a j) 2) s)) j

/-- The content of a register of `w` bits after `n` steps from 1, for an `n` of `k` digits. -/
def power (w p : ℕ) : ℕ → ℕ → ℕ
  | 0, _ => 2 ^ (w - 1)
  | k + 1, n => force (power w p k (n / 2)) fun r => force (mulNat p r r w) fun r =>
      Nat.rec r (fun _ _ => stepNat p r) (n % 2)

theorem toNat_ite (s : BitVec w) (d : ℕ) (x : BitVec w) :
    (if s.getLsbD d then x else 0#w).toNat =
      Nat.mul (Nat.mod (Nat.shiftRight s.toNat d) 2) x.toNat := by
  have hbit : s.getLsbD d = decide (s.toNat >>> d % 2 = 1) := by
    rw [← BitVec.testBit_toNat, Nat.testBit_eq_decide_div_mod_eq, Nat.shiftRight_eq_div_pow]
  change _ = s.toNat >>> d % 2 * x.toNat
  rcases Nat.mod_two_eq_zero_or_one (s.toNat >>> d) with h | h <;> simp [hbit, h]

theorem toNat_step (s : BitVec w) : (step p s).toNat = stepNat p.toNat s.toNat := by
  rw [step, BitVec.toNat_xor, BitVec.toNat_ushiftRight, toNat_ite, Nat.shiftRight_one]
  rfl

theorem toNat_mulLow (a s : BitVec w) (j : ℕ) :
    (mulLow p a s j).toNat = mulNat p.toNat a.toNat s.toNat j := by
  induction j with
  | zero => rfl
  | succ j ih =>
    rw [mulLow, BitVec.toNat_xor, toNat_step, toNat_ite, ih]
    simp only [mulNat, force_eq]
    rfl

theorem power_eq (hw : 0 < w) (k n : ℕ) (hn : n < 2 ^ k) :
    power w p.toNat k n = ((step p)^[n] (one w)).toNat := by
  induction k generalizing n with
  | zero =>
    obtain rfl : n = 0 := by simpa using hn
    simp only [power, iterate_zero, id_eq, one, BitVec.toNat_twoPow]
    exact (Nat.mod_eq_of_lt (Nat.pow_lt_pow_right (by omega) (by omega))).symm
  | succ k ih =>
    have hhalf : n / 2 < 2 ^ k := by
      rw [pow_succ] at hn
      omega
    have hsquare := congrArg BitVec.toNat (mul_iterate_one (p := p) (n / 2) (n / 2))
    rw [mul, toNat_mulLow] at hsquare
    simp only [power, force_eq, ih _ hhalf, hsquare]
    rcases Nat.mod_two_eq_zero_or_one n with h | h
    · rw [h, show n / 2 + n / 2 = n by omega]
      rfl
    · have hn2 : n = n / 2 + n / 2 + 1 := by omega
      conv_rhs => rw [hn2, iterate_succ_apply', toNat_step]
      rw [h]
      rfl

/-- A test that a register has the period `2 ^ w - 1` from 1, and none that divides it by one of the
factors `qs`. -/
def check (w p : ℕ) (qs : List ℕ) : Bool :=
  power w p w (2 ^ w - 1) == 2 ^ (w - 1) &&
    qs.all fun q => power w p w ((2 ^ w - 1) / q) != 2 ^ (w - 1)

/-- A register that passes the test for the prime factors of `2 ^ w - 1` goes through all contents
but 0. -/
theorem isLeast_of_check {qs : List ℕ} (hw : 0 < w) (hprod : qs.prod = 2 ^ w - 1)
    (hprime : ∀ q ∈ qs, q.Prime) (hcheck : check w p.toNat qs = true) {s : BitVec w}
    (hs : s ≠ 0#w) : IsLeast {k | 0 < k ∧ (step p)^[k] s = s} (2 ^ w - 1) := by
  have hone : (one w).toNat = 2 ^ (w - 1) := by
    rw [one, BitVec.toNat_twoPow]
    exact Nat.mod_eq_of_lt (Nat.pow_lt_pow_right (by omega) (by omega))
  have hpos : 0 < 2 ^ w := Nat.two_pow_pos w
  have hiterate (n : ℕ) (hn : n < 2 ^ w) :
      (step p)^[n] (one w) = one w ↔ power w p.toNat w n = 2 ^ (w - 1) := by
    rw [power_eq hw w n hn, ← BitVec.toNat_inj, hone]
  have hperiod : minimalPeriod (step p) (one w) = 2 ^ w - 1 := by
    simp only [check, Bool.and_eq_true, beq_iff_eq, List.all_eq_true, bne_iff_ne] at hcheck
    refine minimalPeriod_eq_of_prime_factors hprod hprime ((hiterate _ (by omega)).mpr hcheck.1) ?_
    intro q hq
    have hle : (2 ^ w - 1) / q ≤ 2 ^ w - 1 := Nat.div_le_self _ _
    rw [ne_eq, hiterate _ (by omega)]
    exact hcheck.2 q hq
  have hne : one w ≠ 0#w := by
    intro h
    rw [← BitVec.toNat_inj, hone] at h
    simp at h
  have hcard : Fintype.card (BitVec w) - 1 = 2 ^ w - 1 := by
    rw [← FinEnum.card_eq_fintypeCard, FinEnum.card_bitVec]
  have hcycle := minimalPeriod_eq_of_cycle step_zero hne (by rw [hperiod, hcard]) hs
  rw [hcard] at hcycle
  have htwo : 2 ^ 1 ≤ 2 ^ w := Nat.pow_le_pow_right (by omega) hw
  rw [← hcycle]
  exact isLeast_minimalPeriod (by omega)

end AvalonCores.Lfsr
