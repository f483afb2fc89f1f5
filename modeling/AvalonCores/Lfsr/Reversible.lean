import Mathlib.Tactic
import AvalonCores.Lfsr.GaloisRegister

/-! The step of a Galois register whose highest bit is a tap has an inverse: the highest bit of the
next content is the lowest bit of the last one, which tells whether the taps have been added. -/

namespace AvalonCores.Lfsr

variable {w : ℕ} {p : BitVec w}

/-- The content of which `s` is the next one. -/
def back (p s : BitVec w) : BitVec w :=
  if s.getLsbD (w - 1) then (s ^^^ p) <<< 1 ||| 1#w else s <<< 1

theorem getLsbD_back (p s : BitVec w) {d : ℕ} (hd : d < w) :
    (back p s).getLsbD d = if d = 0 then s.getLsbD (w - 1)
      else s.getLsbD (d - 1) ^^ (s.getLsbD (w - 1) && p.getLsbD (d - 1)) := by
  unfold back
  cases d with
  | zero => cases s.getLsbD (w - 1) <;> simp [hd]
  | succ d =>
    have hpos : ¬ d + 1 < 1 := by omega
    have hone : (1#w).getLsbD (d + 1) = false := by simp
    cases s.getLsbD (w - 1) <;>
      simp only [Bool.false_eq_true, if_false, if_true, BitVec.getLsbD_or, BitVec.getLsbD_shiftLeft,
        BitVec.getLsbD_xor, hone, hd, hpos, decide_true, decide_false, Bool.not_false,
        Bool.true_and, Bool.or_false, Nat.add_sub_cancel, Nat.succ_ne_zero, Bool.false_and,
        Bool.xor_false]

theorem back_step (htop : p.getLsbD (w - 1) = true) (s : BitVec w) : back p (step p s) = s := by
  apply BitVec.eq_of_getLsbD_eq
  intro d hd
  have hlow : (step p s).getLsbD (w - 1) = s.getLsbD 0 := by
    rw [getLsbD_step, htop, Nat.sub_add_cancel (by omega), BitVec.getLsbD_of_ge s w le_rfl,
      Bool.and_true, Bool.false_xor]
  rw [getLsbD_back p _ hd, hlow]
  cases d with
  | zero => rw [if_pos rfl]
  | succ d =>
    rw [if_neg (Nat.succ_ne_zero d), Nat.add_sub_cancel, getLsbD_step, Bool.xor_assoc,
      Bool.xor_self, Bool.xor_false]

theorem step_back (htop : p.getLsbD (w - 1) = true) (s : BitVec w) : step p (back p s) = s := by
  apply BitVec.eq_of_getLsbD_eq
  intro d hd
  have hlow : (back p s).getLsbD 0 = s.getLsbD (w - 1) := by
    rw [getLsbD_back p s (by omega), if_pos rfl]
  rw [getLsbD_step, hlow]
  by_cases hlast : d + 1 < w
  · rw [getLsbD_back p s hlast, if_neg (Nat.succ_ne_zero d), Nat.add_sub_cancel, Bool.xor_assoc,
      Bool.xor_self, Bool.xor_false]
  · obtain rfl : d = w - 1 := by omega
    rw [BitVec.getLsbD_of_ge _ _ (by omega), htop, Bool.and_true, Bool.false_xor]

end AvalonCores.Lfsr
