import Mathlib.Tactic
import AvalonCores.Sync.Execution

/-! A run bit that a counter ends.  The counter counts the words that are taken, and the run bit is
cleared in a cycle in which the counter reads 0, which it does one cycle after the last word. -/

namespace AvalonCores.Sync

/-- An event that has happened more than `k` times has happened when it had done so `k` times. -/
theorem exists_count_eq {p : ℕ → Prop} [DecidablePred p] {k t : ℕ} (h : k < Nat.count p t) :
    ∃ u < t, p u ∧ Nat.count p u = k := by
  induction t with
  | zero => simp at h
  | succ t ih =>
    rcases Nat.lt_or_ge k (Nat.count p t) with hk | hk
    · obtain ⟨u, hu, hp⟩ := ih hk
      exact ⟨u, by omega, hp⟩
    · rw [Nat.count_succ] at h
      split at h
      · exact ⟨t, Nat.lt_succ_self t, ‹p t›, by omega⟩
      · omega

/-- The run bit `start` and the counter, which a word taken lowers by `k`.  A word is taken in each
cycle of the run in which `valid` holds. -/
structure Countdown {w : ℕ} (k : ℕ) (start : ℕ → Bool) (counter : ℕ → BitVec w)
    (valid : ℕ → Bool) : Prop where
  start_succ : ∀ t, start (t + 1) = (start t && counter t != 0#w)
  counter_succ : ∀ t, counter (t + 1) =
    if start t && valid t then counter t - BitVec.ofNat w k else counter t

/-- Cycle `t` is the `n`-th valid cycle. -/
def IsNth (valid : ℕ → Bool) (n t : ℕ) : Prop :=
  valid t = true ∧ Nat.count (valid · = true) t + 1 = n

namespace Countdown

variable {w k n : ℕ} {start valid : ℕ → Bool} {counter : ℕ → BitVec w}

/-- A counter that shows what is left of a payload does not read 0 before its end. -/
theorem left_ne_zero (hfit : n * k < 2 ^ w) (hk : 0 < k) {j : ℕ} (hj : j < n) :
    BitVec.ofNat w ((n - j) * k) ≠ 0#w := by
  intro hzero
  have hpos : 0 < (n - j) * k := Nat.mul_pos (by omega) hk
  have hle : (n - j) * k ≤ n * k := Nat.mul_le_mul_right _ (Nat.sub_le _ _)
  rw [← BitVec.toNat_inj, BitVec.toNat_ofNat, Nat.mod_eq_of_lt (by omega), BitVec.toNat_zero]
    at hzero
  omega

/-- Until the `n`-th valid cycle, the run goes on and the counter shows what is left. -/
theorem running (h : Countdown k start counter valid) (h0 : start 0 = true)
    (hcounter : (counter 0).toNat = n * k) (hk : 0 < k) (t : ℕ)
    (ht : Nat.count (valid · = true) t < n) :
    start t = true ∧ counter t = BitVec.ofNat w ((n - Nat.count (valid · = true) t) * k) := by
  induction t with
  | zero => exact ⟨h0, by simp [← hcounter]⟩
  | succ t ih =>
    have hle : Nat.count (valid · = true) t ≤ Nat.count (valid · = true) (t + 1) :=
      Nat.count_monotone _ (Nat.le_succ t)
    obtain ⟨hs, hc⟩ := ih (by omega)
    have hne : counter t ≠ 0#w := by
      rw [hc]
      exact left_ne_zero (hcounter ▸ (counter 0).isLt) hk (by omega)
    refine ⟨by simp [h.start_succ, hs, hne], ?_⟩
    rw [Nat.count_succ] at ht
    rw [h.counter_succ, hs, hc, Nat.count_succ]
    cases hv : valid t with
    | false => simp
    | true =>
      rw [hv, if_pos rfl] at ht
      have hsplit : (n - Nat.count (valid · = true) t) * k =
          (n - (Nat.count (valid · = true) t + 1)) * k + k := by
        rw [← Nat.succ_mul, Nat.succ_eq_add_one]
        congr 1
        omega
      simp only [Bool.and_self, if_true, hsplit, BitVec.ofNat_add]
      exact BitVec.add_sub_cancel _ _

/-- The words taken before cycle `t`. -/
def taken (start valid : ℕ → Bool) (t : ℕ) : ℕ :=
  Nat.count (fun t => (start t && valid t) = true) t

theorem taken_succ (start valid : ℕ → Bool) (t : ℕ) :
    taken start valid (t + 1) = taken start valid t + (start t && valid t).toNat :=
  count_add_toNat _ t

theorem taken_eq_count {t : ℕ} (h : ∀ u < t, start u = true) :
    taken start valid t = Nat.count (valid · = true) t := by
  induction t with
  | zero => simp [taken]
  | succ t ih =>
    rw [taken_succ, ih fun u hu => h u (by omega), h t (Nat.lt_succ_self t), Bool.true_and,
      count_add_toNat]

/-- In the cycle after the `n`-th valid one, the run bit is still set: a word that is valid then is
taken too. -/
structure Ends (k n : ℕ) (start valid : ℕ → Bool) (counter : ℕ → BitVec w) (t : ℕ) : Prop where
  runs : start (t + 1) = true
  stops : ∀ d, start (t + 2 + d) = false
  takes : taken start valid (t + 2) = n + (valid (t + 1)).toNat
  leaves : counter (t + 2) = if valid (t + 1) then 0#w - BitVec.ofNat w k else 0#w

theorem Ends.taken_eq {t : ℕ} (h : Ends k n start valid counter t)
    (hv : valid (t + 1) = false) : taken start valid (t + 2) = n := by
  rw [h.takes, hv, Bool.toNat_false, Nat.add_zero]

theorem ends (h : Countdown k start counter valid) (h0 : start 0 = true)
    (hcounter : (counter 0).toNat = n * k) (hk : 0 < k) {t : ℕ} (ht : IsNth valid n t) :
    Ends k n start valid counter t := by
  obtain ⟨hvalid, hcount⟩ := ht
  have hrun (u : ℕ) (hu : u ≤ t) : start u = true := by
    have := Nat.count_monotone (valid · = true) hu
    exact (h.running h0 hcounter hk u (by omega)).1
  obtain ⟨hs, hc⟩ := h.running h0 hcounter hk t (by omega)
  have hne : counter t ≠ 0#w := by
    rw [hc]
    exact left_ne_zero (hcounter ▸ (counter 0).isLt) hk (by omega)
  rw [show n - Nat.count (valid · = true) t = 1 by omega, Nat.one_mul] at hc
  have hstart : start (t + 1) = true := by simp [h.start_succ, hs, hne]
  have hlast : counter (t + 1) = 0#w := by
    rw [h.counter_succ, hs, hvalid, hc]
    simp
  constructor
  case runs => exact hstart
  case stops =>
    intro d
    induction d with
    | zero => simp [h.start_succ (t + 1), hlast]
    | succ d ih => rw [← Nat.add_assoc, h.start_succ, ih, Bool.false_and]
  case takes =>
    have htaken : taken start valid (t + 1) = n := by
      rw [taken_eq_count fun u hu => hrun u (by omega), Nat.count_succ, if_pos hvalid]
      exact hcount
    rw [taken_succ, htaken, hstart, Bool.true_and]
  case leaves => rw [h.counter_succ, hstart, hlast, Bool.true_and]

/-- The run bit falls after the `n`-th valid cycle, one cycle late. -/
theorem falls_iff (h : Countdown k start counter valid) (h0 : start 0 = true)
    (hcounter : (counter 0).toNat = n * k) (hk : 0 < k) (hn : 0 < n) (t : ℕ) :
    start t = true ∧ start (t + 1) = false ↔ ∃ u, t = u + 1 ∧ IsNth valid n u := by
  constructor
  · rintro ⟨hs, hfall⟩
    have hge : n ≤ Nat.count (valid · = true) t := by
      by_contra hlt
      obtain ⟨-, hc⟩ := h.running h0 hcounter hk t (by omega)
      rw [h.start_succ, hs, Bool.true_and, bne_eq_false_iff_eq, hc] at hfall
      exact left_ne_zero (hcounter ▸ (counter 0).isLt) hk (by omega) hfall
    obtain ⟨u, hu, hvalid, hcount⟩ :=
      exists_count_eq (p := (valid · = true)) (k := n - 1) (t := t) (by omega)
    have hends := h.ends h0 hcounter hk (n := n) ⟨hvalid, by omega⟩
    refine ⟨u, ?_, hvalid, by omega⟩
    by_contra hne
    obtain ⟨d, rfl⟩ := Nat.exists_eq_add_of_le (show u + 2 ≤ t by omega)
    rw [hends.stops d] at hs
    contradiction
  · rintro ⟨u, rfl, hu⟩
    have hends := h.ends h0 hcounter hk hu
    exact ⟨hends.runs, hends.stops 0⟩

/-- A run takes exactly `n` words if and only if no word is valid in the cycle after the `n`-th. -/
theorem exact_iff (h : Countdown k start counter valid) (h0 : start 0 = true)
    (hcounter : (counter 0).toNat = n * k) (hk : 0 < k) (hn : 0 < n) {P : ℕ → Prop} :
    (∀ t, start t = true → start (t + 1) = false →
        taken start valid (t + 1) = n ∧ counter (t + 1) = 0#w ∧ P (t + 1)) ↔
      ∀ u, IsNth valid n u → valid (u + 1) = false ∧ P (u + 2) := by
  have hfalls := h.falls_iff h0 hcounter hk hn
  constructor
  · intro hall u hu
    obtain ⟨hs, hfall⟩ := (hfalls (u + 1)).mpr ⟨u, rfl, hu⟩
    obtain ⟨htaken, -, hP⟩ := hall (u + 1) hs hfall
    rw [(h.ends h0 hcounter hk hu).takes] at htaken
    refine ⟨?_, hP⟩
    cases hv : valid (u + 1) with
    | false => rfl
    | true =>
      rw [hv, Bool.toNat_true] at htaken
      omega
  · intro hall t hs hfall
    obtain ⟨u, rfl, hu⟩ := (hfalls t).mp ⟨hs, hfall⟩
    obtain ⟨hv, hP⟩ := hall u hu
    have hends := h.ends h0 hcounter hk hu
    refine ⟨?_, ?_, hP⟩
    · exact hends.taken_eq hv
    · rw [hends.leaves, hv, if_neg Bool.false_ne_true]

end Countdown

end AvalonCores.Sync
