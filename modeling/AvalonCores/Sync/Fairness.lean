import Mathlib.Tactic
import Mathlib.Order.Filter.AtTopBot.Basic

/-! What a run without an end does again and again, and what holds in it from some cycle on.  An
event that is fair happens again and again unless it is disabled again and again; a variant bounds
how often it can make progress. -/

namespace AvalonCores.Sync

open Filter

variable {f : ℕ → ℕ} {p : ℕ → Prop}

/-- A variant that does not go up from some cycle on stays where it is in the end. -/
theorem eventually_eq_of_le (h : ∀ᶠ n in atTop, f (n + 1) ≤ f n) :
    ∀ᶠ n in atTop, f (n + 1) = f n := by
  obtain ⟨N, hN⟩ := eventually_atTop.mp h
  have hanti : Antitone fun k => f (N + k) := antitone_nat_of_succ_le fun k => hN (N + k) (by omega)
  obtain ⟨K, hK⟩ := WellFoundedGT.monotone_chain_condition (α := ℕᵒᵈ) ⟨fun k => f (N + k), hanti⟩
  refine eventually_atTop.mpr ⟨N + K, fun n hn => ?_⟩
  obtain ⟨k, rfl⟩ := Nat.exists_eq_add_of_le hn
  have hnow : f (N + K) = f (N + (K + k)) := hK (K + k) (by omega)
  have hnext : f (N + K) = f (N + (K + k + 1)) := hK (K + k + 1) (by omega)
  rw [show N + K + k + 1 = N + (K + k + 1) by omega, show N + K + k = N + (K + k) by omega,
    ← hnow, ← hnext]

/-- Nothing that lowers the variant goes on without an end. -/
theorem eventually_not_of_variant (hle : ∀ᶠ n in atTop, f (n + 1) ≤ f n)
    (hlt : ∀ᶠ n in atTop, p n → f (n + 1) < f n) : ∀ᶠ n in atTop, ¬p n := by
  filter_upwards [eventually_eq_of_le hle, hlt] with n heq hlt hp
  exact (hlt hp).ne heq

theorem eventually_succ (h : ∀ᶠ n in atTop, p n) : ∀ᶠ n in atTop, p (n + 1) :=
  (tendsto_add_atTop_nat 1).eventually h

theorem frequently_of_succ (h : ∃ᶠ n in atTop, p (n + 1)) : ∃ᶠ n in atTop, p n :=
  fun hnot => h (eventually_succ hnot)

/-- What happens again and again and then stays holds from some cycle on. -/
theorem eventually_of_stable (hstep : ∀ᶠ n in atTop, p n → p (n + 1))
    (h : ∃ᶠ n in atTop, p n) : ∀ᶠ n in atTop, p n := by
  obtain ⟨N, hN⟩ := eventually_atTop.mp hstep
  obtain ⟨m, hm, hp⟩ := frequently_atTop.mp h N
  refine eventually_atTop.mpr ⟨m, fun n hn => ?_⟩
  induction n, hn using Nat.le_induction with
  | base => exact hp
  | succ n hn ih => exact hN n (hm.trans hn) ih

end AvalonCores.Sync
