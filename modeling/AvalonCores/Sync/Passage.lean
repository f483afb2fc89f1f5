import Mathlib.Tactic

/-! Passages of a deterministic machine: it comes to a state of one kind, and the states on the way
have a property.  `leads_of_variant` is the rule for a loop, whose invariant has a number that each
iteration lowers. -/

namespace AvalonCores.Sync

variable {σ : Type*}

/-- The machine comes from one state to another, and the states before the last one have `P`. -/
inductive Passes (step : σ → σ) (P : σ → Prop) : σ → σ → Prop
  | refl (s : σ) : Passes step P s s
  | step {s s' : σ} : P s → Passes step P (step s) s' → Passes step P s s'

/-- The machine comes from `s` to a state with `Q`. -/
def Leads (step : σ → σ) (P : σ → Prop) (s : σ) (Q : σ → Prop) : Prop :=
  ∃ s', Passes step P s s' ∧ Q s'

variable {step : σ → σ} {P Q R : σ → Prop} {s s' : σ}

namespace Passes

theorem trans {t : σ} (h : Passes step P s t) (h' : Passes step P t s') : Passes step P s s' := by
  induction h with
  | refl => exact h'
  | step hP _ ih => exact .step hP (ih h')

theorem exists_iterate (h : Passes step P s s') : ∃ n, step^[n] s = s' := by
  induction h with
  | refl => exact ⟨0, rfl⟩
  | step _ _ ih =>
    obtain ⟨n, hn⟩ := ih
    exact ⟨n + 1, hn⟩

/-- A machine that stops in the last state has `P` forever. -/
theorem forall_iterate (h : Passes step P s s') (hstop : step s' = s') (hP : P s') (n : ℕ) :
    P (step^[n] s) := by
  induction h generalizing n with
  | refl => rwa [Function.iterate_fixed hstop]
  | step hs _ ih =>
    cases n with
    | zero => exact hs
    | succ n => exact ih hstop hP n

end Passes

theorem leads_of (h : Q s) : Leads step P s Q := ⟨s, .refl s, h⟩

namespace Leads

theorem step_of (hP : P s) (h : Leads step P (step s) Q) : Leads step P s Q := by
  obtain ⟨s', hpass, hQ⟩ := h
  exact ⟨s', .step hP hpass, hQ⟩

theorem bind (h : Leads step P s Q) (hnext : ∀ s', Q s' → Leads step P s' R) :
    Leads step P s R := by
  obtain ⟨t, hpass, hQ⟩ := h
  obtain ⟨s', hpass', hR⟩ := hnext t hQ
  exact ⟨s', hpass.trans hpass', hR⟩

end Leads

/-- A loop whose iterations lower the number of its invariant ends. -/
theorem leads_of_variant {I : ℕ → σ → Prop}
    (hbody : ∀ n s, I n s → Leads step P s fun s' => Q s' ∨ ∃ m < n, I m s') {n : ℕ}
    (hs : I n s) : Leads step P s Q := by
  induction n using Nat.strong_induction_on generalizing s with
  | _ n ih =>
    refine (hbody n s hs).bind fun s' hs' => ?_
    rcases hs' with hQ | ⟨m, hlt, hI⟩
    · exact leads_of hQ
    · exact ih m hlt hI

end AvalonCores.Sync
