import Mathlib.Tactic
import AvalonCores.Sync.Execution
import AvalonCores.Sync.ShowAhead

/-! A show-ahead FIFO in a run: what has entered is what has left, and what is still in it. -/

namespace AvalonCores.Sync.ShowAhead

variable {α : Type*} {q : ℕ → List α} {pop push : ℕ → Bool} {x idle : ℕ → α}

theorem conservation (hempty : q 0 = []) (hpop : ∀ t, pop t = true → q t ≠ [])
    (hnext : ∀ t, q (t + 1) = next (q t) (pop t) (push t) (x t)) (t : ℕ) :
    collected push x t = collected pop (fun t => front (q t) (idle t)) t ++ q t := by
  induction t with
  | zero => simp [collected, hempty]
  | succ t ih =>
    rw [collected_succ, collected_succ, hnext, ih]
    exact (next_history rfl (hpop t) (push t) (x t) (idle t)).symm

end AvalonCores.Sync.ShowAhead
