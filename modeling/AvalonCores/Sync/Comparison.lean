import Mathlib.Tactic

/-! Answers compared with expected values, position by position: the verdicts grow with the answers,
and do not change when more values are expected than have been answered. -/

namespace AvalonCores.Sync

variable {α β : Type*} [DecidableEq α] [DecidableEq β]

/-- For each answer, whether it is the value expected at its position. -/
def comparison (answers expected : List α) : List Bool :=
  List.zipWith (fun x y => decide (x = y)) answers expected

variable {answers expected : List α}

theorem comparison_length (h : answers.length ≤ expected.length) :
    (comparison answers expected).length = answers.length := by
  rw [comparison, List.length_zipWith, Nat.min_eq_left h]

theorem comparison_append (h : answers.length ≤ expected.length) (more : List α) :
    comparison answers (expected ++ more) = comparison answers expected := by
  induction answers generalizing expected with
  | nil => rfl
  | cons x answers ih =>
    cases expected with
    | nil => simp at h
    | cons y expected =>
      simp only [List.length_cons, Nat.add_le_add_iff_right] at h
      exact congrArg (_ :: ·) (ih h)

theorem comparison_concat {y : α} (h : expected[answers.length]? = some y) (x : α) :
    comparison (answers ++ [x]) expected = comparison answers expected ++ [decide (x = y)] := by
  induction answers generalizing expected with
  | nil =>
    cases expected with
    | nil => simp at h
    | cons z expected =>
      obtain rfl : z = y := by simpa using h
      rfl
  | cons z answers ih =>
    cases expected with
    | nil => simp at h
    | cons w expected => exact congrArg (_ :: ·) (ih (by simpa using h))

theorem comparison_map {f : α → β} (hf : f.Injective) (answers expected : List α) :
    comparison (answers.map f) (expected.map f) = comparison answers expected := by
  simp only [comparison, List.zipWith_map, hf.eq_iff]

theorem comparison_getElem? (k : ℕ) {x y : α} (hx : answers[k]? = some x)
    (hy : expected[k]? = some y) : (comparison answers expected)[k]? = some (decide (x = y)) := by
  rw [comparison, List.getElem?_zipWith, hx, hy]

end AvalonCores.Sync
