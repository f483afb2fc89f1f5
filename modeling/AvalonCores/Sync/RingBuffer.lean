import Mathlib.Tactic

/-! A queue in a circular memory: `Holds d mem head q` says that the `d` cells of `mem`, read from
`head` on and around, hold the words of `q`, oldest first. -/

namespace AvalonCores.Sync.RingBuffer

variable {α : Type*}

/-- The cell `i` places past `head` in a ring of `d` cells. -/
def slot (d head i : ℕ) : ℕ := (head + i) % d

theorem slot_eq {d head i : ℕ} (hh : head < d) (hi : i ≤ d) :
    slot d head i = if head + i < d then head + i else head + i - d := by
  unfold slot
  split
  · exact Nat.mod_eq_of_lt ‹_›
  · rw [Nat.mod_eq_sub_mod (by omega), Nat.mod_eq_of_lt (by omega)]

theorem slot_lt {d head i : ℕ} (hd : 0 < d) : slot d head i < d := Nat.mod_lt _ hd

@[simp] theorem slot_zero {d head : ℕ} (hh : head < d) : slot d head 0 = head :=
  Nat.mod_eq_of_lt hh

theorem slot_inj {d head i j : ℕ} (hh : head < d) (hi : i < d) (hj : j < d)
    (h : slot d head i = slot d head j) : i = j := by
  rw [slot_eq hh (by omega), slot_eq hh (by omega)] at h
  split_ifs at h <;> omega

theorem slot_advance {d head i : ℕ} (hh : head < d) (hi : i < d) :
    slot d (slot d head 1) i = slot d head (i + 1) := by
  have h1 : slot d head 1 < d := slot_lt (by omega)
  rw [slot_eq h1 (by omega), slot_eq hh (by omega), slot_eq hh (by omega)]
  split_ifs <;> omega

/-- The memory `mem` with head `head` holds the words `q`. -/
structure Holds (d : ℕ) (mem : ℕ → α) (head : ℕ) (q : List α) : Prop where
  head_lt : head < d
  length_le : q.length ≤ d
  cell : ∀ i (hi : i < q.length), mem (slot d head i) = q[i]

namespace Holds

variable {d head : ℕ} {mem : ℕ → α} {q : List α} {x : α}

theorem nil (hh : head < d) : Holds d mem head [] := ⟨hh, by simp, by simp⟩

theorem get_head (h : Holds d mem head q) (hq : q ≠ []) : mem head = q.head hq := by
  have hlen : 0 < q.length := List.length_pos_iff.mpr hq
  rw [List.head_eq_getElem, ← h.cell 0 hlen, slot_zero h.head_lt]

/-- A word written past the last one joins the queue at its end. -/
theorem push (h : Holds d mem head q) (room : q.length < d) (x : α) :
    Holds d (Function.update mem (slot d head q.length) x) head (q ++ [x]) := by
  refine ⟨h.head_lt, by simp; omega, fun i hi => ?_⟩
  by_cases hlast : i = q.length
  · subst hlast
    simp
  · have hi' : i < q.length := by simp at hi; omega
    have hne : slot d head i ≠ slot d head q.length := fun he =>
      hlast (slot_inj h.head_lt (by omega) room he)
    rw [Function.update_of_ne hne, List.getElem_append_left hi', h.cell i hi']

/-- Moving the head forward drops the oldest word. -/
theorem pop (h : Holds d mem head (x :: q)) : Holds d mem (slot d head 1) q := by
  have hlen := h.length_le
  simp only [List.length_cons] at hlen
  refine ⟨slot_lt (by omega), by omega, fun i hi => ?_⟩
  rw [slot_advance h.head_lt (by omega), h.cell (i + 1) (by simpa using hi)]
  simp

/-- Writing past the last word while the head moves forward exchanges the oldest word for a new
one.  On a full ring the new word takes the oldest one's cell. -/
theorem exchange (h : Holds d mem head (x :: q)) (y : α) :
    Holds d (Function.update mem (slot d head (q.length + 1)) y) (slot d head 1) (q ++ [y]) := by
  have hlen := h.length_le
  simp only [List.length_cons] at hlen
  have hp := h.pop
  have hroom : q.length < d := by omega
  have := hp.push hroom y
  rwa [slot_advance h.head_lt hroom] at this

end Holds

end AvalonCores.Sync.RingBuffer
