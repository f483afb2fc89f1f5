import Mathlib.Tactic
import AvalonCores.Sync.RingBuffer

/-! A queue between the two indices of a circular memory, for one producer and one consumer that
take their steps in any order.  The producer owns the index `tail` and the consumer the index
`head`.  The producer writes words past the tail, which the consumer does not see before the tail
moves over them.  One cell stays free, so that equal indices mean an empty queue. -/

namespace AvalonCores.Sync.RingBuffer

variable {α : Type*} {d head tail : ℕ} {mem : ℕ → α} {q ahead : List α} {x : α}

/-- The number of cells from `head` up to `tail`. -/
def span (d head tail : ℕ) : ℕ := (tail + d - head) % d

/-- The words in the cells from `head` up to `tail`. -/
def words (d : ℕ) (mem : ℕ → α) (head tail : ℕ) : List α :=
  (List.range (span d head tail)).map fun i => mem (slot d head i)

theorem slot_slot {i j : ℕ} : slot d (slot d head i) j = slot d head (i + j) := by
  rw [slot, slot, slot, Nat.mod_add_mod, Nat.add_assoc]

theorem slot_eq_add {i : ℕ} (h : head + i < d) : slot d head i = head + i := Nat.mod_eq_of_lt h

theorem span_slot {n : ℕ} (hh : head < d) (hn : n < d) : span d head (slot d head n) = n := by
  rw [span, slot_eq hh (by omega)]
  split_ifs with h
  · rw [show head + n + d - head = n + d by omega, Nat.add_mod_right, Nat.mod_eq_of_lt hn]
  · rw [show head + n - d + d - head = n by omega, Nat.mod_eq_of_lt hn]

/-- The cells from `head` up to `tail` hold `q`, and those from `tail` on hold the words `ahead`
that the producer has written and not yet given to the consumer. -/
structure Queue (d : ℕ) (mem : ℕ → α) (head tail : ℕ) (q ahead : List α) : Prop where
  holds : Holds d mem head (q ++ ahead)
  room : q.length + ahead.length < d
  tail_eq : tail = slot d head q.length

namespace Queue

theorem nil (hh : head < d) : Queue d mem head head [] [] :=
  ⟨.nil hh, by simp; omega, (slot_zero hh).symm⟩

theorem head_lt (h : Queue d mem head tail q ahead) : head < d := h.holds.head_lt

theorem tail_lt (h : Queue d mem head tail q ahead) : tail < d := by
  rw [h.tail_eq]
  exact slot_lt (by have := h.head_lt; omega)

theorem span_eq (h : Queue d mem head tail q ahead) : span d head tail = q.length := by
  rw [h.tail_eq, span_slot h.head_lt (by have := h.room; omega)]

theorem cell (h : Queue d mem head tail q ahead) {i : ℕ} (hi : i < q.length) :
    mem (slot d head i) = q[i] := by
  rw [h.holds.cell i (by simp; omega), List.getElem_append_left hi]

theorem words_eq (h : Queue d mem head tail q ahead) : words d mem head tail = q := by
  refine List.ext_getElem (by simp [words, h.span_eq]) fun i hi hq => ?_
  simpa [words] using h.cell hq

theorem empty_iff (h : Queue d mem head tail q ahead) : head = tail ↔ q = [] := by
  have hroom := h.room
  rw [h.tail_eq]
  constructor
  · intro heq
    rw [← List.length_eq_zero_iff, ← span_slot h.head_lt (show q.length < d by omega), ← heq,
      span, Nat.add_sub_cancel_left, Nat.mod_self]
  · rintro rfl
    exact (slot_zero h.head_lt).symm

/-- The producer has no free cell left exactly if the next tail is the head. -/
theorem full_iff (h : Queue d mem head tail q ahead) :
    slot d tail 1 = head ↔ q.length + 1 = d := by
  have hroom := h.room
  have hhead := h.head_lt
  rw [h.tail_eq, slot_slot, slot_eq hhead (by omega)]
  split_ifs <;> omega

/-- The producer writes a word past those that it has written ahead. -/
theorem stage (h : Queue d mem head tail q ahead) (room : q.length + ahead.length + 1 < d) (x : α) :
    Queue d (Function.update mem (slot d tail ahead.length) x) head tail q (ahead ++ [x]) := by
  have hcell : slot d tail ahead.length = slot d head (q ++ ahead).length := by
    rw [h.tail_eq, slot_slot, List.length_append]
  refine ⟨?_, by simp; omega, h.tail_eq⟩
  rw [hcell, ← List.append_assoc]
  exact h.holds.push (by simp; omega) x

/-- The tail moves over the words ahead. -/
theorem publish (h : Queue d mem head tail q ahead) :
    Queue d mem head (slot d tail ahead.length) (q ++ ahead) [] := by
  have hroom := h.room
  refine ⟨by simpa using h.holds, by simpa using hroom, ?_⟩
  rw [h.tail_eq, slot_slot, List.length_append]

/-- A producer that keeps no words ahead adds one. -/
theorem push (h : Queue d mem head tail q []) (hfull : slot d tail 1 ≠ head) (x : α) :
    Queue d (Function.update mem tail x) head (slot d tail 1) (q ++ [x]) [] := by
  have hroom := h.room
  have hlt : q.length + 1 < d := by
    have hne := mt h.full_iff.mpr hfull
    simp only [List.length_nil, Nat.add_zero] at hroom
    omega
  have hs := (h.stage hlt x).publish
  simpa [slot_zero h.tail_lt] using hs

/-- The head moves past the oldest word. -/
theorem pop (h : Queue d mem head tail (x :: q) ahead) :
    Queue d mem (slot d head 1) tail q ahead := by
  have hroom := h.room
  have hhead := h.head_lt
  rw [List.length_cons] at hroom
  refine ⟨h.holds.pop, by omega, ?_⟩
  rw [h.tail_eq, slot_slot, List.length_cons, Nat.add_comm]

/-- The head moves past several words at once. -/
theorem drop (h : Queue d mem head tail q ahead) {n : ℕ} (hn : n ≤ q.length) :
    Queue d mem (slot d head n) tail (q.drop n) ahead := by
  induction n generalizing head q with
  | zero => simpa [slot_zero h.head_lt] using h
  | succ n ih =>
    cases q with
    | nil => simp at hn
    | cons x q =>
      have hrest := ih h.pop (by simpa using hn)
      rwa [slot_slot, Nat.add_comm 1 n] at hrest

end Queue

/-- The words that a consumer may copy in one piece: up to the tail that it has seen, or to the end
of the memory. -/
theorem run_of_consumer {k : ℕ} (hh : head < d) (hk : k < d) :
    (if head ≤ slot d head k then slot d head k - head else d - head) = min k (d - head) := by
  rw [slot_eq hh (by omega)]
  split_ifs <;> omega

/-- The cells that a producer may fill in one piece: up to the cell before the head that it has
seen, or to the end of the memory. -/
theorem run_of_producer {n : ℕ} (hh : head < d) (hn : n < d) :
    (if slot d head n < head then head - 1 - slot d head n
      else if 0 < head then d - slot d head n else d - 1 - slot d head n) =
    min (d - 1 - n) (d - slot d head n) := by
  rw [slot_eq hh (by omega)]
  split_ifs <;> omega

end AvalonCores.Sync.RingBuffer
