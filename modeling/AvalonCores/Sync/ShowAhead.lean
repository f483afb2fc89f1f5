import Mathlib.Tactic

/-! The ideal show-ahead FIFO, as the list of its words, oldest first.  `Window f w k q` says that
`q` lies between a producer that has pushed the first `k` words of a sequence `f` and a consumer
that has popped the first `w` of them. -/

namespace AvalonCores.Sync.ShowAhead

variable {α β : Type*}

/-- The words of the FIFO after a clock edge, `x` being the word pushed. -/
def next (q : List α) (pop push : Bool) (x : α) : List α :=
  (if pop then q.tail else q) ++ if push then [x] else []

/-- The output `q` of the FIFO.  An empty FIFO may show any word `idle`. -/
def front (q : List α) (idle : α) : α := q.headD idle

theorem next_length {q : List α} {pop : Bool} (hpop : pop = true → q ≠ []) (push : Bool) (x : α) :
    (next q pop push x).length + pop.toNat = q.length + push.toNat := by
  cases pop <;> cases push <;> cases q <;> simp_all [next]

/-- What a FIFO gives up joins what it gave up before, and what it takes in joins what it took in
before. -/
theorem next_history {taken given q : List α} {pop : Bool} (h : given ++ q = taken)
    (hpop : pop = true → q ≠ []) (push : Bool) (x idle : α) :
    (given ++ if pop then [front q idle] else []) ++ next q pop push x =
      taken ++ if push then [x] else [] := by
  subst h
  cases pop with
  | false => simp [next]
  | true =>
    obtain ⟨y, q, rfl⟩ := List.exists_cons_of_ne_nil (hpop rfl)
    simp [next, front]

def Window (f : ℕ → α) (w k : ℕ) (q : List α) : Prop :=
  w ≤ k ∧ q = (List.range' w (k - w)).map f

namespace Window

variable {f : ℕ → α} {w k : ℕ} {q : List α} {pop push : Bool} {x idle : α}

theorem nil (f : ℕ → α) (w : ℕ) : Window f w w [] := ⟨le_rfl, by simp⟩

theorem le (h : Window f w k q) : w ≤ k := h.1

theorem length (h : Window f w k q) : q.length = k - w := by simp [h.2]

theorem ne_nil_iff (h : Window f w k q) : q ≠ [] ↔ w < k := by
  rw [← List.length_pos_iff, h.length]
  omega

theorem eq_nil (h : Window f w k q) (hk : k ≤ w) : q = [] := by
  by_contra hq
  have := h.ne_nil_iff.mp hq
  omega

/-- The output is the oldest word that has not been popped. -/
theorem front_eq (h : Window f w k q) (hq : q ≠ []) : front q idle = f w := by
  have hlt := h.ne_nil_iff.mp hq
  rw [h.2, show k - w = (k - w - 1) + 1 by omega, List.range'_succ]
  rfl

theorem next (h : Window f w k q) (hpop : pop = true → q ≠ []) (hpush : push = true → x = f k) :
    Window f (w + pop.toNat) (k + push.toNat) (ShowAhead.next q pop push x) := by
  have hpop' : pop = true → w < k := fun hp => h.ne_nil_iff.mp (hpop hp)
  obtain ⟨hle, rfl⟩ := h
  have hpopped : (if pop then ((List.range' w (k - w)).map f).tail
      else (List.range' w (k - w)).map f) =
      (List.range' (w + pop.toNat) (k - (w + pop.toNat))).map f := by
    cases pop with
    | false => simp
    | true =>
      have hlt := hpop' rfl
      rw [show k - w = (k - (w + 1)) + 1 by omega, List.range'_succ]
      simp
  have hle' : w + pop.toNat ≤ k := by
    cases pop with
    | false => simpa using hle
    | true => exact hpop' rfl
  refine ⟨by omega, ?_⟩
  rw [ShowAhead.next, hpopped]
  cases push with
  | false => simp
  | true =>
    rw [hpush rfl, Bool.toNat_true, show k + 1 - (w + pop.toNat) = k - (w + pop.toNat) + 1 by omega,
      List.range'_concat]
    simp [show w + pop.toNat + (k - (w + pop.toNat)) = k by omega]

/-- A word is popped and none is pushed. -/
theorem next_pop (h : Window f w k q) (hpop : pop = true → q ≠ []) :
    Window f (w + pop.toNat) k (if pop then q.tail else q) := by
  have hnext : Window f (w + pop.toNat) (k + false.toNat) (ShowAhead.next q pop false (f k)) :=
    h.next hpop fun _ => rfl
  simpa [ShowAhead.next] using hnext

/-- Several words are pushed at once. -/
theorem append (h : Window f w k q) (n : ℕ) :
    Window f w (k + n) (q ++ (List.range' k n).map f) := by
  obtain ⟨hle, rfl⟩ := h
  refine ⟨by omega, ?_⟩
  rw [← List.map_append, show k + n - w = (k - w) + n by omega, ← List.range'_append_1,
    show w + (k - w) = k by omega]

end Window

end AvalonCores.Sync.ShowAhead
