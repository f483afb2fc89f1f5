import Mathlib.Tactic
import Mathlib.Data.Nat.Count
import AvalonCores.Sync.Circuit

/-! Runs without an end.  An execution of a circuit gives its state and its input in every cycle,
for statements about what happens in later cycles; `Nat.count` counts the cycles of an event, and
`collected` lists what a run has shown in them.  A `Session` is a series of runs, of which each
begins with what the one before has left. -/

namespace AvalonCores.Sync

variable {σ ι : Type*}

/-- The circuit is in the state `st n` in cycle `n`, to which the environment applies the input
`i n`. -/
structure Circuit.Execution (C : Circuit σ ι) (st : ℕ → σ) (i : ℕ → ι) : Prop where
  init : C.init (st 0)
  admits : ∀ n, C.admits (st n) (i n)
  step : ∀ n, st (n + 1) = C.step (st n) (i n)

namespace Circuit.Execution

variable {C : Circuit σ ι} {st : ℕ → σ} {i : ℕ → ι}

/-- The states of an execution are states of runs. -/
theorem reachable (h : C.Execution st i) (n : ℕ) : C.Reachable (st n) := by
  induction n with
  | zero => exact .init h.init
  | succ n ih =>
    rw [h.step]
    exact ih.step (h.admits n)

end Circuit.Execution

/-- The state in each cycle from `s` on, with the input `i n` in cycle `n`. -/
def trajectory (step : σ → ι → σ) (s : σ) (i : ℕ → ι) : ℕ → σ
  | 0 => s
  | n + 1 => step (trajectory step s i n) (i n)

/-- An environment that needs no knowledge of the states may apply its inputs from any initial
state. -/
theorem Circuit.execution_trajectory {C : Circuit σ ι} {s : σ} {i : ℕ → ι} (h : C.init s)
    (hi : ∀ t n, C.admits t (i n)) : C.Execution (trajectory C.step s i) i where
  init := h
  admits n := hi _ n
  step _ := rfl

/-- The trajectory from the second cycle on. -/
theorem trajectory_succ' (step : σ → ι → σ) (s : σ) (i : ℕ → ι) (n : ℕ) :
    trajectory step s i (n + 1) = trajectory step (step s (i 0)) (fun k => i (k + 1)) n := by
  induction n with
  | zero => rfl
  | succ n ih =>
    rw [trajectory, ih]
    rfl

/-- The inputs `is`, and then those of `c`. -/
def followedBy (is : List ι) (c : ℕ → ι) (n : ℕ) : ι := is.getD n (c (n - is.length))

theorem followedBy_nil (c : ℕ → ι) : followedBy [] c = c := rfl

theorem followedBy_cons (i : ι) (is : List ι) (c : ℕ → ι) :
    (fun k => followedBy (i :: is) c (k + 1)) = followedBy is c := by
  funext k
  simp [followedBy]

theorem followedBy_add (is : List ι) (c : ℕ → ι) (n : ℕ) :
    followedBy is c (is.length + n) = c n := by
  simp [followedBy]

theorem followedBy_mem (is : List ι) (c : ℕ → ι) (n : ℕ) :
    followedBy is c n ∈ is ∨ ∃ k, followedBy is c n = c k := by
  rcases Nat.lt_or_ge n is.length with hn | hn
  · left
    rw [followedBy, List.getD_eq_getElem?_getD, List.getElem?_eq_getElem hn, Option.getD_some]
    exact List.getElem_mem hn
  · obtain ⟨k, rfl⟩ := Nat.exists_eq_add_of_le hn
    exact .inr ⟨k, followedBy_add is c k⟩

theorem trajectory_followedBy (step : σ → ι → σ) (s : σ) (is : List ι) (c : ℕ → ι) (n : ℕ) :
    trajectory step s (followedBy is c) (is.length + n) = trajectory step (run step s is) c n := by
  induction is generalizing s with
  | nil => simp [followedBy_nil, run]
  | cons i is ih =>
    rw [List.length_cons, show is.length + 1 + n = is.length + n + 1 by omega, trajectory_succ',
      followedBy_cons, ih]
    rfl

namespace Circuit

variable {C : Circuit σ ι} {s : σ} {is : List ι} {c : ℕ → ι}

theorem Admitted.followedBy (hi : C.Admitted s is)
    (hc : ∀ n, C.admits (trajectory C.step (run C.step s is) c n) (c n)) (n : ℕ) :
    C.admits (trajectory C.step s (followedBy is c) n) (followedBy is c n) := by
  induction is generalizing s n with
  | nil => exact hc n
  | cons i is ih =>
    cases n with
    | zero => exact hi.1
    | succ n =>
      have hrest := ih hi.2 hc n
      rw [← followedBy_cons i is c] at hrest
      rw [trajectory_succ']
      exact hrest

/-- An admitted run that comes to a state with the invariant `J`, which the inputs from there on
keep. -/
theorem execution_followedBy {J : σ → Prop} (h : C.init s) (hi : C.Admitted s is)
    (hJ : J (run C.step s is)) (hc : ∀ t n, J t → C.admits t (c n) ∧ J (C.step t (c n))) :
    C.Execution (trajectory C.step s (followedBy is c)) (followedBy is c) ∧
      ∀ n, J (trajectory C.step s (followedBy is c) (is.length + n)) := by
  have hrest : ∀ n, J (trajectory C.step (run C.step s is) c n) := by
    intro n
    induction n with
    | zero => exact hJ
    | succ n ih => exact (hc _ n ih).2
  refine ⟨⟨h, hi.followedBy fun n => (hc _ n (hrest n)).1, fun _ => rfl⟩, fun n => ?_⟩
  rw [trajectory_followedBy]
  exact hrest n

end Circuit

/-- The parameter with which the next run begins, after any number of runs from the parameter `x`
on.  A run of the circuit `C y n` goes on until it is `done`, and leaves the parameter `left y s`
in the state `s` that it has come to. -/
inductive Session {α β : Type*} (C : α → β → Circuit σ ι) (done : σ → Prop) (left : α → σ → α)
    (x : α) : α → Prop
  | start : Session C done left x x
  | next {y : α} {n : β} {st : ℕ → σ} {i : ℕ → ι} {t : ℕ} : Session C done left x y →
      (C y n).Execution st i → done (st t) → Session C done left x (left y (st t))

/-- A property of the first parameter that each run keeps holds of the parameter of every run. -/
theorem Session.invariant {α β : Type*} {C : α → β → Circuit σ ι} {done : σ → Prop}
    {left : α → σ → α} {x y : α} {I : α → Prop} (hx : I x)
    (hnext : ∀ y n st i t, I y → (C y n).Execution st i → done (st t) → I (left y (st t)))
    (h : Session C done left x y) : I y := by
  induction h with
  | start => exact hx
  | next _ he hd ih => exact hnext _ _ _ _ _ ih he hd

theorem count_add_toNat (p : ℕ → Bool) (n : ℕ) :
    Nat.count (p · = true) (n + 1) = Nat.count (p · = true) n + (p n).toNat := by
  rw [Nat.count_succ]
  cases p n <;> rfl

/-- The values of `f` in the cycles before `n` in which `p` holds. -/
def collected {α : Type*} (p : ℕ → Bool) (f : ℕ → α) (n : ℕ) : List α :=
  ((List.range n).filter p).map f

section Collected

variable {α : Type*} {p q : ℕ → Bool} {f : ℕ → α}

theorem collected_succ (p : ℕ → Bool) (f : ℕ → α) (n : ℕ) :
    collected p f (n + 1) = collected p f n ++ if p n then [f n] else [] := by
  cases h : p n <;> simp [collected, List.range_succ, h]

/-- The list begins with the value of cycle 0. -/
theorem collected_succ' (p : ℕ → Bool) (f : ℕ → α) (n : ℕ) :
    collected p f (n + 1) =
      (if p 0 then [f 0] else []) ++ collected (fun t => p (t + 1)) (fun t => f (t + 1)) n := by
  induction n with
  | zero => cases h : p 0 <;> simp [collected, h]
  | succ n ih => rw [collected_succ, ih, collected_succ, List.append_assoc]

theorem collected_length (p : ℕ → Bool) (f : ℕ → α) (n : ℕ) :
    (collected p f n).length = Nat.count (p · = true) n := by
  induction n with
  | zero => rfl
  | succ n ih =>
    rw [collected_succ, Nat.count_succ, List.length_append, ih]
    split <;> rfl

theorem collected_length_succ (p : ℕ → Bool) (f : ℕ → α) (n : ℕ) :
    (collected p f (n + 1)).length = (collected p f n).length + (p n).toNat := by
  rw [collected_length, collected_length, count_add_toNat]

/-- The `k`-th value is that of the cycle before which the event has happened `k` times. -/
theorem collected_getElem? {n k : ℕ} {x : α} :
    (collected p f n)[k]? = some x ↔
      ∃ t < n, p t = true ∧ Nat.count (p · = true) t = k ∧ f t = x := by
  induction n with
  | zero => simp [collected]
  | succ n ih =>
    have hlen := collected_length p f n
    cases hp : p n with
    | false =>
      rw [collected_succ, hp, if_neg Bool.false_ne_true, List.append_nil, ih]
      constructor
      · rintro ⟨t, ht, hpt, h⟩
        exact ⟨t, by omega, hpt, h⟩
      · rintro ⟨t, ht, hpt, h⟩
        have hne : t ≠ n := by
          rintro rfl
          rw [hp] at hpt
          contradiction
        exact ⟨t, by omega, hpt, h⟩
    | true =>
      rw [collected_succ, hp, if_pos rfl]
      rcases Nat.lt_or_ge k (collected p f n).length with hk | hk
      · rw [List.getElem?_append_left hk, ih]
        constructor
        · rintro ⟨t, ht, h⟩
          exact ⟨t, by omega, h⟩
        · rintro ⟨t, ht, hpt, hcount, hf⟩
          have hne : t ≠ n := by
            rintro rfl
            omega
          exact ⟨t, by omega, hpt, hcount, hf⟩
      · rw [List.getElem?_append_right hk]
        constructor
        · intro h
          obtain ⟨hk0, hx⟩ : k - (collected p f n).length = 0 ∧ f n = x := by
            simpa [List.getElem?_singleton] using h
          exact ⟨n, Nat.lt_succ_self n, hp, by omega, hx⟩
        · rintro ⟨t, ht, hpt, hcount, hf⟩
          obtain rfl : t = n := by
            rcases Nat.lt_succ_iff_lt_or_eq.mp ht with hlt | heq
            · have := Nat.count_strict_mono (p := (p · = true)) hpt hlt
              omega
            · exact heq
          simp [← hcount, hlen, hf]

/-- When the value in an event's cycle is a function of the number of earlier events, the list has
the values of that function in order. -/
theorem collected_eq_map {g : ℕ → α} {n : ℕ}
    (h : ∀ t < n, p t = true → f t = g (Nat.count (p · = true) t)) :
    collected p f n = (List.range (Nat.count (p · = true) n)).map g := by
  induction n with
  | zero => rfl
  | succ n ih =>
    rw [collected_succ, ih fun t ht => h t (by omega), Nat.count_succ]
    cases hp : p n with
    | false => simp
    | true => simp [List.range_succ, h n (Nat.lt_succ_self n) hp]

/-- An event that happens with every one of the first `n` opportunities `q`, and with none later. -/
theorem count_eq_min {n : ℕ}
    (h : ∀ t, p t = true ↔ q t = true ∧ Nat.count (p · = true) t < n) (t : ℕ) :
    Nat.count (p · = true) t = min n (Nat.count (q · = true) t) := by
  induction t with
  | zero => simp
  | succ t ih =>
    have := h t
    rw [Nat.count_succ, Nat.count_succ]
    by_cases hq : q t = true
    · by_cases hlt : Nat.count (p · = true) t < n
      · rw [if_pos (this.mpr ⟨hq, hlt⟩), if_pos hq]
        omega
      · rw [if_neg fun hp => hlt (this.mp hp).2, if_pos hq]
        omega
    · rw [if_neg fun hp => hq (this.mp hp).1, if_neg hq]
      omega

end Collected

end AvalonCores.Sync
