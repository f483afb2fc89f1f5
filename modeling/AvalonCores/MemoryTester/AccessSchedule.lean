import Mathlib.Tactic

/-! The order of the accesses of a test whose reads trail its writes.  `Greedy` is the rule: write
while blocks remain and fewer than the trail are written ahead of the reads, and read otherwise. -/

namespace AvalonCores.MemoryTester

inductive Access
  | write
  | read
deriving DecidableEq, Repr

/-- The accesses of a test of `n` blocks with trail `trail`: `W^m (R W)^(n - m) R^m` for
`m = min trail n`. -/
def schedule (trail n : ℕ) : List Access :=
  List.replicate (min trail n) .write ++
    (List.replicate (n - min trail n) [Access.read, .write]).flatten ++
      List.replicate (min trail n) .read

/-- The accesses `order`, with `w` writes and `r` reads, follow the rule of the controller. -/
inductive Greedy (trail n : ℕ) : ℕ → ℕ → List Access → Prop
  | nil : Greedy trail n 0 0 []
  | write {w r : ℕ} {order : List Access} : Greedy trail n w r order → w < n → w < r + trail →
      Greedy trail n (w + 1) r (order ++ [.write])
  | read {w r : ℕ} {order : List Access} : Greedy trail n w r order → r < w →
      w = r + trail ∨ w = n → Greedy trail n w (r + 1) (order ++ [.read])

/-- The four parts of a schedule: the first writes, the alternation after a write and after a
read, and the last reads. -/
inductive Phase (trail n : ℕ) : ℕ → ℕ → List Access → Prop
  | fill {w : ℕ} : w ≤ min trail n → Phase trail n w 0 (List.replicate w .write)
  | ahead {j : ℕ} : j ≤ n - min trail n → Phase trail n (min trail n + j) j
      (List.replicate (min trail n) .write ++ (List.replicate j [Access.read, .write]).flatten)
  | behind {j : ℕ} : j < n - min trail n → Phase trail n (min trail n + j) (j + 1)
      (List.replicate (min trail n) .write ++ (List.replicate j [Access.read, .write]).flatten ++
        [.read])
  | drain {j : ℕ} : j ≤ min trail n → Phase trail n n (n - min trail n + j)
      (List.replicate (min trail n) .write ++
        (List.replicate (n - min trail n) [Access.read, .write]).flatten ++
          List.replicate j .read)

variable {trail n w r : ℕ} {order : List Access}

theorem Phase.write (h : Phase trail n w r order) (hw : w < n) (hr : w < r + trail) :
    Phase trail n (w + 1) r (order ++ [.write]) := by
  cases h with
  | fill hle =>
    rw [← List.replicate_succ']
    exact .fill (by omega)
  | ahead hj => omega
  | @behind j hj =>
    have hlist : (List.replicate j [Access.read, .write]).flatten ++ [.read] ++ [.write] =
        (List.replicate (j + 1) [Access.read, .write]).flatten := by
      simp [List.replicate_succ']
    rw [List.append_assoc (List.replicate _ _), List.append_assoc, hlist, Nat.add_assoc]
    exact .ahead (by omega)
  | drain hj => omega

theorem Phase.read (hT : 0 < trail) (h : Phase trail n w r order) (hr : r < w)
    (hw : w = r + trail ∨ w = n) : Phase trail n w (r + 1) (order ++ [.read]) := by
  cases h with
  | fill hle =>
    obtain rfl : w = min trail n := by omega
    by_cases hn : trail < n
    · simpa using @Phase.behind trail n 0 (by omega)
    · have := @Phase.drain trail n 1 (by omega)
      simpa [show min trail n = n by omega] using this
  | ahead hj =>
    by_cases hlast : r = n - min trail n
    · subst hlast
      have := @Phase.drain trail n 1 (by omega)
      simpa [show min trail n + (n - min trail n) = n by omega] using this
    · exact .behind (by omega)
  | behind hj => omega
  | drain hj =>
    rw [List.append_assoc, ← List.replicate_succ', Nat.add_assoc]
    exact .drain (by omega)

theorem Phase.isPrefix (h : Phase trail n w r order) : order <+: schedule trail n := by
  unfold schedule
  cases h with
  | fill hle =>
    rw [List.append_assoc]
    refine List.IsPrefix.trans ?_ (List.prefix_append _ _)
    exact ⟨List.replicate (min trail n - w) .write, by simp [hle]⟩
  | @ahead j hj =>
    refine List.IsPrefix.trans ?_ (List.prefix_append _ _)
    obtain ⟨d, hd⟩ := Nat.exists_eq_add_of_le hj
    rw [hd, List.replicate_add, List.flatten_append, ← List.append_assoc]
    exact List.prefix_append _ _
  | @behind j hj =>
    refine List.IsPrefix.trans ?_ (List.prefix_append _ _)
    obtain ⟨d, hd⟩ := Nat.exists_eq_add_of_lt hj
    rw [hd, Nat.add_assoc, List.replicate_add, List.flatten_append, List.replicate_succ,
      List.flatten_cons, List.append_assoc]
    exact ⟨.write :: (List.replicate d [Access.read, .write]).flatten, by simp⟩
  | @drain j hj => exact ⟨List.replicate (min trail n - j) .read, by simp [hj]⟩

theorem Greedy.phase (hT : 0 < trail) (h : Greedy trail n w r order) : Phase trail n w r order := by
  induction h with
  | nil => exact .fill (Nat.zero_le _)
  | write _ hw hr ih => exact ih.write hw hr
  | read _ hr hw ih => exact ih.read hT hr hw

theorem Greedy.isPrefix (hT : 0 < trail) (h : Greedy trail n w r order) :
    order <+: schedule trail n := (h.phase hT).isPrefix

theorem schedule_length (trail n : ℕ) : (schedule trail n).length = n + n := by
  simp [schedule]
  omega

theorem Greedy.length (h : Greedy trail n w r order) : order.length = w + r := by
  induction h with
  | nil => rfl
  | write _ _ _ ih | read _ _ _ ih =>
    simp [ih]
    omega

theorem Greedy.read_le (h : Greedy trail n w r order) : r ≤ w := by
  induction h with
  | nil => exact le_rfl
  | write _ _ _ ih => exact ih.trans (Nat.le_succ _)
  | read _ hr _ _ => exact hr

/-- A block that is read while it is the newest one written is the last one, unless the trail is a
single block. -/
theorem Greedy.newest (h : Greedy trail n w r order) (hr : 0 < r) (hw : w = r) :
    trail = 1 ∨ r = n := by
  cases h with
  | nil => contradiction
  | write hprev _ _ =>
    have := hprev.read_le
    omega
  | read _ _ hdue => omega

/-- When all blocks are written and read, the whole schedule has been followed. -/
theorem Greedy.complete (hT : 0 < trail) (h : Greedy trail n n n order) :
    order = schedule trail n :=
  (h.isPrefix hT).eq_of_length (by rw [h.length, schedule_length])

end AvalonCores.MemoryTester
