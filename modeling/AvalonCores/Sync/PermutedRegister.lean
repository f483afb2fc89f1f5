import Mathlib.Tactic
import AvalonCores.Sync.Execution

/-! Registers that go on by permutations of their contents.  Between two loads, the content is the
image of an earlier one under the permutations applied since.  It is never a content that all of
them fix, and two registers that differ go on differing under the same permutations. -/

namespace AvalonCores.Sync

/-- What a clock edge does to a register. -/
inductive RegisterAction (κ : Type*)
  | load
  | move (k : κ)
  | keep

namespace RegisterAction

variable {κ X : Type*}

/-- The next content of a register that loads `seed` and moves by the permutations `f`. -/
def next (seed : X) (f : κ → Equiv.Perm X) : RegisterAction κ → X → X
  | load, _ => seed
  | move k, x => f k x
  | keep, x => x

def moves : RegisterAction κ → List κ
  | load => []
  | move k => [k]
  | keep => []

theorem next_ne {seed x z : X} {f : κ → Equiv.Perm X} (hseed : seed ≠ z) (hfix : ∀ k, f k z = z)
    (hx : x ≠ z) (a : RegisterAction κ) : a.next seed f x ≠ z := by
  cases a with
  | load => exact hseed
  | move k =>
    intro h
    have hk : f k x = f k z := h.trans (hfix k).symm
    exact hx ((f k).injective hk)
  | keep => exact hx

theorem next_eq_foldl {seed : X} {f : κ → Equiv.Perm X} {a : RegisterAction κ} (ha : a ≠ load)
    (x : X) : a.next seed f x = a.moves.foldl (fun x k => f k x) x := by
  cases a with
  | load => contradiction
  | move k => rfl
  | keep => rfl

end RegisterAction

theorem foldl_perm_injective {κ X : Type*} (f : κ → Equiv.Perm X) (ks : List κ) :
    Function.Injective (ks.foldl fun x k => f k x) := by
  induction ks with
  | nil => exact Function.injective_id
  | cons k ks ih => exact ih.comp (f k).injective

/-- A register of `C` that holds `seed` at first, loads it again at times and moves by the
permutations `f`. -/
structure PermutedRegister {σ ι κ X : Type*} (C : Circuit σ ι) (seed : X) (f : κ → Equiv.Perm X)
    where
  content : σ → X
  action : σ → ι → RegisterAction κ
  content_init : ∀ s, C.init s → content s = seed
  content_step : ∀ s i, content (C.step s i) = (action s i).next seed f (content s)

namespace PermutedRegister

variable {σ ι τ μ κ X : Type*} {C : Circuit σ ι} {D : Circuit τ μ} {seed seed' : X}
  {f : κ → Equiv.Perm X}

/-- The register never holds a content other than its seed that all permutations fix. -/
theorem content_ne (R : PermutedRegister C seed f) {z : X} (hseed : seed ≠ z)
    (hfix : ∀ k, f k z = z) {s : σ} (h : C.Reachable s) : R.content s ≠ z := by
  refine h.invariant (I := fun s => R.content s ≠ z) ?_ ?_
  · intro s hs
    rw [R.content_init s hs]
    exact hseed
  · intro s i _ ih _
    rw [R.content_step]
    exact RegisterAction.next_ne hseed hfix ih _

section Trajectory

variable (R : PermutedRegister C seed f)

/-- The permutations applied before cycle `t` from `s` on, in order. -/
def moves (s : σ) (i : ℕ → ι) : ℕ → List κ
  | 0 => []
  | t + 1 => moves s i t ++ (R.action (trajectory C.step s i t) (i t)).moves

/-- The register loads no seed before cycle `t`. -/
def Unloaded (s : σ) (i : ℕ → ι) (t : ℕ) : Prop :=
  ∀ u < t, R.action (trajectory C.step s i u) (i u) ≠ .load

variable {R}

theorem content_trajectory {s : σ} {i : ℕ → ι} {t : ℕ} (h : R.Unloaded s i t) :
    R.content (trajectory C.step s i t) =
      (R.moves s i t).foldl (fun x k => f k x) (R.content s) := by
  induction t with
  | zero => rfl
  | succ t ih =>
    have hlast : R.action (trajectory C.step s i t) (i t) ≠ .load := h t (Nat.lt_succ_self t)
    rw [moves, List.foldl_append, ← ih fun u hu => h u (by omega), trajectory, R.content_step,
      RegisterAction.next_eq_foldl hlast]

end Trajectory

/-- Once the registers differ, they differ whenever the same permutations have been applied to
both, as long as neither loads its seed. -/
def StaysApart (R : PermutedRegister C seed f) (S : PermutedRegister D seed' f) : Prop :=
  ∀ (s : σ) (i : ℕ → ι) (t : ℕ) (s' : τ) (i' : ℕ → μ) (t' : ℕ), R.Unloaded s i t →
    S.Unloaded s' i' t' → R.moves s i t = S.moves s' i' t' → R.content s ≠ S.content s' →
    R.content (trajectory C.step s i t) ≠ S.content (trajectory D.step s' i' t')

theorem staysApart (R : PermutedRegister C seed f) (S : PermutedRegister D seed' f) :
    StaysApart R S := by
  intro s i t s' i' t' hR hS hmoves hne heq
  rw [content_trajectory hR, content_trajectory hS, hmoves] at heq
  exact hne (foldl_perm_injective f _ heq)

/-- Registers with the same actions in every cycle, none of which is a load, differ in every
cycle. -/
theorem StaysApart.lockstep {R : PermutedRegister C seed f} {S : PermutedRegister D seed' f}
    (h : StaysApart R S) {s : σ} {i : ℕ → ι} {s' : τ} {i' : ℕ → μ}
    (hload : ∀ t, R.action (trajectory C.step s i t) (i t) ≠ .load)
    (hsame : ∀ t, S.action (trajectory D.step s' i' t) (i' t) =
      R.action (trajectory C.step s i t) (i t)) (hne : R.content s ≠ S.content s') (t : ℕ) :
    R.content (trajectory C.step s i t) ≠ S.content (trajectory D.step s' i' t) := by
  have hmoves : R.moves s i t = S.moves s' i' t := by
    induction t with
    | zero => rfl
    | succ t ih => rw [moves, moves, ih, hsame]
  exact h s i t s' i' t (fun u _ => hload u) (fun u _ => by rw [hsame]; exact hload u) hmoves hne

end PermutedRegister

end AvalonCores.Sync
