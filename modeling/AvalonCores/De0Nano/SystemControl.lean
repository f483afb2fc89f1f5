import Mathlib.Tactic
import AvalonCores.Sync.Execution

/-! The reset of `system_control`, which is to wait for the lock of the PLL.  The counter of the
hold time starts at a `RESET` only: a loss of lock sets the reset and leaves the counter as it
is. -/

namespace AvalonCores.De0Nano.SystemControl

open Sync

structure State where
  resetSys : Bool
  resetCount : BitVec 4
deriving DecidableEq, Repr

/-- `RESET` and the lock of the PLL at an edge of the clock. -/
structure Inputs where
  reset : Bool
  readySys : Bool
deriving DecidableEq, Repr

variable (s : State) (i : Inputs)

def step : State where
  resetSys :=
    if i.reset then true
    else if !i.readySys then true
    else decide (s.resetCount < 0xF#4)
  resetCount :=
    if i.reset then 0x1#4
    else if !i.readySys then s.resetCount
    else if s.resetCount < 0xF#4 then s.resetCount + 1#4
    else s.resetCount

/-- The controller from a `RESET` on, which may come again at any edge. -/
def circuit : Circuit State Inputs where
  init s := ∃ t i, i.reset = true ∧ s = step t i
  admits _ _ := True
  step := step

/-- The PLL has lost its lock. -/
def Inputs.lost : Bool := !i.reset && !i.readySys

/-- The edge shows the lock, and no `RESET`. -/
def Inputs.locked : Bool := !i.reset && i.readySys

/-- The edges with the lock before edge `t`, since the last `RESET`. -/
def lockedEdges (i : ℕ → Inputs) : ℕ → ℕ
  | 0 => 0
  | t + 1 => if (i t).reset then 0 else lockedEdges i t + (i t).locked.toNat

/-- Whenever the reset is low after an edge, this edge and the 14 before it have shown the lock. -/
def HoldsReset (st : ℕ → State) (i : ℕ → Inputs) : Prop :=
  ∀ t, (st (t + 1)).resetSys = false →
    14 ≤ t ∧ ∀ u, u ≤ t → t ≤ u + 14 → (i u).locked = true

/-- Within 14 edges of a loss of lock, there is no edge with the lock that has had 14 others before
it since the last `RESET`. -/
def LossesHarmless (i : ℕ → Inputs) : Prop :=
  ∀ u t, (i u).lost = true → u < t → t ≤ u + 14 → (i t).locked = true → lockedEdges i t < 14

section Execution

variable {st : ℕ → State} {i : ℕ → Inputs} {u t : ℕ}

/-- The counter saturates at 15. -/
theorem resetCount_eq (he : circuit.Execution st i) (t : ℕ) :
    (st t).resetCount.toNat = min 15 (lockedEdges i t + 1) := by
  induction t with
  | zero =>
    obtain ⟨s, j, hj, hst⟩ := he.init
    simp [hst, step, hj, lockedEdges]
  | succ t ih =>
    rw [he.step, lockedEdges]
    simp only [circuit, step, Inputs.locked]
    cases hreset : (i t).reset with
    | true => simp
    | false =>
      cases hready : (i t).readySys with
      | false => simpa using ih
      | true =>
        simp only [Bool.not_true, Bool.false_eq_true, if_false, BitVec.lt_def, ih]
        split
        · rw [BitVec.toNat_add, ih]
          simp only [BitVec.toNat_ofNat, Bool.not_false, Bool.and_self, Bool.toNat_true] at *
          omega
        · simp only [BitVec.toNat_ofNat, Bool.not_false, Bool.and_self, Bool.toNat_true] at *
          omega

/-- The reset is low after an edge with the lock that is at least the 15th since the last
`RESET`. -/
theorem resetSys_iff (he : circuit.Execution st i) (t : ℕ) :
    (st (t + 1)).resetSys = false ↔ (i t).locked = true ∧ 14 ≤ lockedEdges i t := by
  have hcount := resetCount_eq he t
  rw [he.step]
  simp only [circuit, step, Inputs.locked]
  cases hreset : (i t).reset with
  | true => simp
  | false =>
    cases hready : (i t).readySys with
    | false => simp
    | true => simp [BitVec.lt_def, hcount]

theorem lockedEdges_le (h : u ≤ t) : lockedEdges i t ≤ lockedEdges i u + (t - u) := by
  induction t, h using Nat.le_induction with
  | base => omega
  | succ t hut ih =>
    rw [lockedEdges]
    have hle := Bool.toNat_le (i t).locked
    split <;> omega

/-- No 14 edges with the lock fit between a `RESET` and a later edge that is close to it. -/
theorem lockedEdges_of_reset (hreset : (i u).reset = true) (hlt : u < t) :
    lockedEdges i t ≤ t - (u + 1) := by
  have hle := lockedEdges_le (i := i) (Nat.succ_le_of_lt hlt)
  rwa [lockedEdges, if_pos hreset, Nat.zero_add] at hle

/-- The reset is held for 15 edges with the lock in succession if and only if no loss of lock comes
when the counter is about to have counted them. -/
theorem holdsReset_iff (he : circuit.Execution st i) : HoldsReset st i ↔ LossesHarmless i := by
  constructor
  · intro hholds u t hlost hut hclose hlocked
    by_contra hlt
    have hlow := (resetSys_iff he t).mpr ⟨hlocked, by omega⟩
    have := (hholds t hlow).2 u hut.le hclose
    cases hreset : (i u).reset <;> simp_all [Inputs.lost, Inputs.locked]
  · intro hharmless t hlow
    obtain ⟨hlocked, hcount⟩ := (resetSys_iff he t).mp hlow
    have hlong := lockedEdges_le (i := i) (Nat.zero_le t)
    simp only [lockedEdges] at hlong
    refine ⟨by omega, fun u hu hclose => ?_⟩
    rcases Nat.eq_or_lt_of_le hu with rfl | hlt
    · exact hlocked
    · cases hreset : (i u).reset with
      | true =>
        have := lockedEdges_of_reset hreset hlt
        omega
      | false =>
        cases hready : (i u).readySys with
        | true => simp [Inputs.locked, hreset, hready]
        | false =>
          have := hharmless u t (by simp [Inputs.lost, hreset, hready]) hlt hclose hlocked
          omega

end Execution

/-- The lock is lost at edge `n` only. -/
def losesAt (n t : ℕ) : Inputs := ⟨false, t != n⟩

def afterReset : State := ⟨true, 0x1#_⟩

theorem execution_losesAt (n : ℕ) :
    circuit.Execution (trajectory step afterReset (losesAt n)) (losesAt n) :=
  Circuit.execution_trajectory ⟨afterReset, ⟨true, true⟩, rfl, rfl⟩ fun _ _ => trivial

/-- A loss of the lock at the first edge holds the reset until edge 15. -/
theorem holdsReset_losesAt : HoldsReset (trajectory step afterReset (losesAt 0)) (losesAt 0) := by
  refine (holdsReset_iff (execution_losesAt 0)).mpr fun u t hlost hut hclose _ => ?_
  obtain rfl : u = 0 := by simpa [Inputs.lost, losesAt] using hlost
  have hle := lockedEdges_le (i := losesAt 0) (Nat.succ_le_of_lt hut)
  have hone : lockedEdges (losesAt 0) (Nat.succ 0) = 0 := rfl
  omega

/-- After a loss of the lock at edge 14, the reset is low after the first edge with the lock. -/
theorem not_holdsReset_losesAt :
    circuit.Execution (trajectory step afterReset (losesAt 14)) (losesAt 14) ∧
      ¬ HoldsReset (trajectory step afterReset (losesAt 14)) (losesAt 14) := by
  refine ⟨execution_losesAt 14, fun h => ?_⟩
  have := (h 15 (by decide)).2 14 (by omega) (by omega)
  revert this
  decide

end AvalonCores.De0Nano.SystemControl
