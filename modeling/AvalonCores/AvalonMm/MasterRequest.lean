import Mathlib.Tactic
import AvalonCores.AvalonMm.Master

/-! The request of the example master between its start and `STATE_DONE`, in runs that may be reset
at other times.  The latches keep what they held in the cycle of the start, except that the branch
of `STATE_DONE` loads `data_read` when `rnw` is set in that cycle. -/

namespace AvalonCores.AvalonMm.Master

open Sync

/-- The master from its reset on, which may be reset again in any cycle. -/
def resettable : Circuit State Inputs where
  init := circuit.init
  admits _ _ := True
  step := step

/-- The master takes a request in cycle `n`, the slave stalls it for `k` cycles, and no reset ends
it before. -/
structure Stalled (st : ℕ → State) (i : ℕ → Inputs) (n k : ℕ) : Prop where
  starts : starts (st n) (i n) = true
  stalls : ∀ m, n ≤ m → m < n + k → (i m).waitrequest = true
  accepts : (i (n + k)).waitrequest = false
  noReset : ∀ m, n ≤ m → m ≤ n + k → (i m).reset = false

/-- The request of cycle `n` stays on the bus until the slave has stalled for `k` cycles, and the
master is done in the cycle after that. -/
structure Held (st : ℕ → State) (i : ℕ → Inputs) (n k : ℕ) : Prop where
  read : ∀ m, n ≤ m → m ≤ n + k → (outputs (st m) (i m)).read = (i n).rnw
  write : ∀ m, n ≤ m → m ≤ n + k → (outputs (st m) (i m)).write = !(i n).rnw
  address : ∀ m, n ≤ m → m ≤ n + k →
    (outputs (st m) (i m)).address = (outputs (st n) (i n)).address
  byteEnable : ∀ m, n ≤ m → m ≤ n + k →
    (outputs (st m) (i m)).byteEnable = (outputs (st n) (i n)).byteEnable
  writedata : (i n).rnw = false → ∀ m, n ≤ m → m ≤ n + k →
    (outputs (st m) (i m)).writedata = (outputs (st n) (i n)).writedata
  done : ∀ m, n ≤ m → m ≤ n + k + 2 → (done (st m) = true ↔ m = n + k + 1)

/-- In every run, requests are held while they are stalled, and no cycle is both a read and a
write. -/
structure Steady (st : ℕ → State) (i : ℕ → Inputs) : Prop where
  held : ∀ n k, Stalled st i n k → Held st i n k
  exclusive : ∀ m, ¬ ((outputs (st m) (i m)).read = true ∧ (outputs (st m) (i m)).write = true)

section Run

variable {st : ℕ → State} {i : ℕ → Inputs} {n k : ℕ}

namespace Stalled

variable (hstep : ∀ n, st (n + 1) = step (st n) (i n)) (h : Stalled st i n k)
include hstep h

theorem wait {m : ℕ} (hm : n < m) (hmk : m ≤ n + k) :
    st m = ⟨.wait, outputs (st n) (i n)⟩ := by
  obtain ⟨d, rfl⟩ := Nat.exists_eq_add_of_lt hm
  exact wait_of_stalls hstep h.starts d (fun u hu hud => h.noReset u hu (by omega))
    fun u hu hud => h.stalls u hu (by omega)

theorem outputs_eq {m : ℕ} (hm : n ≤ m) (hmk : m ≤ n + k) :
    outputs (st m) (i m) = outputs (st n) (i n) := by
  rcases Nat.eq_or_lt_of_le hm with rfl | hlt
  · rfl
  · rw [h.wait hstep hlt hmk]
    simp [outputs, h.noReset m hm hmk]

/-- When the slave has accepted the request, the master is done. -/
theorem done_eq : st (n + k + 1) = ⟨.done, outputs (st n) (i n)⟩ := by
  have hreset := h.noReset (n + k) (by omega) le_rfl
  have hlatched := h.outputs_eq hstep (m := n + k) (by omega) le_rfl
  have hstate : nextState (st (n + k)) (i (n + k)) = .done := by
    have haccepts := h.accepts
    rcases Nat.eq_zero_or_pos k with rfl | hpos
    · rw [Nat.add_zero] at hreset haccepts ⊢
      obtain ⟨hidle, hstart⟩ := (starts_iff hreset).mp h.starts
      simp [nextState, hreset, hidle, hstart, haccepts]
    · rw [h.wait hstep (m := n + k) (by omega) le_rfl]
      simp [nextState, hreset, haccepts]
  rw [hstep, step, hstate, hlatched]

theorem held : Held st i n k := by
  have hcarries := carries_of_starts h.starts
  have hsame (m : ℕ) (hm : n ≤ m) (hmk : m ≤ n + k) := h.outputs_eq hstep hm hmk
  constructor
  case read =>
    intro m hm hmk
    rw [hsame m hm hmk, hcarries.read]
  case write =>
    intro m hm hmk
    rw [hsame m hm hmk, hcarries.write]
  case address =>
    intro m hm hmk
    rw [hsame m hm hmk]
  case byteEnable =>
    intro m hm hmk
    rw [hsame m hm hmk]
  case writedata =>
    intro _ m hm hmk
    rw [hsame m hm hmk]
  case done =>
    intro m hm hmk
    have hdone := h.done_eq hstep
    have hidle := (starts_iff (h.noReset n le_rfl (by omega))).mp h.starts
    rcases Nat.lt_or_ge (n + k) m with hlt | hge
    · obtain rfl | rfl : m = n + k + 1 ∨ m = n + k + 2 := by omega
      · simp [Master.done, hdone]
      · rw [hstep, hdone]
        cases hr : (i (n + k + 1)).reset <;> simp [Master.done, step, nextState, hr]
    · have hne : m ≠ n + k + 1 := by omega
      rcases Nat.eq_or_lt_of_le hm with rfl | hlt
      · simp [Master.done, hidle.1, hne]
      · simp [Master.done, h.wait hstep hlt hge, hne]

end Stalled

/-- The outputs of a cycle do not both read and write when the latches did not. -/
theorem exclusive_outputs {s : State} {i : Inputs}
    (h : ¬ (s.latched.read = true ∧ s.latched.write = true)) :
    ¬ ((outputs s i).read = true ∧ (outputs s i).write = true) := by
  unfold outputs
  split
  · simp [Outputs.clear]
  · split
    · split <;> simp [Outputs.request, Outputs.clear]
    · exact h
    · split <;> exact h
    · simp [Outputs.clear]

theorem exclusive (he : resettable.Execution st i) (m : ℕ) :
    ¬ ((outputs (st m) (i m)).read = true ∧ (outputs (st m) (i m)).write = true) := by
  have hlatched : ¬ ((st m).latched.read = true ∧ (st m).latched.write = true) := by
    induction m with
    | zero =>
      obtain ⟨t, j, hj, hst⟩ := he.init
      simp [hst, step, outputs, hj, Outputs.clear]
    | succ m ih =>
      rw [he.step]
      exact exclusive_outputs ih
  exact exclusive_outputs hlatched

theorem execution_steady (he : resettable.Execution st i) : Steady st i where
  held _ _ h := h.held he.step
  exclusive := exclusive he

end Run

/-- A read in cycle 0 that the slave stalls for two cycles, while the other inputs change.  `rnw` is
low in cycle 3 only, and cycle 6 is a reset. -/
def stalledRead (t : ℕ) : Inputs where
  reset := t == 6
  readdata := BitVec.ofNat 32 (10 + t)
  waitrequest := decide (t < 2)
  dataToWrite := BitVec.ofNat 32 t
  rnw := t != 3
  start := true
  bytes := BitVec.ofNat 4 t
  addressToAccess := BitVec.ofNat 32 t

theorem execution_stalledRead :
    resettable.Execution (trajectory step afterReset stalledRead) stalledRead :=
  Circuit.execution_trajectory ⟨afterReset, { stalledRead 0 with reset := true }, rfl, rfl⟩
    fun _ _ => trivial

theorem steady_stalledRead : Steady (trajectory step afterReset stalledRead) stalledRead :=
  execution_steady execution_stalledRead

section ReadData

variable {st : ℕ → State} {i : ℕ → Inputs} {n k : ℕ}

/-- `data_read` in a cycle. -/
def dataRead (s : State) (i : Inputs) : BitVec 32 := (outputs s i).dataRead

/-- When the master is done, a read has returned the data of that cycle, and a write has left
`data_read` as it was before its start. -/
def Returns (st : ℕ → State) (i : ℕ → Inputs) (n k : ℕ) : Prop :=
  dataRead (st (n + k + 1)) (i (n + k + 1)) =
    if (i n).rnw then (i (n + k + 1)).readdata else (st n).latched.dataRead

/-- A start leaves `data_read` alone. -/
theorem dataRead_of_starts {s : State} {i : Inputs} (h : starts s i = true) :
    (outputs s i).dataRead = s.latched.dataRead := by
  rw [outputs_of_starts h]
  rfl

/-- In the cycle in which the master is done, the value of `rnw` in that cycle decides. -/
theorem dataRead_of_stalled (he : resettable.Execution st i) (h : Stalled st i n k)
    (hreset : (i (n + k + 1)).reset = false) :
    dataRead (st (n + k + 1)) (i (n + k + 1)) =
      if (i (n + k + 1)).rnw then (i (n + k + 1)).readdata else (st n).latched.dataRead := by
  rw [dataRead, h.done_eq he.step, ← dataRead_of_starts h.starts]
  generalize outputs (st n) (i n) = o
  cases hr : (i (n + k + 1)).rnw <;> simp [outputs, hreset, hr]

/-- A transaction returns its data if and only if `rnw` is the same when it starts and when it is
done, or the data of the last cycle is what `data_read` has been before the start. -/
theorem returns_iff (he : resettable.Execution st i) (h : Stalled st i n k)
    (hreset : (i (n + k + 1)).reset = false) :
    Returns st i n k ↔ (i (n + k + 1)).rnw = (i n).rnw ∨
      (i (n + k + 1)).readdata = (st n).latched.dataRead := by
  rw [Returns, dataRead_of_stalled he h hreset]
  cases hstart : (i n).rnw <;> cases hdone : (i (n + k + 1)).rnw <;> simp [eq_comm]

/-- The read that starts in cycle 4 returns its data. -/
theorem returns_stalledRead : Returns (trajectory step afterReset stalledRead) stalledRead 4 0 := by
  refine (returns_iff execution_stalledRead ⟨rfl, ?_, rfl, ?_⟩ rfl).mpr (.inl rfl)
  · intro m hm hmk
    omega
  · intro m hm hmk
    obtain rfl : m = 4 := by omega
    rfl

/-- The read that starts in cycle 0 returns what `data_read` was before, since `rnw` is low again
when it is done. -/
theorem not_returns_stalledRead :
    resettable.Execution (trajectory step afterReset stalledRead) stalledRead ∧
      Stalled (trajectory step afterReset stalledRead) stalledRead 0 2 ∧
      (stalledRead 0).rnw = true ∧
      ¬ Returns (trajectory step afterReset stalledRead) stalledRead 0 2 := by
  refine ⟨execution_stalledRead, ⟨rfl, ?_, rfl, ?_⟩, rfl, ?_⟩
  · intro m _ hm
    simpa [stalledRead] using hm
  · intro m _ hm
    simp only [stalledRead, beq_eq_false_iff_ne]
    omega
  · unfold Returns
    decide

end ReadData

end AvalonCores.AvalonMm.Master
