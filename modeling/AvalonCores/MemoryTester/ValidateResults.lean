import Mathlib.Tactic

/-! `validate_results` of `main.c`, which polls the run bit of a checker and then tells the outcome
of a run.  The outcome is taken from the counter of the loop alone, and the failure bit of the
custom pattern checker is looked at in every test. -/

namespace AvalonCores.MemoryTester.ValidateResults

def prbsTestNumber : BitVec 32 := 7#32

/-- `TIMEOUT`, which the loop looks at instead of the parameter `timeout`. -/
def timeout : BitVec 32 := 0x7FFFFFFF#32

/-- What the read functions of the two checkers return, those of the run bits in poll `n`. -/
structure Reads where
  prbsCheckerReadStart : ℕ → BitVec 8
  checkerReadStart : ℕ → BitVec 8
  prbsCheckerReadFailureDetected : BitVec 8
  checkerReadFailureDetected : BitVec 8

section Model

variable (r : Reads) (minorTestNumber : BitVec 32)

/-- The run bit of the checker that the test uses, in poll `n`. -/
def selectedStart (n : ℕ) : BitVec 8 :=
  if minorTestNumber = prbsTestNumber then r.prbsCheckerReadStart n else r.checkerReadStart n

/-- The number of polls that are left decreases, also where the counter wraps. -/
theorem measure_next {counter : BitVec 32} (h : counter + 1#32 ≠ timeout) :
    (timeout - 1#32 - (counter + 1#32)).toNat < (timeout - 1#32 - counter).toNat := by
  bv_omega

/-- The `do` loop from its iteration `polls` on: the counter after it, and the number of polls. -/
def pollLoop (counter : BitVec 32) (polls : ℕ) : BitVec 32 × ℕ :=
  let transferDone := selectedStart r minorTestNumber polls == 0#8
  let counter' := counter + 1#32
  if h : counter' ≠ timeout ∧ transferDone = false then pollLoop counter' (polls + 1)
  else (counter', polls + 1)
termination_by (timeout - 1#32 - counter).toNat
decreasing_by exact measure_next h.1

/-- 2 after a timeout, else 1 after a failure, else 0. -/
def validateResults : ℤ :=
  if (pollLoop r minorTestNumber 0#32 0).1 = timeout then 2
  else if minorTestNumber = prbsTestNumber ∧ r.prbsCheckerReadFailureDetected = 1#8 then 1
  else if r.checkerReadFailureDetected = 1#8 then 1
  else 0

/-- The failure bit of the checker that the test uses. -/
def selectedFailureDetected : BitVec 8 :=
  if minorTestNumber = prbsTestNumber then r.prbsCheckerReadFailureDetected
  else r.checkerReadFailureDetected

end Model

section Loop

variable {r : Reads} {minorTestNumber : BitVec 32} {n : ℕ}

theorem pollLoop_next (hn : n + 1 < timeout.toNat) (h : selectedStart r minorTestNumber n ≠ 0#8) :
    pollLoop r minorTestNumber (BitVec.ofNat 32 n) n =
      pollLoop r minorTestNumber (BitVec.ofNat 32 (n + 1)) (n + 1) := by
  have hcounter : BitVec.ofNat 32 n + 1#32 = BitVec.ofNat 32 (n + 1) := (BitVec.ofNat_add ..).symm
  have hne : BitVec.ofNat 32 (n + 1) ≠ timeout := by
    have := timeout.isLt
    bv_omega
  rw [pollLoop, hcounter, dif_pos ⟨hne, beq_false_of_ne h⟩]

theorem pollLoop_stop (h : n + 1 = timeout.toNat ∨ selectedStart r minorTestNumber n = 0#8) :
    pollLoop r minorTestNumber (BitVec.ofNat 32 n) n = (BitVec.ofNat 32 (n + 1), n + 1) := by
  have hcounter : BitVec.ofNat 32 n + 1#32 = BitVec.ofNat 32 (n + 1) := (BitVec.ofNat_add ..).symm
  rw [pollLoop, hcounter, dif_neg]
  rintro ⟨hne, hpending⟩
  rcases h with hlast | hzero
  · rw [hlast, BitVec.ofNat_toNat, BitVec.setWidth_eq] at hne
    contradiction
  · rw [hzero, beq_self_eq_true] at hpending
    contradiction

/-- The loop ends with the first poll that reads 0, and with poll `timeout` at the latest. -/
theorem pollLoop_stops (r : Reads) (minorTestNumber : BitVec 32) (hn : n < timeout.toNat) :
    ∃ m, pollLoop r minorTestNumber (BitVec.ofNat 32 n) n = (BitVec.ofNat 32 m, m) ∧
      n < m ∧ m ≤ timeout.toNat ∧
      (∀ j, n ≤ j → j + 1 < m → selectedStart r minorTestNumber j ≠ 0#8) ∧
      (m < timeout.toNat → selectedStart r minorTestNumber (m - 1) = 0#8) := by
  induction hk : timeout.toNat - n generalizing n with
  | zero => omega
  | succ k ih =>
    by_cases hstop : n + 1 = timeout.toNat ∨ selectedStart r minorTestNumber n = 0#8
    · refine ⟨n + 1, pollLoop_stop hstop, Nat.lt_succ_self n, hn, fun j hj hlt => ?_, fun hlt => ?_⟩
      · omega
      · exact hstop.resolve_left hlt.ne
    · obtain ⟨hlast, hpending⟩ := not_or.mp hstop
      obtain ⟨m, heq, hlt, hle, hnone, hzero⟩ := ih (n := n + 1) (by omega) (by omega)
      refine ⟨m, (pollLoop_next (by omega) hpending).trans heq, by omega, hle, fun j hj hjm => ?_,
        hzero⟩
      rcases Nat.eq_or_lt_of_le hj with rfl | hj
      · exact hpending
      · exact hnone j hj hjm

theorem polls_le : (pollLoop r minorTestNumber 0#32 0).2 ≤ timeout.toNat := by
  obtain ⟨m, heq, -, hle, -⟩ := pollLoop_stops r minorTestNumber (n := 0) (by decide)
  rw [heq]
  exact hle

/-- No poll before the last one reads 0. -/
def Late (r : Reads) (minorTestNumber : BitVec 32) : Prop :=
  ∀ n, n + 1 < timeout.toNat → selectedStart r minorTestNumber n ≠ 0#8

/-- The counter does not tell whether the last poll reads 0. -/
theorem counter_eq_timeout_iff :
    (pollLoop r minorTestNumber 0#32 0).1 = timeout ↔ Late r minorTestNumber := by
  obtain ⟨m, heq, hpos, hle, hnone, hzero⟩ := pollLoop_stops r minorTestNumber (n := 0) (by decide)
  rw [heq]
  rcases Nat.lt_or_eq_of_le hle with hlt | rfl
  · refine iff_of_false (fun h => ?_) fun hlate => hlate (m - 1) (by omega) (hzero hlt)
    have := timeout.isLt
    bv_omega
  · refine iff_of_true ?_ fun n hn => hnone n (Nat.zero_le n) hn
    rw [BitVec.ofNat_toNat, BitVec.setWidth_eq]

theorem validateResults_eq_two_iff :
    validateResults r minorTestNumber = 2 ↔ Late r minorTestNumber := by
  rw [← counter_eq_timeout_iff]
  unfold validateResults
  split_ifs <;> simp_all

/-- In time, the result is that of the failure bit of the checker that the test uses, or of the
other one in a test with the PRBS checker. -/
theorem validateResults_eq_one_iff (h : ¬ Late r minorTestNumber) :
    validateResults r minorTestNumber = 1 ↔
      selectedFailureDetected r minorTestNumber = 1#8 ∨
        minorTestNumber = prbsTestNumber ∧ r.checkerReadFailureDetected = 1#8 := by
  rw [← counter_eq_timeout_iff] at h
  unfold validateResults selectedFailureDetected
  rw [if_neg h]
  split_ifs <;> simp_all

theorem validateResults_mem : validateResults r minorTestNumber = 2 ∨
    validateResults r minorTestNumber = 1 ∨ validateResults r minorTestNumber = 0 := by
  unfold validateResults
  split_ifs <;> simp

end Loop

/-- The result tells whether the run has timed out, and if not, whether it has failed. -/
structure Classifies (r : Reads) (minorTestNumber : BitVec 32) : Prop where
  timedOut : validateResults r minorTestNumber = 2 ↔
    ∀ n < timeout.toNat, selectedStart r minorTestNumber n ≠ 0#8
  failed : validateResults r minorTestNumber ≠ 2 →
    (validateResults r minorTestNumber = 1 ↔ selectedFailureDetected r minorTestNumber = 1#8)
  passed : validateResults r minorTestNumber ≠ 2 → validateResults r minorTestNumber ≠ 1 →
    validateResults r minorTestNumber = 0
  polls : (pollLoop r minorTestNumber 0#32 0).2 ≤ timeout.toNat

/-- The last poll is not the first one that reads 0, and in a test with the PRBS checker that ends
in time the custom pattern checker shows no failure of its own. -/
structure Unambiguous (r : Reads) (minorTestNumber : BitVec 32) : Prop where
  last : Late r minorTestNumber → selectedStart r minorTestNumber (timeout.toNat - 1) ≠ 0#8
  stale : minorTestNumber = prbsTestNumber → r.checkerReadFailureDetected = 1#8 →
    r.prbsCheckerReadFailureDetected ≠ 1#8 → Late r minorTestNumber

/-- The result is right exactly when it does not hang on the last poll, or on a failure bit that
another test has left. -/
theorem classifies_iff (r : Reads) (minorTestNumber : BitVec 32) :
    Classifies r minorTestNumber ↔ Unambiguous r minorTestNumber := by
  have hpositive : 0 < timeout.toNat := by decide
  constructor
  · intro h
    refine ⟨fun hlate => ?_, fun hprbs hother hselected => ?_⟩
    · exact h.timedOut.1 (validateResults_eq_two_iff.2 hlate) _ (by omega)
    · by_contra hlate
      have hone := (validateResults_eq_one_iff hlate).2 (.inr ⟨hprbs, hother⟩)
      have hfailure := (h.failed (mt validateResults_eq_two_iff.1 hlate)).1 hone
      rw [selectedFailureDetected, if_pos hprbs] at hfailure
      contradiction
  · intro h
    refine ⟨?_, fun hlate => ?_, fun htwo hone => ?_, polls_le⟩
    · rw [validateResults_eq_two_iff]
      refine ⟨fun hlate n hn => ?_, fun hall n hn => hall n (by omega)⟩
      by_cases hlast : n + 1 < timeout.toNat
      · exact hlate n hlast
      · obtain rfl : n = timeout.toNat - 1 := by omega
        exact h.last hlate
    · rw [ne_eq, validateResults_eq_two_iff] at hlate
      rw [validateResults_eq_one_iff hlate, or_iff_left_iff_imp]
      rintro ⟨hprbs, hother⟩
      by_contra hselected
      rw [selectedFailureDetected, if_pos hprbs] at hselected
      exact hlate (h.stale hprbs hother hselected)
    · exact (validateResults_mem.resolve_left htwo).resolve_left hone

/-- The run bits read 0 in poll `n` for the first time, and the failure bits read `p` and `c`. -/
def endsIn (n : ℕ) (p c : BitVec 8) : Reads :=
  ⟨fun k => if k < n then 1#8 else 0#8, fun k => if k < n then 1#8 else 0#8, p, c⟩

/-- A run that ends in the last poll is reported as one that has timed out, and one of the PRBS
checker as failed after a failure of the custom pattern checker. -/
theorem not_classifies_endsIn :
    ¬ Classifies (endsIn 0x7FFFFFFE 0#8 0#8) 0#32 ∧ ¬ Classifies (endsIn 0 0#8 1#8) 7#32 := by
  constructor
  · intro h
    have hlate : Late (endsIn 0x7FFFFFFE 0#8 0#8) 0#32 := by
      intro n hn
      have htimeout : timeout.toNat = 0x7FFFFFFF := rfl
      have hlt : n < 0x7FFFFFFE := by omega
      simp [selectedStart, endsIn, prbsTestNumber, hlt]
    refine h.timedOut.1 (validateResults_eq_two_iff.2 hlate) 0x7FFFFFFE (by decide) ?_
    simp [selectedStart, endsIn, prbsTestNumber]
  · intro h
    have hlate : ¬ Late (endsIn 0 0#8 1#8) 7#32 := fun hlate => hlate 0 (by decide) rfl
    have hone := (validateResults_eq_one_iff hlate).2 (.inr ⟨rfl, rfl⟩)
    have hfailure := (h.failed (mt validateResults_eq_two_iff.1 hlate)).1 hone
    exact absurd hfailure (by decide)

end AvalonCores.MemoryTester.ValidateResults
