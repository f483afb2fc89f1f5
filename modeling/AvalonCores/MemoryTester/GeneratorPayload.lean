import Mathlib.Tactic
import AvalonCores.MemoryTester.CustomPatternGenerator

/-! The payload counter of `mtm_custom_pattern_generator` over any number of runs without a new
payload.  The generator reads no word in the cycle in which it clears the run bit, and still takes a
word off the counter in it when the sink is ready. -/

namespace AvalonCores.MemoryTester.CustomPatternGenerator

open Sync CustomPattern

variable {a m n : ℕ}

/-- A payload of `n` words has been loaded in finite mode, and the generator is stopped. -/
structure Loaded (n : ℕ) (s : State a m) : Prop where
  start : s.start = false
  infinite : s.infinitePayloadLength = false
  payload : s.payloadLengthCounter.toNat = n * m

/-- An access writes the byte of the run bit, or nothing. -/
def WritesRun (c : Csr) : Prop := c.write = true → c.address = 2#2 ∧ c.byteenable = 0b1000#4

/-- The generator under any writes of the run bit. -/
def payloadRun (a m n : ℕ) : Circuit (State a m) (Inputs m) where
  init := Loaded n
  admits _ i := WritesRun i.csr
  step := step

/-- The counter does not exceed the payload.  From the cycle after the one in which the generator
clears the run bit, it reads 0, and no word follows those that are under way then. -/
structure Drains (n : ℕ) (st : ℕ → State a m) : Prop where
  bounded : ∀ t, (st t).payloadLengthCounter.toNat ≤ n * m
  exhausted : ∀ t, clearStart (st t) = true → ∀ u, t < u → (st u).payloadLengthCounter = 0#_
  silent : ∀ t, clearStart (st t) = true → ∀ u, t + 3 ≤ u → srcValid (st u) = false

/-- The sink is not ready in a cycle in which the generator clears the run bit. -/
def PausesAtEnd (st : ℕ → State a m) (i : ℕ → Inputs m) : Prop :=
  ∀ t, clearStart (st t) = true → (i t).srcReady = false

section Step

variable {s : State a m} {i : Inputs m}

theorem payload_step (hw : WritesRun i.csr) :
    (step s i).payloadLengthCounter =
      if decrementPayloadLengthCounter s i then s.payloadLengthCounter - BitVec.ofNat _ m
      else s.payloadLengthCounter := by
  have hload : loadPayloadLengthCounter i.csr = false := by
    cases h : i.csr.write with
    | false => simp [loadPayloadLengthCounter, h]
    | true => simp [loadPayloadLengthCounter, Csr.loads, (hw h).1]
  simp [step, nextPayloadLength, hload]

theorem infinite_step (hw : WritesRun i.csr) :
    (step s i).infinitePayloadLength = s.infinitePayloadLength := by
  have hload : loadInfinitePayloadLength i.csr = false := by
    cases h : i.csr.write with
    | false => simp [loadInfinitePayloadLength, h]
    | true => simp [loadInfinitePayloadLength, Csr.loadsLane, (hw h).2]
  simp [step, hload]

theorem payload_of_clearStart (h : clearStart s = true) : s.payloadLengthCounter = 0#_ := by
  simp only [clearStart, Bool.and_eq_true, beq_iff_eq] at h
  exact h.2

/-- In finite mode, a ready cycle of a run with an empty counter clears the run bit. -/
theorem clearStart_of_decrement (hd : decrementPayloadLengthCounter s i = true)
    (hp : s.payloadLengthCounter = 0#_) : clearStart s = true ∧ i.srcReady = true := by
  simp only [decrementPayloadLengthCounter, Bool.and_eq_true] at hd
  simp [clearStart, hd.1.1, hd.1.2, hd.2, hp]

end Step

section Execution

variable {st : ℕ → State a m} {i : ℕ → Inputs m} {t u : ℕ}

theorem finite (he : (payloadRun a m n).Execution st i) (t : ℕ) :
    (st t).infinitePayloadLength = false := by
  induction t with
  | zero => exact he.init.infinite
  | succ t ih =>
    rw [he.step, payloadRun, infinite_step (he.admits t), ih]

namespace PausesAtEnd

/-- The counter shows a number of whole words, which only falls. -/
theorem words (he : (payloadRun a m n).Execution st i) (h : PausesAtEnd st i) (t : ℕ) :
    ∃ k ≤ n, (st t).payloadLengthCounter.toNat = k * m := by
  induction t with
  | zero => exact ⟨n, le_rfl, he.init.payload⟩
  | succ t ih =>
    obtain ⟨k, hk, hp⟩ := ih
    rw [he.step, payloadRun, payload_step (he.admits t)]
    cases hd : decrementPayloadLengthCounter (st t) (i t) with
    | false => exact ⟨k, hk, by simpa using hp⟩
    | true =>
      have hne : (st t).payloadLengthCounter ≠ 0#_ := by
        intro hzero
        obtain ⟨hclear, hready⟩ := clearStart_of_decrement hd hzero
        rw [h t hclear] at hready
        contradiction
      cases k with
      | zero => exact absurd (BitVec.eq_of_toNat_eq (by simpa using hp)) hne
      | succ k =>
        have hsize := (st t).payloadLengthCounter.isLt
        rw [Nat.succ_mul] at hp
        have hword : (BitVec.ofNat 32 m).toNat = m := by
          rw [BitVec.toNat_ofNat]
          exact Nat.mod_eq_of_lt (by omega)
        refine ⟨k, by omega, ?_⟩
        rw [if_pos rfl, BitVec.toNat_sub_of_le (by rw [BitVec.le_def, hword]; omega), hword, hp,
          Nat.add_sub_cancel]

/-- An empty counter stays empty. -/
theorem empty (he : (payloadRun a m n).Execution st i) (h : PausesAtEnd st i)
    (hp : (st t).payloadLengthCounter = 0#_) (hu : t ≤ u) :
    (st u).payloadLengthCounter = 0#_ := by
  induction u, hu using Nat.le_induction with
  | base => exact hp
  | succ u _ ih =>
    rw [he.step, payloadRun, payload_step (he.admits u)]
    cases hd : decrementPayloadLengthCounter (st u) (i u) with
    | false => simpa using ih
    | true =>
      obtain ⟨hclear, hready⟩ := clearStart_of_decrement hd ih
      rw [h u hclear] at hready
      contradiction

theorem drains (he : (payloadRun a m n).Execution st i) (h : PausesAtEnd st i) :
    Drains n st where
  bounded t := by
    obtain ⟨k, hk, hp⟩ := h.words he t
    rw [hp]
    exact Nat.mul_le_mul_right m hk
  exhausted t hclear u hu := h.empty he (payload_of_clearStart hclear) hu.le
  silent t hclear u hu := by
    obtain ⟨d, rfl⟩ := Nat.exists_eq_add_of_le hu
    have hp := h.empty he (payload_of_clearStart hclear) (Nat.le_add_right t d)
    have hread : readMemory (st (t + d)) (i (t + d)) = false := by
      simp [readMemory, finite he, hp]
    have hvalid : srcValid (st (t + d + 3)) = readMemory (st (t + d)) (i (t + d)) := by
      rw [he.step, he.step, he.step]
      rfl
    rw [show t + 3 + d = t + d + 3 by omega, hvalid, hread]

end PausesAtEnd

/-- A ready sink makes the counter wrap in the cycle in which the run bit is cleared. -/
theorem Drains.pausesAtEnd (hm : 0 < m) (hfit : m < 2 ^ 32)
    (he : (payloadRun a m n).Execution st i) (h : Drains n st) : PausesAtEnd st i := by
  intro t hclear
  by_contra hready
  rw [Bool.not_eq_false] at hready
  have hnext := h.exhausted t hclear (t + 1) (Nat.lt_succ_self t)
  have hstart : (st t).start = true := by
    simp only [clearStart, Bool.and_eq_true] at hclear
    exact hclear.1.1
  have hd : decrementPayloadLengthCounter (st t) (i t) = true := by
    simp [decrementPayloadLengthCounter, hstart, hready, finite he t]
  rw [he.step, payloadRun, payload_step (he.admits t), hd, if_pos rfl,
    payload_of_clearStart hclear, ← BitVec.toNat_inj] at hnext
  simp only [BitVec.zero_sub, BitVec.toNat_neg, BitVec.toNat_ofNat, Nat.zero_mod] at hnext
  omega

/-- The payload counter does not wrap in any number of runs if and only if the sink is never ready
in the last cycle of a run. -/
theorem drains_iff (hm : 0 < m) (hfit : m < 2 ^ 32) (he : (payloadRun a m n).Execution st i) :
    Drains n st ↔ PausesAtEnd st i :=
  ⟨fun h => h.pausesAtEnd hm hfit he, fun h => h.drains he⟩

end Execution

/-- A stopped generator with a payload of one word of a byte. -/
def oneWord : State 1 1 := { reset with payloadLengthCounter := 1#_, patternLength := 2#_ }

/-- The run bit is set in the cycles 0 and 5, and the sink is ready in the cycles that `p` names. -/
def runTwice (p : ℕ → Bool) (t : ℕ) : Inputs 1 where
  csr := if t == 0 || t == 5 then CustomPatternGenerator.run.csr else Csr.none
  srcReady := p t
  memoryData := 0#_

theorem execution_runTwice (p : ℕ → Bool) :
    (payloadRun 1 1 1).Execution (trajectory step oneWord (runTwice p)) (runTwice p) := by
  refine Circuit.execution_trajectory ⟨rfl, rfl, rfl⟩ fun _ t => ?_
  simp only [payloadRun, runTwice]
  split
  · exact fun _ => ⟨rfl, rfl⟩
  · exact fun h => absurd h (by decide)

/-- A sink that is ready in the cycle of the word only gets no more words from the second run. -/
theorem drains_runTwice :
    (payloadRun 1 1 1).Execution (trajectory step oneWord (runTwice (· == 1)))
        (runTwice (· == 1)) ∧
      Drains 1 (trajectory step oneWord (runTwice (· == 1))) := by
  refine ⟨execution_runTwice _, (drains_iff (by decide) (by decide) (execution_runTwice _)).2 ?_⟩
  intro t hclear
  by_cases ht : t = 1
  · subst ht
    exact absurd hclear (by decide)
  · simpa [runTwice] using ht

/-- A sink that is always ready leaves the largest value in the counter. -/
theorem not_drains_runTwice :
    (payloadRun 1 1 1).Execution (trajectory step oneWord (runTwice fun _ => true))
        (runTwice fun _ => true) ∧
      ¬ Drains 1 (trajectory step oneWord (runTwice fun _ => true)) := by
  refine ⟨execution_runTwice _, fun h => ?_⟩
  have hwrapped := h.exhausted 2 (by decide) 3 (by decide)
  exact absurd hwrapped (by decide)

end AvalonCores.MemoryTester.CustomPatternGenerator
