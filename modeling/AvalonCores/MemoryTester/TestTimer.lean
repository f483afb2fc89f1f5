import Mathlib.Tactic
import AvalonCores.Sync.Execution
import AvalonCores.MemoryTester.RamTestController

/-! The test timer of `mtm_ram_test_controller`: a free-running divider by the timer resolution,
whose ticks the timer counts while the start bit is set.  `Counting` describes the divider within a
period; a resolution of 2 can leave it `Stuck` instead, with a tick in every cycle. -/

namespace AvalonCores.MemoryTester.RamTestController

open Sync

/-- A write to the timer resolution. -/
def loadTimerResolution (s : State) (i : Inputs) : Bool := load s i 0b110#3

/-- The divider signals a tick. -/
def tick (s : State) : Bool := s.clearHighResTimerCounterD1

/-- What the divider has counted in the next cycle. -/
def nextHighResTimerCounter (s : State) : BitVec 16 :=
  if s.clearHighResTimerCounterD1 then 1#_ else s.highResTimerCounter + 1#_

/-- The divider is in cycle `j` of a period of `R` cycles, the last of which has the tick. -/
structure Counting (R j : ℕ) (s : State) : Prop where
  resolution : s.timerResolution.toNat = R
  minusOne : s.timerResolutionMinusOne = s.timerResolution - 1#_
  count : s.highResTimerCounter.toNat = j + 1
  last : tick s = decide (j + 1 = R)

/-- The divider compares the value that it restarts from with the last one of the period, which are
equal for a resolution of 2. -/
structure Stuck (s : State) : Prop where
  resolution : s.timerResolution = 2#_
  minusOne : s.timerResolutionMinusOne = 1#_
  count : s.highResTimerCounter = 1#_
  last : tick s = true

section Step

variable {s : State} {i : Inputs} {R j : ℕ}

theorem tick_step (hi : loadTimerResolution s i = false) :
    tick (step s i) = (s.highResTimerCounter == s.timerResolutionMinusOne) := by
  have : load s i 0b110#3 = false := hi
  simp [tick, step, clearHighResTimerCounter, this]

theorem timerResolution_step (hi : loadTimerResolution s i = false) :
    (step s i).timerResolution = s.timerResolution := by
  have : load s i 0b110#3 = false := hi
  simp [step, this]

/-- For a resolution that is not 0, the last count of a period but one is the resolution minus
one. -/
theorem toNat_sub_one (hR : 0 < s.timerResolution.toNat) :
    (s.timerResolution - 1#_).toNat = s.timerResolution.toNat - 1 := by
  have hone : 1#16 ≤ s.timerResolution := by
    rw [BitVec.le_def]
    simp only [BitVec.toNat_ofNat]
    omega
  rw [BitVec.toNat_sub_of_le hone]
  rfl

theorem Counting.next (hR : 2 ≤ R) (hj : j < R) (h : Counting R j s)
    (hi : loadTimerResolution s i = false) : Counting R ((j + 1) % R) (step s i) := by
  have hresolution := timerResolution_step hi
  have hlt := s.timerResolution.isLt
  have hsub := toNat_sub_one (s := s) (by rw [h.resolution]; omega)
  have hcompare : tick (step s i) = decide (j + 2 = R) := by
    rw [tick_step hi, h.minusOne, Bool.eq_iff_iff, beq_iff_eq, decide_eq_true_iff,
      ← BitVec.toNat_inj, h.count, hsub, h.resolution]
    omega
  constructor
  case resolution => rw [hresolution, h.resolution]
  case minusOne =>
    rw [hresolution]
    rfl
  case count =>
    have htick := h.last
    by_cases hlast : j + 1 = R
    · have hclear : s.clearHighResTimerCounterD1 = true := by simpa [tick, hlast] using htick
      simp [step, hclear, hlast]
    · have hclear : s.clearHighResTimerCounterD1 = false := by simpa [tick, hlast] using htick
      have := h.resolution
      simp only [step, hclear, Bool.false_eq_true, if_false, BitVec.toNat_add, h.count,
        BitVec.toNat_ofNat]
      rw [Nat.mod_eq_of_lt (by omega : j + 1 < R)]
      exact Nat.mod_eq_of_lt (by omega)
  case last =>
    rw [hcompare]
    by_cases hlast : j + 1 = R
    · rw [hlast, Nat.mod_self, decide_eq_decide]
      omega
    · rw [Nat.mod_eq_of_lt (by omega)]

theorem Stuck.next (h : Stuck s) (hi : loadTimerResolution s i = false) : Stuck (step s i) where
  resolution := by rw [timerResolution_step hi, h.resolution]
  minusOne := by
    have : (step s i).timerResolutionMinusOne = s.timerResolution - 1#_ := rfl
    rw [this, h.resolution]
    rfl
  count := by
    have hclear : s.clearHighResTimerCounterD1 = true := h.last
    simp [step, hclear]
  last := by rw [tick_step hi, h.count, h.minusOne, beq_self_eq_true]

/-- While the start bit is set, the timer counts the ticks. -/
theorem timerCounter_step (hs : s.start = true) :
    (step s i).timerCounter = s.timerCounter + BitVec.ofNat _ (tick s).toNat := by
  have hload : load s i 0b111#3 = false := by
    cases hw : i.csrWrite <;> simp [load, csrWaitrequest, hs, hw]
  cases ht : s.clearHighResTimerCounterD1 <;>
    simp [step, hload, incrementTimerCounter, tick, hs, ht]

end Step

/-- The controller from its reset on, with the default timer resolution `resolution`. -/
def circuit (resolution : BitVec 16) (blockSize : BitVec 24) (trailDistance : BitVec 8) :
    Circuit State Inputs where
  init s := s = reset resolution blockSize trailDistance
  admits _ _ := True
  step := step

section Execution

variable {st : ℕ → State} {i : ℕ → Inputs} {R e : ℕ}

/-- The timer resolution of cycle `e` is the default or has just been written. -/
def TakesEffect (st : ℕ → State) (i : ℕ → Inputs) (e : ℕ) : Prop :=
  e = 0 ∨ ∃ n, e = n + 1 ∧ loadTimerResolution (st n) (i n) = true

/-- Before cycle `T`, the timer resolution is not written. -/
def Keeps (st : ℕ → State) (i : ℕ → Inputs) (e T : ℕ) : Prop :=
  ∀ t, e ≤ t → t < T → loadTimerResolution (st t) (i t) = false

/-- From the second cycle after `e` on until cycle `T`, every cycle `R` clocks after a tick is one,
and there is no other tick.  The timer counts exactly the ticks while the start bit is set. -/
structure Times (R e T : ℕ) (st : ℕ → State) : Prop where
  ticks : ∃ f, e + 2 ≤ f ∧ f < e + 2 + R ∧
    ∀ t, e + 2 ≤ t → t ≤ T → (tick (st t) = true ↔ f ≤ t ∧ (t - f) % R = 0)
  counts : ∀ t, e ≤ t → t < T → (st t).start = true →
    (st (t + 1)).timerCounter = (st t).timerCounter + BitVec.ofNat _ (tick (st t)).toNat

/-- The divider has been restarted with a new resolution: it compares the count of the cycle before
with the end of the old period. -/
structure Restarted (R : ℕ) (s : State) : Prop where
  resolution : s.timerResolution.toNat = R
  minusOne : s.timerResolutionMinusOne = s.timerResolution - 1#_
  count : s.highResTimerCounter = 1#_

/-- The count that the last write of the timer resolution left is the end of the period before. -/
def coincides (s : State) : Bool := nextHighResTimerCounter s == s.timerResolution - 1#_

theorem restarted {resolution : BitVec 16} {blockSize : BitVec 24} {trailDistance : BitVec 8}
    (he : (circuit resolution blockSize trailDistance).Execution st i)
    (hres : (st e).timerResolution.toNat = R) (heff : TakesEffect st i e)
    (hkeep : loadTimerResolution (st e) (i e) = false) : Restarted R (st (e + 1)) := by
  have hstep : st (e + 1) = step (st e) (i e) := he.step e
  constructor
  case resolution => rw [hstep, timerResolution_step hkeep, hres]
  case minusOne =>
    rw [hstep, timerResolution_step hkeep]
    rfl
  case count =>
    rcases heff with rfl | ⟨n, rfl, hn⟩
    · rw [hstep, he.init]
      rfl
    · have hclear : (st (n + 1)).clearHighResTimerCounterD1 = true := by
        rw [he.step]
        simp only [circuit, step, clearHighResTimerCounter, Bool.or_eq_true]
        exact .inr hn
      rw [hstep]
      simp [step, hclear]

theorem tick_restarted {resolution : BitVec 16} {blockSize : BitVec 24} {trailDistance : BitVec 8}
    (he : (circuit resolution blockSize trailDistance).Execution st i) (heff : TakesEffect st i e)
    (hkeep : loadTimerResolution (st e) (i e) = false) :
    tick (st (e + 1)) = decide (e = 0 ∨ coincides (st (e - 1)) = true) := by
  have hstep : st (e + 1) = step (st e) (i e) := he.step e
  rw [hstep, tick_step hkeep]
  rcases heff with rfl | ⟨n, rfl, -⟩
  · rw [he.init]
    rfl
  · have hn : st (n + 1) = step (st n) (i n) := he.step n
    rw [hn, Bool.eq_iff_iff]
    simp [coincides, nextHighResTimerCounter, step]

/-- Between two writes of the timer resolution, the divider goes through its periods. -/
theorem counting_of_keeps (hstep : ∀ t, st (t + 1) = step (st t) (i t)) (hR : 2 ≤ R) {a T : ℕ}
    (ha : Counting R 0 (st a)) (hkeep : Keeps st i a T) (d : ℕ) (hd : a + d ≤ T) :
    Counting R (d % R) (st (a + d)) := by
  induction d with
  | zero => simpa using ha
  | succ d ih =>
    have hnext := (ih (by omega)).next hR (Nat.mod_lt _ (by omega))
      (hkeep (a + d) (by omega) (by omega))
    rw [Nat.mod_add_mod] at hnext
    rw [← Nat.add_assoc, hstep]
    exact hnext

theorem stuck_of_keeps (hstep : ∀ t, st (t + 1) = step (st t) (i t)) {a T : ℕ}
    (ha : Stuck (st a)) (hkeep : Keeps st i a T) (d : ℕ) (hd : a + d ≤ T) :
    Stuck (st (a + d)) := by
  induction d with
  | zero => exact ha
  | succ d ih =>
    rw [← Nat.add_assoc, hstep]
    exact (ih (by omega)).next (hkeep (a + d) (by omega) (by omega))

theorem times_counts (hstep : ∀ t, st (t + 1) = step (st t) (i t)) (t : ℕ)
    (hs : (st t).start = true) :
    (st (t + 1)).timerCounter = (st t).timerCounter + BitVec.ofNat _ (tick (st t)).toNat := by
  rw [hstep]
  exact timerCounter_step hs

/-- The last cycles of the periods are those before the multiples of the period. -/
theorem last_iff {j : ℕ} (hR : 0 < R) : j % R + 1 = R ↔ R ≤ j + 1 ∧ (j + 1 - R) % R = 0 := by
  have hlt := Nat.mod_lt j hR
  have hdvd : j % R + 1 = R ↔ (j + 1) % R = 0 := by
    rw [← Nat.mod_add_mod]
    rcases Nat.eq_or_lt_of_le (Nat.succ_le_of_lt hlt) with heq | hne
    · rw [Nat.succ_eq_add_one] at heq
      simp [heq]
    · rw [Nat.mod_eq_of_lt hne]
      omega
  rw [hdvd]
  constructor
  · intro h
    have hle : R ≤ j + 1 := Nat.le_of_dvd (Nat.succ_pos j) (Nat.dvd_of_mod_eq_zero h)
    obtain ⟨k, hk⟩ := Nat.exists_eq_add_of_le hle
    rw [hk, Nat.add_mod_left] at h
    exact ⟨hle, by rwa [hk, Nat.add_sub_cancel_left]⟩
  · rintro ⟨hle, h⟩
    obtain ⟨k, hk⟩ := Nat.exists_eq_add_of_le hle
    rwa [hk, Nat.add_sub_cancel_left, ← Nat.add_mod_left, ← hk] at h

/-- A divider that begins a period in one of the two cycles after `e` ticks at the programmed
rate. -/
theorem times_of_counting (hstep : ∀ t, st (t + 1) = step (st t) (i t)) (hR : 2 ≤ R) {a T : ℕ}
    (ha : Counting R 0 (st a)) (hkeep : Keeps st i e T) (hea : e + 1 ≤ a) (hae : a ≤ e + 2) :
    Times R e T st where
  ticks := by
    refine ⟨a + R - 1, by omega, by omega, fun t ht htT => ?_⟩
    obtain ⟨j, rfl⟩ := Nat.exists_eq_add_of_le (show a ≤ t by omega)
    have hcount := counting_of_keeps hstep hR ha (fun u hu huT => hkeep u (by omega) huT) j htT
    rw [hcount.last, decide_eq_true_iff, last_iff (by omega),
      show a + j - (a + R - 1) = j + 1 - R by omega]
    refine and_congr_left fun _ => ?_
    omega
  counts t _ _ hs := times_counts hstep t hs

/-- A divider that has ticked in the cycle before restarts its period, or is stuck. -/
theorem Restarted.next {s : State} {i : Inputs} (hR : 2 ≤ R) (h : Restarted R s)
    (ht : tick s = true) (hi : loadTimerResolution s i = false) :
    if R = 2 then Stuck (step s i) else Counting R 0 (step s i) := by
  have hclear : s.clearHighResTimerCounterD1 = true := ht
  have hcount : (step s i).highResTimerCounter = 1#_ := by simp [step, hclear]
  have hsub := toNat_sub_one (s := s) (by rw [h.resolution]; omega)
  have hlast : tick (step s i) = decide (R = 2) := by
    rw [tick_step hi, h.count, h.minusOne, Bool.eq_iff_iff, beq_iff_eq, decide_eq_true_iff,
      ← BitVec.toNat_inj, hsub, h.resolution, BitVec.toNat_ofNat]
    omega
  have hminus : (step s i).timerResolutionMinusOne = s.timerResolution - 1#_ := rfl
  split
  · rename_i htwo
    have hres : s.timerResolution = 2#_ := by
      apply BitVec.eq_of_toNat_eq
      rw [h.resolution, htwo]
      rfl
    refine ⟨by rw [timerResolution_step hi, hres], ?_, hcount, by rw [hlast, htwo]; rfl⟩
    rw [hminus, hres]
    rfl
  · rename_i hne
    refine ⟨by rw [timerResolution_step hi, h.resolution], ?_, by rw [hcount]; rfl, ?_⟩
    · rw [hminus, timerResolution_step hi]
    · rw [hlast, decide_eq_decide]
      omega

/-- The timer keeps to a resolution of at least 3.  It keeps to a resolution of 2 if and only if the
divider does not reach the end of the old period in the cycle after the write, or the resolution is
changed at once; it never keeps to a default of 2. -/
theorem times_iff {resolution : BitVec 16} {blockSize : BitVec 24} {trailDistance : BitVec 8}
    {T : ℕ} (he : (circuit resolution blockSize trailDistance).Execution st i) (hR : 2 ≤ R)
    (hres : (st e).timerResolution.toNat = R) (heff : TakesEffect st i e)
    (hkeep : Keeps st i e T) :
    Times R e T st ↔ 3 ≤ R ∨ T < e + 3 ∨ e ≠ 0 ∧ coincides (st (e - 1)) = false := by
  have hstep : ∀ t, st (t + 1) = step (st t) (i t) := he.step
  rcases Nat.lt_or_ge T (e + 3) with hshort | hlong
  · -- At most one cycle of the range is left, in which there may be a tick.
    refine iff_of_true ⟨?_, fun t _ _ hs => times_counts hstep t hs⟩ (.inr (.inl hshort))
    cases ht : tick (st (e + 2)) with
    | false =>
      refine ⟨e + 3, by omega, by omega, fun t hle htT => ?_⟩
      obtain rfl : t = e + 2 := by omega
      simp [ht]
    | true =>
      refine ⟨e + 2, by omega, by omega, fun t hle htT => ?_⟩
      obtain rfl : t = e + 2 := by omega
      simp [ht]
  · have hi0 := hkeep e le_rfl (by omega)
    have hi1 := hkeep (e + 1) (by omega) (by omega)
    have hrestarted := restarted he hres heff hi0
    have htick := tick_restarted he heff hi0
    by_cases hx : e = 0 ∨ coincides (st (e - 1)) = true
    · rw [decide_eq_true hx] at htick
      have hnext := hrestarted.next hR htick hi1
      rw [← hstep] at hnext
      by_cases htwo : R = 2
      · rw [if_pos htwo] at hnext
        have hnot : ¬ (3 ≤ R ∨ T < e + 3 ∨ e ≠ 0 ∧ coincides (st (e - 1)) = false) := by
          rintro (h3 | hT | ⟨hne, hfalse⟩)
          · omega
          · omega
          · rw [hfalse] at hx
            simp [hne] at hx
        refine iff_of_false (fun h => ?_) hnot
        -- The ticks of two successive cycles are not two cycles apart.
        obtain ⟨f, hf, -, hticks⟩ := h.ticks
        have hkeep' : Keeps st i (e + 2) T := fun u hu huT => hkeep u (by omega) huT
        have h3 := stuck_of_keeps hstep hnext hkeep' 1 (by omega)
        have hf2 := (hticks (e + 2) le_rfl (by omega)).mp hnext.last
        have hf3 := (hticks (e + 3) (by omega) hlong).mp h3.last
        rw [htwo] at hf2 hf3
        omega
      · rw [if_neg htwo] at hnext
        exact iff_of_true (times_of_counting hstep hR hnext hkeep (by omega) le_rfl)
          (.inl (by omega))
    · rw [decide_eq_false hx] at htick
      have hcounting : Counting R 0 (st (e + 1)) := by
        refine ⟨hrestarted.resolution, hrestarted.minusOne, by rw [hrestarted.count]; rfl, ?_⟩
        rw [htick, eq_comm, decide_eq_false_iff_not]
        omega
      refine iff_of_true (times_of_counting hstep hR hcounting hkeep le_rfl (by omega)) ?_
      rw [not_or] at hx
      exact .inr (.inr ⟨hx.1, by simpa using hx.2⟩)

end Execution

/-- The controller is idle but for a write of the timer resolution 2 in cycle `n`. -/
def writeTwo (n t : ℕ) : Inputs where
  csrAddress := 0b110#3
  csrRead := false
  csrWrite := t == n
  csrWritedata := 2#_
  csrByteenable := 0xF#_
  srcWriteCommandReady := true
  srcReadCommandReady := true
  writeFifoIdle := ⟨false, 0#_, 0#_⟩
  readFifoIdle := ⟨false, 0#_, 0#_⟩

/-- The states after a reset to the default resolution 10. -/
def writtenTwo (n : ℕ) : ℕ → State := trajectory step (reset 10#_ 1024#_ 1#_) (writeTwo n)

theorem execution_writeTwo (n : ℕ) :
    (circuit 10#_ 1024#_ 1#_).Execution (writtenTwo n) (writeTwo n) :=
  Circuit.execution_trajectory rfl fun _ _ => trivial

theorem keeps_writeTwo (n T : ℕ) : Keeps (writtenTwo n) (writeTwo n) (n + 1) T := by
  intro t ht _
  have hne : t ≠ n := by omega
  simp [loadTimerResolution, load, writeTwo, hne]

/-- The divider has counted 3 when the write in cycle 3 takes effect. -/
theorem times_writeTwo : Times 2 4 100 (writtenTwo 3) := by
  refine (times_iff (execution_writeTwo 3) le_rfl rfl (.inr ⟨3, rfl, rfl⟩)
    (keeps_writeTwo 3 100)).mpr (.inr (.inr ⟨by decide, ?_⟩))
  decide

/-- The divider has counted 9, the end of the period of 10, when the write in cycle 9 takes effect,
and ticks in every cycle from then on. -/
theorem not_times_writeTwo :
    (circuit 10#_ 1024#_ 1#_).Execution (writtenTwo 9) (writeTwo 9) ∧
      TakesEffect (writtenTwo 9) (writeTwo 9) 10 ∧
      (writtenTwo 9 10).timerResolution = 2#_ ∧
      Keeps (writtenTwo 9) (writeTwo 9) 10 13 ∧ ¬ Times 2 10 13 (writtenTwo 9) := by
  refine ⟨execution_writeTwo 9, .inr ⟨9, rfl, by decide⟩, by decide, keeps_writeTwo 9 13, ?_⟩
  intro h
  obtain ⟨f, hf, -, hticks⟩ := h.ticks
  have h12 := (hticks 12 (by omega) (by omega)).mp (by decide)
  have h13 := (hticks 13 (by omega) (by omega)).mp (by decide)
  omega

end AvalonCores.MemoryTester.RamTestController
