import Mathlib.Tactic
import AvalonCores.Sync.Execution
import AvalonCores.MemoryTester.ChopperFsm

/-! The commands that the chopper writes after a rise of `enable`, cycle by cycle.  `Paced` adds to
`Chopping` the number of cycles with room in the FIFO, which the ring takes one stage each. -/

namespace AvalonCores.MemoryTester.ChopperFsm

open Sync

/-- The chopper has written `k` blocks of `t` in `f` cycles with room since it was initialised. -/
structure Paced (t : Transfer) (f k : ℕ) (s : State) : Prop where
  chopping : Chopping t k s
  advance : s.state = 0b0001#4 → f + 1 = 4 * k
  address : s.state = 0b0010#4 → f = 4 * k
  length : s.state = 0b0100#4 → f = 4 * k + 1
  write : s.state = 0b1000#4 → f = 4 * k + 2
  stopped : s.state = 0b0000#4 → 4 * t.blockCount ≤ f + 1

namespace Paced

variable {t : Transfer} {f k : ℕ} {s : State} {i : Inputs}

theorem start (hs : s.enableD1 = false) (hi : i.enable = true) (ht : i.toTransfer = t) :
    Paced t 0 0 (step s i) := by
  have hstate : (step s i).state = 0b0010#4 := by simp [step, initializing, hs, hi]
  constructor
  case chopping => exact .start hs hi ht
  all_goals simp [hstate]

/-- The ring is in its write stage exactly after four cycles for each block written, and two. -/
theorem state_iff (h : Paced t f k s) :
    s.state = 0b1000#4 ↔ f = 4 * k + 2 ∧ k < t.blockCount := by
  have hle := h.chopping.le
  constructor
  · intro hs
    refine ⟨h.write hs, ?_⟩
    cases h.chopping with
    | write more => exact more
    | advance _ _ ring | address _ _ ring | length _ _ ring | stopped _ ring => simp [ring] at hs
  · rintro ⟨hf, hk⟩
    cases h.chopping with
    | write _ _ ring => exact ring
    | advance _ _ ring => have := h.advance ring; omega
    | address _ _ ring => have := h.address ring; omega
    | length _ _ ring => have := h.length ring; omega
    | stopped _ ring => have := h.stopped ring; omega

theorem fifoWrite_iff (h : Paced t f k s) (hi : i.enable = true) :
    fifoWrite s i = true ↔ i.fifoFull = false ∧ f = 4 * k + 2 ∧ k < t.blockCount := by
  have hbit : s.state.getLsbD 3 = true ↔ s.state = 0b1000#4 := by
    cases h.chopping with
    | advance _ _ ring | address _ _ ring | length _ _ ring | write _ _ ring | stopped _ ring =>
      simp [ring]
  rw [← h.state_iff, ← hbit]
  simp [fifoWrite, stage, hi, and_comm]

/-- Every fourth cycle with room has written a block. -/
theorem written (h : Paced t f k s) : k = min t.blockCount ((f + 1) / 4) := by
  cases h.chopping with
  | advance more _ ring => have := h.advance ring; omega
  | address more _ ring => have := h.address ring; omega
  | length more _ ring => have := h.length ring; omega
  | write more _ ring => have := h.write ring; omega
  | stopped _ ring => have := h.stopped ring; omega

/-- A cycle without room changes nothing. -/
theorem hold (h : Paced t f k s) (hi : i.enable = true) (hf : i.fifoFull = true) :
    Paced t f k (step s i) := by
  rwa [h.chopping.step_eq hi hf]

/-- A cycle with room moves the ring on, or stops it after the last block. -/
theorem step_state (h : Chopping t k s) (hf : i.fifoFull = false) :
    (step s i).state =
      if flushStatePipeline s i then 0b0000#4 else s.state.rotateLeft 1 := by
  have hinit : initializing s i = false := by simp [initializing, h.enableD1]
  simp [step, hinit, hf]

/-- A cycle with room that writes no block. -/
theorem move_quiet (hB : 0 < t.blockSize.toNat) (h : Paced t f k s) (hi : i.enable = true)
    (hf : i.fifoFull = false) (ht : i.toTransfer = t) (hw : fifoWrite s i = false) :
    Paced t (f + 1) k (step s i) := by
  have hnext := h.chopping.move hB hi hf ht
  have hstate := step_state (i := i) h.chopping hf
  rw [hw, if_neg Bool.false_ne_true] at hnext
  rw [flushStatePipeline, hw, Bool.false_and, if_neg Bool.false_ne_true] at hstate
  have hrotate : ∀ x y : BitVec 4, x.rotateLeft 1 = y → x = y.rotateRight 1 := by decide
  constructor
  case chopping => exact hnext
  case advance =>
    intro hs
    have hring : s.state = 0b1000#4 := hrotate _ _ (hstate ▸ hs)
    simp [fifoWrite, stage, hi, hf, hring] at hw
  case address =>
    intro hs
    exact h.advance (hrotate _ _ (hstate ▸ hs))
  case length =>
    intro hs
    rw [h.address (hrotate _ _ (hstate ▸ hs))]
  case write =>
    intro hs
    rw [h.length (hrotate _ _ (hstate ▸ hs))]
  case stopped =>
    intro hs
    have := h.stopped (hrotate _ _ (hstate ▸ hs))
    omega

/-- A cycle with room that writes a block. -/
theorem move_write (hB : 0 < t.blockSize.toNat) (h : Paced t f k s) (hi : i.enable = true)
    (hf : i.fifoFull = false) (ht : i.toTransfer = t) (hw : fifoWrite s i = true) :
    Paced t (f + 1) (k + 1) (step s i) := by
  have hnext := h.chopping.move hB hi hf ht
  have hstate := step_state (i := i) h.chopping hf
  obtain ⟨-, hpace, hk⟩ := (h.fifoWrite_iff hi).mp hw
  have hlast : s.commandLastBlockD1 = decide (k + 1 = t.blockCount) :=
    congrArg Block.last (h.chopping.fifoCommand hw).2
  have hring : s.state = 0b1000#4 := h.state_iff.mpr ⟨hpace, hk⟩
  rw [hw, if_pos rfl] at hnext
  rw [flushStatePipeline, hw, hlast, Bool.true_and, hring] at hstate
  by_cases hend : k + 1 = t.blockCount
  · rw [if_pos (by simpa using hend)] at hstate
    constructor
    case chopping => exact hnext
    all_goals simp [hstate]
    omega
  · rw [if_neg (by simpa using hend)] at hstate
    constructor
    case chopping => exact hnext
    all_goals simp [hstate]
    omega

theorem next (hB : 0 < t.blockSize.toNat) (h : Paced t f k s) (hi : i.enable = true)
    (ht : i.toTransfer = t) :
    Paced t (f + (!i.fifoFull).toNat) (k + (fifoWrite s i).toNat) (step s i) := by
  cases hf : i.fifoFull with
  | true =>
    have hw : fifoWrite s i = false := by simp [fifoWrite, stage, hf]
    rw [hw]
    exact h.hold hi hf
  | false =>
    cases hw : fifoWrite s i with
    | false => exact h.move_quiet hB hi hf ht hw
    | true => exact h.move_write hB hi hf ht hw

end Paced

/-- The chopper from its reset on. -/
def circuit : Circuit State Inputs where
  init s := s = reset
  admits _ _ := True
  step := step

/-- The number of cycles with room in the FIFO among the `d` cycles after cycle `r`. -/
def room (i : ℕ → Inputs) (r d : ℕ) : ℕ := Nat.count (fun u => (i (r + u + 1)).fifoFull = false) d

/-- The commands written in the `d` cycles from cycle `r` on. -/
def writtenFrom (st : ℕ → State) (i : ℕ → Inputs) (r d : ℕ) : List Block :=
  collected (fun u => fifoWrite (st (r + u)) (i (r + u))) (fun u => fifoCommand (st (r + u))) d

/-- In cycle `r` the chopper is enabled for the transfer `t`, and the inputs are held in that cycle
and the `d` cycles after it. -/
structure Rises (t : Transfer) (st : ℕ → State) (i : ℕ → Inputs) (r d : ℕ) : Prop where
  low : (st r).enableD1 = false
  enable : ∀ u ≤ d, (i (r + u)).enable = true
  held : ∀ u ≤ d, (i (r + u)).toTransfer = t

/-- What the chopper writes in cycle `r` and the `d` cycles after it: a block of `t` with every
fourth cycle with room, from the third one on, up to the last block. -/
structure Chops (t : Transfer) (st : ℕ → State) (i : ℕ → Inputs) (r d : ℕ) : Prop where
  written : writtenFrom st i r (d + 1) =
    (List.range (min t.blockCount ((room i r d + 1) / 4))).map t.block
  last : ∀ u < d, fifoWrite (st (r + u + 1)) (i (r + u + 1)) = true ∧
    (fifoCommand (st (r + u + 1))).last = true ↔
      (i (r + u + 1)).fifoFull = false ∧ room i r u + 1 = 4 * t.blockCount - 1
  notFull : ∀ u, fifoWrite (st u) (i u) = true → (i u).fifoFull = false

section Execution

variable {t : Transfer} {st : ℕ → State} {i : ℕ → Inputs} {r d : ℕ}

/-- The blocks written in the `d` cycles after cycle `r`. -/
def writes (st : ℕ → State) (i : ℕ → Inputs) (r d : ℕ) : ℕ :=
  Nat.count (fun u => fifoWrite (st (r + u + 1)) (i (r + u + 1)) = true) d

theorem paced (hB : 0 < t.blockSize.toNat) (he : circuit.Execution st i) (h : Rises t st i r d)
    {u : ℕ} (hu : u ≤ d) : Paced t (room i r u) (writes st i r u) (st (r + u + 1)) := by
  induction u with
  | zero =>
    rw [he.step]
    exact .start h.low (h.enable 0 hu) (h.held 0 hu)
  | succ u ih =>
    have hnext := (ih (by omega)).next hB (h.enable (u + 1) hu) (h.held (u + 1) hu)
    have hroom : room i r (u + 1) = room i r u + (!(i (r + u + 1)).fifoFull).toNat := by
      simp only [room, Nat.count_succ]
      cases (i (r + u + 1)).fifoFull <;> rfl
    have hwrites : writes st i r (u + 1) =
        writes st i r u + (fifoWrite (st (r + u + 1)) (i (r + u + 1))).toNat :=
      count_add_toNat _ u
    rw [hroom, hwrites, he.step (r + (u + 1))]
    exact hnext

theorem fifoFull_of_fifoWrite {s : State} {j : Inputs} (h : fifoWrite s j = true) :
    j.fifoFull = false := by
  simp only [fifoWrite, stage, Bool.and_eq_true, Bool.not_eq_true'] at h
  exact h.2

/-- The commands after the initialising cycle are the blocks in order. -/
theorem writtenFrom_eq (hB : 0 < t.blockSize.toNat) (he : circuit.Execution st i)
    (h : Rises t st i r d) :
    writtenFrom st i r (d + 1) =
      (if fifoWrite (st r) (i r) then [fifoCommand (st r)] else []) ++
        (List.range (min t.blockCount ((room i r d + 1) / 4))).map t.block := by
  rw [writtenFrom, collected_succ', ← (paced hB he h le_rfl).written]
  congr 1
  refine collected_eq_map fun u hu hw => ?_
  exact ((paced hB he h hu.le).chopping.fifoCommand hw).2

theorem last_iff (hB : 0 < t.blockSize.toNat) (he : circuit.Execution st i)
    (h : Rises t st i r d) {u : ℕ} (hu : u < d) :
    fifoWrite (st (r + u + 1)) (i (r + u + 1)) = true ∧
      (fifoCommand (st (r + u + 1))).last = true ↔
        (i (r + u + 1)).fifoFull = false ∧ room i r u + 1 = 4 * t.blockCount - 1 := by
  have hpaced := paced hB he h hu.le
  have hwritten := hpaced.written
  have hcount := t.blockCount_pos
  have hiff := hpaced.fifoWrite_iff (i := i (r + u + 1)) (h.enable (u + 1) hu)
  constructor
  · rintro ⟨hw, hlast⟩
    obtain ⟨hroom, hpace, hk⟩ := hiff.mp hw
    rw [(hpaced.chopping.fifoCommand hw).2] at hlast
    have hend : writes st i r u + 1 = t.blockCount := by simpa [Transfer.block] using hlast
    exact ⟨hroom, by omega⟩
  · rintro ⟨hroom, hpace⟩
    have hw := hiff.mpr ⟨hroom, by omega, by omega⟩
    refine ⟨hw, ?_⟩
    rw [(hpaced.chopping.fifoCommand hw).2]
    have hend : writes st i r u + 1 = t.blockCount := by omega
    simp [Transfer.block, hend]

/-- In the initialising cycle the chopper writes what its registers hold, if the ring has been left
in its write stage and the FIFO has room. -/
theorem fifoWrite_rise (h : Rises t st i r d) :
    fifoWrite (st r) (i r) = false ↔
      (st r).state.getLsbD 3 = false ∨ (i r).fifoFull = true := by
  have henable : (i r).enable = true := h.enable 0 (Nat.zero_le d)
  rw [fifoWrite, stage, henable, Bool.true_and, Bool.and_eq_false_iff, Bool.not_eq_false']

/-- The blocks of the transfer are all that is written from a rise on, unless the ring has been left
in its write stage. -/
theorem chops_iff (hB : 0 < t.blockSize.toNat) (he : circuit.Execution st i)
    (h : Rises t st i r d) :
    Chops t st i r d ↔ (st r).state.getLsbD 3 = false ∨ (i r).fifoFull = true := by
  have hwritten := writtenFrom_eq hB he h
  rw [← fifoWrite_rise h]
  constructor
  · intro hc
    by_contra hw
    have hlength := congrArg List.length (hc.written.symm.trans hwritten)
    simp [hw] at hlength
  · intro hw
    refine ⟨?_, fun u hu => last_iff hB he h hu, fun u => fifoFull_of_fifoWrite⟩
    rw [hwritten, hw]
    rfl

/-- The last command of a transfer has been written by cycle `u`, after the initialising cycle, and
the chopper has been enabled from then on. -/
def Completed (st : ℕ → State) (i : ℕ → Inputs) (u : ℕ) : Prop :=
  ∃ w ≤ u, flushStatePipeline (st w) (i w) = true ∧ initializing (st w) (i w) = false ∧
    ∀ v, w ≤ v → v ≤ u → (i v).enable = true

/-- After its last command the ring stands still. -/
theorem Completed.state_eq (he : circuit.Execution st i) {u : ℕ} (h : Completed st i u) :
    (st (u + 1)).state = 0b0000#4 := by
  obtain ⟨w, hwu, hflush, hinit, henable⟩ := h
  obtain ⟨n, rfl⟩ := Nat.exists_eq_add_of_le hwu
  clear hwu
  induction n with
  | zero =>
    rw [Nat.add_zero, he.step]
    simp [circuit, step, hinit, hflush]
  | succ n ih =>
    rw [he.step]
    refine step_stopped (ih fun v hwv hv => henable v hwv (by omega)) (.inr ?_)
    rw [Nat.add_succ, he.step]
    exact henable (w + n) (by omega) (by omega)

/-- Where `enable` has only fallen after a last command, the ring stands still while it is low. -/
theorem state_of_low (he : circuit.Execution st i)
    (hfalls : ∀ u < r, (i u).enable = true → (i (u + 1)).enable = false → Completed st i u) {v : ℕ}
    (hv : v ≤ r) (hlow : (st v).enableD1 = false) : (st v).state = 0b0000#4 := by
  induction v with
  | zero =>
    have hinit : st 0 = reset := he.init
    rw [hinit]
    rfl
  | succ v ih =>
    have henable : (i v).enable = false := by
      rw [he.step] at hlow
      exact hlow
    rw [he.step]
    refine step_stopped ?_ (.inl henable)
    cases hd : (st v).enableD1 with
    | false => exact ih (by omega) hd
    | true =>
      cases v with
      | zero =>
        have hinit : st 0 = reset := he.init
        rw [hinit]
        rfl
      | succ v =>
        have hhigh : (i v).enable = true := by
          rw [he.step] at hd
          exact hd
        exact (hfalls v (by omega) hhigh henable).state_eq he

/-- Every rise of `enable` starts a transfer that is chopped exactly, if the earlier transfers have
been chopped to their ends.  Otherwise the ring may be in its write stage at the rise, which writes
a stale command first if the FIFO has room. -/
theorem rise_chops (hB : 0 < t.blockSize.toNat) (he : circuit.Execution st i)
    (h : Rises t st i r d) :
    ((∀ u < r, (i u).enable = true → (i (u + 1)).enable = false → Completed st i u) →
      Chops t st i r d) ∧
    (Chops t st i r d ↔ (st r).state.getLsbD 3 = false ∨ (i r).fifoFull = true) := by
  have hiff := chops_iff hB he h
  refine ⟨fun hfalls => hiff.mpr (.inl ?_), hiff⟩
  rw [state_of_low he hfalls le_rfl h.low]
  rfl

end Execution

/-- Two blocks of 32 bytes. -/
def twoBlocks : Transfer := ⟨0x1000#_, 64#_, 32#_⟩

/-- The transfer is held, and enabled in the cycles of `enable`. -/
def enabledIn (enable : ℕ → Bool) (u : ℕ) : Inputs := { twoBlocks with
  enable := enable u
  fifoFull := false }

theorem execution_enabledIn (enable : ℕ → Bool) :
    circuit.Execution (trajectory step reset (enabledIn enable)) (enabledIn enable) :=
  Circuit.execution_trajectory rfl fun _ _ => trivial

/-- The chopper is enabled, disabled in cycle 2 while its ring is about to enter the write stage,
and enabled again from cycle 3 on: it writes a stale command in that cycle. -/
theorem not_chops_enabledIn :
    circuit.Execution (trajectory step reset (enabledIn (· != 2))) (enabledIn (· != 2)) ∧
      (∀ d, Rises twoBlocks (trajectory step reset (enabledIn (· != 2))) (enabledIn (· != 2)) 3 d) ∧
      ¬ Chops twoBlocks (trajectory step reset (enabledIn (· != 2))) (enabledIn (· != 2)) 3 0 := by
  refine ⟨execution_enabledIn _, fun d => ⟨rfl, fun u _ => ?_, fun _ _ => rfl⟩, fun h => ?_⟩
  · simp [enabledIn]
    omega
  · have := h.written
    revert this
    decide

theorem chops_enabledIn :
    Chops twoBlocks (trajectory step reset (enabledIn fun _ => true)) (enabledIn fun _ => true)
      0 8 := by
  refine (rise_chops (by decide) (execution_enabledIn _) ⟨rfl, fun _ _ => rfl, fun _ _ => rfl⟩).1 ?_
  intro u hu
  omega

end AvalonCores.MemoryTester.ChopperFsm
