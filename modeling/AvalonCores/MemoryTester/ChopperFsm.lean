import Mathlib.Tactic
import AvalonCores.MemoryTester.Transfer

/-! The transaction chopper `mtm_chopper_fsm`, which writes the blocks of a transfer into a command
FIFO.  `Filling` relates its registers to the number of blocks that it has written. -/

namespace AvalonCores.MemoryTester

namespace ChopperFsm

structure State where
  enableD1 : Bool
  lengthCounter : BitVec 32
  commandAddress : BitVec 64
  lengthDowncounter : BitVec 32
  state : BitVec 4
  compareD1 : Bool
  commandLengthD1 : BitVec 24
  commandLastBlockD1 : Bool
deriving DecidableEq, Repr

structure Inputs extends Transfer where
  enable : Bool
  fifoFull : Bool

def reset : State := ⟨false, 0#_, 0#_, 0#_, 0#_, false, 0#_, false⟩

variable (s : State) (i : Inputs)

def initializing : Bool := i.enable && !s.enableD1

/-- The enable of ring stage `n`. -/
def stage (n : ℕ) : Bool := i.enable && s.state.getLsbD n && !i.fifoFull

def compare : Bool := decide (s.lengthDowncounter.toNat ≤ i.blockSize.toNat)

def commandLength : BitVec 24 :=
  if s.compareD1 then s.lengthDowncounter.setWidth 24 else i.blockSize

def fifoWrite : Bool := stage s i 3

def flushStatePipeline : Bool := fifoWrite s i && s.commandLastBlockD1

/-- The command that `fifoWrite` writes. -/
def fifoCommand : Block := ⟨s.commandLastBlockD1, s.commandLengthD1, s.commandAddress⟩

def step : State where
  enableD1 := i.enable
  lengthCounter :=
    if initializing s i then 0#_
    else if stage s i 0 then s.lengthCounter + i.blockSize.setWidth 32
    else s.lengthCounter
  commandAddress :=
    if stage s i 1 then i.baseAddress + s.lengthCounter.setWidth 64 else s.commandAddress
  lengthDowncounter :=
    if initializing s i then i.transferLength
    else if stage s i 0 then s.lengthDowncounter - i.blockSize.setWidth 32
    else s.lengthDowncounter
  compareD1 := if stage s i 1 then compare s i else s.compareD1
  commandLengthD1 := if stage s i 2 then commandLength s i else s.commandLengthD1
  commandLastBlockD1 := if stage s i 2 then s.compareD1 else s.commandLastBlockD1
  state :=
    if initializing s i then 0b0010#4
    else if flushStatePipeline s i then 0#4
    else if i.fifoFull then s.state
    else s.state.rotateLeft 1

/-- The chopper is enabled and has written the first `k` blocks of `t`.  Its ring is in stage 0
(advance the counters), 1 (latch the address and the comparison), 2 (latch the length), 3 (write),
or has stopped after the last block. -/
inductive Chopping (t : Transfer) : ℕ → State → Prop
  | advance {k : ℕ} {s : State} (more : k + 1 < t.blockCount) (enabled : s.enableD1 = true)
      (ring : s.state = 0b0001#4) (counter : s.lengthCounter.toNat = k * t.blockSize.toNat)
      (down : s.lengthDowncounter.toNat = t.transferLength.toNat - k * t.blockSize.toNat) :
      Chopping t (k + 1) s
  | address {k : ℕ} {s : State} (more : k < t.blockCount) (enabled : s.enableD1 = true)
      (ring : s.state = 0b0010#4) (counter : s.lengthCounter.toNat = k * t.blockSize.toNat)
      (down : s.lengthDowncounter.toNat = t.transferLength.toNat - k * t.blockSize.toNat) :
      Chopping t k s
  | length {k : ℕ} {s : State} (more : k < t.blockCount) (enabled : s.enableD1 = true)
      (ring : s.state = 0b0100#4) (counter : s.lengthCounter.toNat = k * t.blockSize.toNat)
      (down : s.lengthDowncounter.toNat = t.transferLength.toNat - k * t.blockSize.toNat)
      (latched : s.commandAddress = (t.block k).address)
      (compared : s.compareD1 = (t.block k).last) :
      Chopping t k s
  | write {k : ℕ} {s : State} (more : k < t.blockCount) (enabled : s.enableD1 = true)
      (ring : s.state = 0b1000#4) (counter : s.lengthCounter.toNat = k * t.blockSize.toNat)
      (down : s.lengthDowncounter.toNat = t.transferLength.toNat - k * t.blockSize.toNat)
      (command : fifoCommand s = t.block k) :
      Chopping t k s
  | stopped {s : State} (enabled : s.enableD1 = true) (ring : s.state = 0b0000#4) :
      Chopping t t.blockCount s

variable {s : State} {i : Inputs} {t : Transfer} {k : ℕ}

/-- The first enabled cycle loads the counters for block 0. -/
theorem Chopping.start (hs : s.enableD1 = false) (hi : i.enable = true) (ht : i.toTransfer = t) :
    Chopping t 0 (step s i) := by
  subst ht
  apply Chopping.address i.blockCount_pos <;> simp [step, initializing, hs, hi]

theorem Chopping.le (h : Chopping t k s) : k ≤ t.blockCount := by
  cases h <;> omega

theorem Chopping.enableD1 (h : Chopping t k s) : s.enableD1 = true := by
  cases h <;> assumption

/-- What a running chopper writes is the next block of the transfer. -/
theorem Chopping.fifoCommand (h : Chopping t k s) (hw : fifoWrite s i = true) :
    k < t.blockCount ∧ ChopperFsm.fifoCommand s = t.block k := by
  cases h with
  | write more enabled ring counter down command => exact ⟨more, command⟩
  | advance _ _ ring | address _ _ ring | length _ _ ring | stopped _ ring =>
    simp [fifoWrite, stage, ring] at hw

/-- While the command FIFO is full the chopper stays as it is. -/
theorem Chopping.step_eq (h : Chopping t k s) (hi : i.enable = true) (hf : i.fifoFull = true) :
    step s i = s := by
  have := h.enableD1
  obtain ⟨_, _, _, _, _, _, _, _⟩ := s
  simp_all [step, initializing, flushStatePipeline, fifoWrite, stage]

theorem Chopping.hold (h : Chopping t k s) (hi : i.enable = true) (hf : i.fifoFull = true) :
    Chopping t k (step s i) := by
  rwa [h.step_eq hi hf]

/-- With room in the command FIFO the ring moves on by one stage, and writes a block in the last
one. -/
theorem Chopping.move (hB : 0 < t.blockSize.toNat) (h : Chopping t k s) (hi : i.enable = true)
    (hf : i.fifoFull = false) (ht : i.toTransfer = t) :
    Chopping t (if fifoWrite s i then k + 1 else k) (step s i) := by
  subst ht
  cases h with
  | @advance k s more enabled ring counter down =>
    have hbound := (Transfer.lt_blockCount_iff hB k).mp more
    rw [Nat.succ_mul] at hbound
    have hlen := i.transferLength.isLt
    have hsize : (i.blockSize.setWidth 32).toNat = i.blockSize.toNat := by simp; omega
    have hw : fifoWrite s i = false := by simp [fifoWrite, stage, ring]
    rw [hw]
    apply Chopping.address more
    · simp [step, hi]
    · simp [step, initializing, enabled, flushStatePipeline, hw, hf, ring]
    · simp only [step, initializing, stage, enabled, hi, hf, ring]
      simp [hsize, counter, Nat.succ_mul]
      omega
    · have hle : i.blockSize.setWidth 32 ≤ s.lengthDowncounter := by
        rw [BitVec.le_def, hsize, down]
        omega
      have hdown := BitVec.toNat_sub_of_le hle
      rw [hsize, down] at hdown
      simp only [step, initializing, stage, enabled, hi, hf, ring]
      rw [Nat.succ_mul, ← Nat.sub_sub, ← hdown]
      simp
  | address more enabled ring counter down =>
    have hw : fifoWrite s i = false := by simp [fifoWrite, stage, ring]
    rw [hw]
    apply Chopping.length more
    · simp [step, hi]
    · simp [step, initializing, enabled, flushStatePipeline, hw, hf, ring]
    · simpa [step, initializing, stage, enabled, hi, hf, ring] using counter
    · simpa [step, initializing, stage, enabled, hi, hf, ring] using down
    · have hc : s.lengthCounter.setWidth 64 = BitVec.ofNat 64 (k * i.blockSize.toNat) := by
        apply BitVec.eq_of_toNat_eq
        simp [counter]
      simp [step, stage, hi, hf, ring, hc, Transfer.block]
    · have := Transfer.remaining_le_iff hB more
      simp [step, stage, hi, hf, ring, compare, down, Transfer.block, this]
  | length more enabled ring counter down latched compared =>
    have hw : fifoWrite s i = false := by simp [fifoWrite, stage, ring]
    rw [hw]
    apply Chopping.write more
    · simp [step, hi]
    · simp [step, initializing, enabled, flushStatePipeline, hw, hf, ring]
    · simpa [step, initializing, stage, enabled, hi, hf, ring] using counter
    · simpa [step, initializing, stage, enabled, hi, hf, ring] using down
    · have hd : s.lengthDowncounter.setWidth 24 =
          BitVec.ofNat 24 (i.transferLength.toNat - k * i.blockSize.toNat) := by
        apply BitVec.eq_of_toNat_eq
        simp [down]
      simp only [ChopperFsm.fifoCommand, step, stage, hi, hf, ring, latched, compared,
        commandLength, hd]
      simp [Transfer.block]
  | write more enabled ring counter down command =>
    have hw : fifoWrite s i = true := by simp [fifoWrite, stage, ring, hi, hf]
    have hlast : s.commandLastBlockD1 = decide (k + 1 = i.blockCount) :=
      congrArg Block.last command
    rw [hw]
    by_cases hk : k + 1 = i.blockCount
    · simp only [if_true, hk]
      apply Chopping.stopped
      · simp [step, hi]
      · simp [step, initializing, enabled, flushStatePipeline, hw, hlast, hk]
    · apply Chopping.advance (by omega)
      · simp [step, hi]
      · simp [step, initializing, enabled, flushStatePipeline, hw, hlast, hk, hf, ring]
      · simpa [step, initializing, stage, enabled, hi, hf, ring] using counter
      · simpa [step, initializing, stage, enabled, hi, hf, ring] using down
  | stopped enabled ring =>
    have hw : fifoWrite s i = false := by simp [fifoWrite, stage, ring]
    rw [hw]
    apply Chopping.stopped
    · simp [step, hi]
    · simp [step, initializing, enabled, flushStatePipeline, hw, hf, ring]

theorem Chopping.next (hB : 0 < t.blockSize.toNat) (h : Chopping t k s) (hi : i.enable = true)
    (ht : i.toTransfer = t) : Chopping t (k + (fifoWrite s i).toNat) (step s i) := by
  by_cases hf : i.fifoFull = true
  · have hw : fifoWrite s i = false := by simp [fifoWrite, stage, hf]
    rw [hw]
    exact h.hold hi hf
  · have := h.move hB hi (by simpa using hf) ht
    cases hw : fifoWrite s i <;> simpa [hw] using this

/-- A chopper that has written every block has stopped. -/
theorem Chopping.state_eq (h : Chopping t k s) (hk : k = t.blockCount) : s.state = 0b0000#4 := by
  cases h with
  | stopped _ ring => exact ring
  | advance | address | length | write => omega

/-- A chopper that is about to be enabled, or has written `k` blocks. -/
def Filling (t : Transfer) (k : ℕ) (s : State) : Prop :=
  Chopping t k s ∨ k = 0 ∧ s.enableD1 = false ∧ s.state = 0b0000#4

namespace Filling

theorem fifoWrite_eq_false (hs : s.state = 0b0000#4) : fifoWrite s i = false := by
  simp [fifoWrite, stage, hs]

theorem le (h : Filling t k s) : k ≤ t.blockCount := by
  rcases h with h | ⟨rfl, -, -⟩
  · exact h.le
  · exact Nat.zero_le _

theorem fifoCommand (h : Filling t k s) (hw : fifoWrite s i = true) :
    ChopperFsm.fifoCommand s = t.block k := by
  rcases h with h | ⟨rfl, -, hs⟩
  · exact (h.fifoCommand hw).2
  · rw [fifoWrite_eq_false hs] at hw
    contradiction

theorem next (hB : 0 < t.blockSize.toNat) (h : Filling t k s) (hi : i.enable = true)
    (ht : i.toTransfer = t) : Filling t (k + (fifoWrite s i).toNat) (step s i) := by
  rcases h with h | ⟨rfl, hd1, hs⟩
  · exact .inl (h.next hB hi ht)
  · rw [fifoWrite_eq_false hs]
    exact .inl (Chopping.start hd1 hi ht)

theorem stopped (h : Filling t k s) (hk : t.blockCount ≤ k) :
    s.enableD1 = true ∧ s.state = 0b0000#4 := by
  rcases h with h | ⟨rfl, -, -⟩
  · exact ⟨h.enableD1, h.state_eq (Nat.le_antisymm h.le hk)⟩
  · have := t.blockCount_pos
    omega

end Filling

/-- A chopper that has stopped starts again only at a rising edge of `enable`. -/
theorem step_stopped (hs : s.state = 0b0000#4) (hi : i.enable = false ∨ s.enableD1 = true) :
    (step s i).state = 0b0000#4 := by
  have hinit : initializing s i = false := by
    rcases hi with h | h <;> simp [initializing, h]
  simp [step, hinit, flushStatePipeline, Filling.fifoWrite_eq_false hs, hs]

end ChopperFsm

end AvalonCores.MemoryTester
