import Mathlib.Tactic

/-! The commands of a memory test: a transfer is cut into blocks, which the controller queues and
hands to the pattern writer and the pattern reader as commands. -/

namespace AvalonCores.MemoryTester

/-- A word of a command FIFO: the last block bit (bit 88), the command length (bits 87 to 64), and
the command address (bits 63 to 0). -/
structure Block where
  last : Bool
  length : BitVec 24
  address : BitVec 64
deriving DecidableEq, Repr

/-- The command data of the pattern writer: the length in bytes (bits 95 to 64) and the address
(bits 63 to 0). -/
structure Command where
  address : BitVec 64
  length : BitVec 32
deriving DecidableEq, Repr

/-- The command data of the pattern reader, with the early done bit (bit 96). -/
structure ReadCommand extends Command where
  earlyDone : Bool
deriving DecidableEq, Repr

namespace Block

/-- The block on the write command bus, its length padded to 32 bits. -/
def writeCommand (b : Block) : Command := ⟨b.address, b.length.setWidth 32⟩

/-- The block on the read command bus.  Every block but the last one is done early. -/
def readCommand (b : Block) : ReadCommand := ⟨b.writeCommand, !b.last⟩

end Block

/-- The inputs of a chopper that stay constant throughout a transfer. -/
structure Transfer where
  baseAddress : BitVec 64
  transferLength : BitVec 32
  blockSize : BitVec 24
deriving DecidableEq, Repr

namespace Transfer

variable (t : Transfer)

/-- The number of blocks, `⌈L / B⌉`, and one for an empty transfer. -/
def blockCount : ℕ :=
  max 1 ((t.transferLength.toNat + t.blockSize.toNat - 1) / t.blockSize.toNat)

/-- Block `k`, of the full block size unless it is the last one. -/
def block (k : ℕ) : Block where
  last := decide (k + 1 = t.blockCount)
  length :=
    if k + 1 = t.blockCount then
      BitVec.ofNat 24 (t.transferLength.toNat - k * t.blockSize.toNat)
    else t.blockSize
  address := t.baseAddress + BitVec.ofNat 64 (k * t.blockSize.toNat)

def blocks : List Block := (List.range t.blockCount).map t.block

@[simp] theorem blocks_length : t.blocks.length = t.blockCount := by simp [blocks]

theorem blockCount_pos : 0 < t.blockCount := by unfold blockCount; omega

theorem range_map_prefix {α : Type*} (f : Block → α) {w : ℕ} (hw : w ≤ t.blockCount) :
    (List.range w).map (fun k => f (t.block k)) <+: t.blocks.map f := by
  have htake : (List.range t.blockCount).take w = List.range w := by simp [List.take_range, hw]
  rw [blocks, List.map_map, ← htake]
  exact (List.take_prefix _ _).map _

variable {t}

/-- Past block `k` there is another one exactly when the first `k + 1` blocks do not cover the
transfer. -/
theorem lt_blockCount_iff (hB : 0 < t.blockSize.toNat) (k : ℕ) :
    k + 1 < t.blockCount ↔ (k + 1) * t.blockSize.toNat < t.transferLength.toNat := by
  have h1 : k + 1 < t.blockCount ↔
      k + 1 < (t.transferLength.toNat + t.blockSize.toNat - 1) / t.blockSize.toNat := by
    unfold blockCount; omega
  rw [h1, ← Nat.succ_le_iff, Nat.le_div_iff_mul_le hB, Nat.succ_mul]
  omega

theorem mul_lt_of_lt_blockCount (hB : 0 < t.blockSize.toNat) {k : ℕ} (hk : k < t.blockCount) :
    k * t.blockSize.toNat ≤ t.transferLength.toNat := by
  cases k with
  | zero => simp
  | succ k => exact ((lt_blockCount_iff hB k).mp hk).le

/-- The downcounter after `k` blocks compares at most the block size exactly on the last block. -/
theorem remaining_le_iff (hB : 0 < t.blockSize.toNat) {k : ℕ} (hk : k < t.blockCount) :
    t.transferLength.toNat - k * t.blockSize.toNat ≤ t.blockSize.toNat ↔
      k + 1 = t.blockCount := by
  have h := lt_blockCount_iff hB k
  rw [Nat.succ_mul] at h
  omega

end Transfer

end AvalonCores.MemoryTester
