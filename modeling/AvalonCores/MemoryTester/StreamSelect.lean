import Mathlib.Tactic
import AvalonCores.MemoryTester.DirectIo

/-! The slave port that `mtm_two_to_one_st_mux` and `mtm_one_to_two_st_demux` have in common, with a
control and a status register, and the accesses that the software makes to it. -/

namespace AvalonCores.MemoryTester.StreamSelect

/-- What the slave port sees in a cycle. -/
structure Csr where
  address : BitVec 1
  read : Bool
  write : Bool
  writedata : BitVec 32
  byteenable : BitVec 4
deriving DecidableEq, Repr

namespace Csr

/-- A cycle without an access. -/
def none : Csr := ⟨0#_, false, false, 0#_, 0#_⟩

/-- `IORD_8DIRECT` -/
def iord8Direct (offset : ℕ) : Csr :=
  ⟨BitVec.ofNat 1 (offset / 4), true, false, 0#_, BitVec.ofNat 4 (2 ^ (offset % 4))⟩

def ofStore (s : DirectStore) : Csr :=
  ⟨BitVec.ofNat 1 (s.word 4), false, true, s.writedata 4, s.byteenable 4⟩

variable (c : Csr)

/-- `enable_input_select` and `enable_output_select` -/
def enableSelect : Bool := c.address == 0#_ && c.write && c.byteenable.getLsbD 0

def clearPipeline : Bool :=
  c.address == 0#_ && c.write && c.byteenable.getLsbD 1 && c.writedata.getLsbD 8

/-- The select register after an access. -/
def nextSelect (select : Bool) : Bool := if c.enableSelect then c.writedata.getLsbD 0 else select

variable {c}

@[simp] theorem enableSelect_eq_false (h : c.write = false) : c.enableSelect = false := by
  simp [enableSelect, h]

@[simp] theorem clearPipeline_eq_false (h : c.write = false) : c.clearPipeline = false := by
  simp [clearPipeline, h]

theorem nextSelect_of_quiet (h : c.write = false) (select : Bool) :
    c.nextSelect select = select := by simp [nextSelect, h]

/-- A store of a byte to the control register sets the select register to its lowest bit. -/
theorem nextSelect_store (data : BitVec 8) (select : Bool) :
    (ofStore (iowr8Direct 0 data)).nextSelect select = data.getLsbD 0 := by
  have henable : (ofStore (iowr8Direct 0 data)).enableSelect = true := by
    simp only [enableSelect, ofStore, DirectStore.getLsbD_byteenable _ _ (Nat.succ_pos 3)]
    simp [iowr8Direct, DirectStore.word, DirectStore.lane]
  rw [nextSelect, if_pos henable]
  simp [ofStore, iowr8Direct, DirectStore.writedata, DirectStore.lane]

end Csr

/-- The byte that `IORD_8DIRECT` returns of the word that the port drives. -/
def byteOf (readdata : BitVec 32) (offset : ℕ) : BitVec 8 :=
  readdata.extractLsb' (8 * (offset % 4)) 8

end AvalonCores.MemoryTester.StreamSelect
