import Mathlib.Tactic
import AvalonCores.Sync.Circuit
import AvalonCores.AvalonMm.Slave

/-! Two runs of `avalon_slave` with the same writes.  They have the same registers, and a read that
the case statement does not list still tells them apart: it returns what `READDATA` has been in the
cycle before. -/

namespace AvalonCores.AvalonMm.Slave

open Sync

/-- The write of a cycle. -/
structure Write where
  address : BitVec 32
  byteEnable : BitVec 4
  writedata : BitVec 32
deriving DecidableEq, Repr

def Inputs.writing (i : Inputs) : Option Write :=
  if i.write then some ⟨i.address, i.byteEnable, i.writedata⟩ else none

/-- The writes of a run in their order. -/
def writes (is : List Inputs) : List Write := is.filterMap Inputs.writing

/-- The two registers after a write. -/
def Write.apply (r : BitVec 32 × BitVec 32) (x : Write) : BitVec 32 × BitVec 32 :=
  (if x.address == 0x4#_ then writeReg1 x.byteEnable x.writedata r.1 else r.1,
    if x.address == 0x8#_ then writeReg2 x.byteEnable x.writedata r.2 else r.2)

/-- A run without a reset. -/
def NoReset (is : List Inputs) : Prop := ∀ i ∈ is, i.reset = false

instance (is : List Inputs) : Decidable (NoReset is) :=
  inferInstanceAs (Decidable (∀ i ∈ is, i.reset = false))

/-- Two states show the same in two cycles. -/
def ShowsSame (s t : State) (i j : Inputs) : Prop :=
  readdata s i = readdata t j ∧ readdatavalid s i = readdatavalid t j

section Runs

variable {s t : State} {is js : List Inputs} {i j : Inputs}

theorem waitrequest_step : waitrequest (step s i) = false := rfl

theorem waitrequest_run (hs : waitrequest s = false) :
    waitrequest (run step s is) = false := by
  induction is generalizing s with
  | nil => exact hs
  | cons i is ih => exact ih waitrequest_step

theorem registers_step (hs : waitrequest s = false) (hi : i.reset = false) :
    ((step s i).reg1, (step s i).reg2) =
      (i.writing.toList).foldl Write.apply (s.reg1, s.reg2) := by
  cases hw : i.write with
  | false => simp [step, hi, hw, Inputs.writing]
  | true => simp [step, hs, hi, hw, Inputs.writing, Write.apply]

/-- The registers are a function of the writes. -/
theorem registers_run (hs : waitrequest s = false) (his : NoReset is) :
    ((run step s is).reg1, (run step s is).reg2) =
      (writes is).foldl Write.apply (s.reg1, s.reg2) := by
  induction is generalizing s with
  | nil => rfl
  | cons i is ih =>
    have hi : i.reset = false := his i List.mem_cons_self
    rw [run_cons, ih waitrequest_step fun j hj => his j (List.mem_cons_of_mem i hj),
      registers_step hs hi]
    cases hw : i.writing with
    | none => rw [writes, writes, List.filterMap_cons_none hw, Option.toList_none, List.foldl_nil]
    | some x =>
      rw [writes, writes, List.filterMap_cons_some hw, Option.toList_some, List.foldl_cons,
        List.foldl_nil, List.foldl_cons]

/-- A cycle shows the same in two states with the same registers unless it reads another address
and the latches differ. -/
theorem showsSame_iff (hs : waitrequest s = false) (ht : waitrequest t = false)
    (hreg1 : s.reg1 = t.reg1) (hreg2 : s.reg2 = t.reg2) (hreset : i.reset = j.reset)
    (hread : i.read = j.read) (haddress : i.address = j.address) :
    ShowsSame s t i j ↔ i.reset = true ∨ i.read = false ∨ i.address = 0x4#_ ∨
      i.address = 0x8#_ ∨ s.latched = t.latched := by
  have hvalid : readdatavalid s i = readdatavalid t j := by
    rw [readdatavalid, readdatavalid, hs, ht, hreset, hread]
  rw [ShowsSame, and_iff_left hvalid, readdata, readdata, hs, ht, ← hreset, ← hread, ← haddress]
  cases hr : i.reset with
  | true => simp
  | false =>
    cases hrd : i.read with
    | false => simp
    | true =>
      simp only [Bool.false_eq_true, if_false, Bool.not_false, Bool.and_self, if_true, false_or,
        Bool.true_eq_false]
      split
      · rename_i h4
        exact iff_of_true hreg1 (.inl (BitVec.eq_of_toNat_eq h4))
      · rename_i h8
        exact iff_of_true hreg2 (.inr (.inl (BitVec.eq_of_toNat_eq h8)))
      · rename_i h4 h8
        have hne4 : i.address ≠ 0x4#_ := fun h => h4 (by rw [h]; rfl)
        have hne8 : i.address ≠ 0x8#_ := fun h => h8 (by rw [h]; rfl)
        simp [hne4, hne8]

/-- A cycle after two runs with the same writes shows the same in both if and only if it is a reset,
does not read, reads one of the two registers, or `READDATA` has been the same in both in the cycle
before. -/
theorem run_showsSame_iff (his : NoReset is) (hjs : NoReset js) (hw : writes is = writes js)
    (hreset : i.reset = j.reset) (hread : i.read = j.read) (haddress : i.address = j.address) :
    ShowsSame (run step afterReset is) (run step afterReset js) i j ↔
      i.reset = true ∨ i.read = false ∨ i.address = 0x4#_ ∨ i.address = 0x8#_ ∨
        (run step afterReset is).latched = (run step afterReset js).latched := by
  have hregisters := registers_run (s := afterReset) rfl his
  rw [hw, ← registers_run rfl hjs, Prod.mk.injEq] at hregisters
  exact showsSame_iff (waitrequest_run rfl) (waitrequest_run rfl) hregisters.1 hregisters.2 hreset
    hread haddress

end Runs

/-- A read of `address`. -/
def reading (address : BitVec 32) : Inputs := ⟨false, address, 0xF#_, true, false, 0#_⟩

def writingFour : Inputs := ⟨false, 0x4#_, 0xF#_, false, true, 0xDEADBEEF#_⟩

theorem showsSame_readFour :
    ShowsSame (run step afterReset [writingFour, reading 0x4#_])
      (run step afterReset [writingFour]) (reading 0x8#_) (reading 0x8#_) := by
  exact (run_showsSame_iff (by decide) (by decide) rfl rfl rfl rfl).mpr
    (.inr (.inr (.inr (.inl rfl))))

/-- A read of address 0 right after one of 0x4 returns the word at 0x4 again, and one right after
the write returns 0. -/
theorem not_showsSame_readFour :
    NoReset [writingFour, reading 0x4#_] ∧ NoReset [writingFour] ∧
      writes [writingFour, reading 0x4#_] = writes [writingFour] ∧
      ¬ ShowsSame (run step afterReset [writingFour, reading 0x4#_])
        (run step afterReset [writingFour]) (reading 0x0#_) (reading 0x0#_) := by
  refine ⟨by decide, by decide, rfl, fun h => ?_⟩
  have := h.1
  revert this
  decide

end AvalonCores.AvalonMm.Slave
