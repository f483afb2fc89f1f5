import Mathlib.Tactic
import AvalonCores.MemoryTester.RamTestControllerDriver

/-! The driver of `mtm_ram_test_controller` through the slave port of the controller: what the read
functions return after a setter, and what a size setter that returns 0 leaves in its register. -/

namespace AvalonCores.MemoryTester.RamTestController

open Sync Program

/-- After the setter, its read function returns its value, and every other one what it returned
before. -/
structure RoundTrips (signed : Bool) (s : State) (x : Setting) : Prop where
  returns : port.Returns s x.set (x.field.read signed) x.value
  preserves : ∀ f ≠ x.field, port.Preserves s x.set (f.read signed)

/-- The halves of a base address are equal, and a sign bit only occurs with all the others. -/
def Setting.Symmetric (signed : Bool) : Setting → Prop
  | baseAddress v => v.extractLsb' 0 32 = v.extractLsb' 32 32 ∧
      (signed = true → v.msb = true → v = BitVec.allOnes 64)
  | _ => True

section Halves

variable {signed : Bool} {r : ℕ → Bool}

theorem Setting.getLsbD_value {x : Setting} (hx : x.Fits) {k : ℕ} (hk : x.field.bits ≤ k) :
    x.value.getLsbD k = false := by
  cases x
  case blockSize v =>
    have hpow : 2 ^ 24 ≤ 2 ^ k := Nat.pow_le_pow_right (by decide) hk
    exact Nat.testBit_lt_two_pow (lt_of_lt_of_le hx hpow)
  case blockTrailDistance v =>
    exact (BitVec.getLsbD_setWidth ..).trans (by simp [BitVec.getLsbD_of_ge v k hk])
  case concurrentAccesses e =>
    exact (BitVec.getLsbD_setWidth ..).trans (by simp [BitVec.getLsbD_of_ge (BitVec.ofBool e) k hk])
  all_goals exact BitVec.getLsbD_of_ge _ k hk

theorem getLsbD_toUnsignedLongLong (x : BitVec 32) (k : ℕ) :
    (toUnsignedLongLong signed x).getLsbD k =
      if k < 32 then x.getLsbD k else decide (k < 64) && signed && x.msb := by
  cases signed with
  | false =>
    rw [toUnsignedLongLong, if_neg Bool.false_ne_true, BitVec.getLsbD_setWidth]
    by_cases hk : k < 32
    · simp [hk, show k < 64 by omega]
    · simp [hk, BitVec.getLsbD_of_ge x k (by omega)]
  | true =>
    rw [toUnsignedLongLong, if_pos rfl, BitVec.getLsbD_signExtend]
    by_cases hk : k < 32
    · simp [hk, show k < 64 by omega]
    · simp [hk]

/-- What `readBaseAddress` returns for the base address `v`: the two halves change places. -/
def swapped (signed : Bool) (v : BitVec 64) : BitVec 64 :=
  (toUnsignedLongLong signed (v.extractLsb' 0 32) <<< 32) |||
    toUnsignedLongLong signed (v.extractLsb' 32 32)

theorem getLsbD_swapped (signed : Bool) (v : BitVec 64) {k : ℕ} (hk : k < 64) :
    (swapped signed v).getLsbD k =
      if k < 32 then v.getLsbD (32 + k) else v.getLsbD (k - 32) || signed && v.msb := by
  have hmsb : (v.extractLsb' 32 32).msb = v.msb := by
    simp [BitVec.msb_eq_getLsbD_last]
  simp only [swapped, BitVec.getLsbD_or, BitVec.getLsbD_shiftLeft, getLsbD_toUnsignedLongLong,
    BitVec.getLsbD_extractLsb', hmsb]
  by_cases hlow : k < 32
  · simp [hlow, hk]
  · simp [hlow, hk, show k - 32 < 32 by omega]

theorem swapped_iff {v : BitVec 64} :
    swapped signed v = v ↔ (Setting.baseAddress v).Symmetric signed := by
  have hbit {k : ℕ} (hk : k < 32) :
      (v.extractLsb' 0 32 = v.extractLsb' 32 32) → v.getLsbD k = v.getLsbD (32 + k) := by
    intro h
    simpa [hk] using congrArg (·.getLsbD k) h
  constructor
  · intro h
    have hlow {k : ℕ} (hk : k < 32) : v.getLsbD (32 + k) = v.getLsbD k := by
      have := getLsbD_swapped signed v (by omega : k < 64)
      rw [h, if_pos hk] at this
      exact this.symm
    refine ⟨?_, fun hsigned hmsb => ?_⟩
    · apply BitVec.eq_of_getLsbD_eq
      intro k hk
      simp [hk, hlow hk]
    · have hhigh {k : ℕ} (hk : 32 ≤ k) (hlt : k < 64) : v.getLsbD k = true := by
        have := getLsbD_swapped signed v hlt
        rw [h, if_neg (by omega), hsigned, hmsb] at this
        simpa using this
      apply BitVec.eq_of_getLsbD_eq
      intro k hk
      rw [BitVec.getLsbD_allOnes, decide_eq_true hk]
      by_cases h32 : k < 32
      · rw [← hlow h32]
        exact hhigh (by omega) (by omega)
      · exact hhigh (by omega) hk
  · rintro ⟨hhalves, hones⟩
    apply BitVec.eq_of_getLsbD_eq
    intro k hk
    rw [getLsbD_swapped signed v hk]
    by_cases h32 : k < 32
    · rw [if_pos h32, hbit h32 hhalves]
    · rw [if_neg h32, hbit (by omega) hhalves, show 32 + (k - 32) = k by omega]
      cases hext : signed && v.msb with
      | false => rw [Bool.or_false]
      | true =>
        rw [Bool.and_eq_true] at hext
        rw [hones hext.1 hext.2, BitVec.getLsbD_allOnes, decide_eq_true hk, Bool.or_true]

theorem readBaseAddress_set (v : BitVec 64) :
    (meaning (readBaseAddress signed) (meaning (setBaseAddress v) r).2).1 = swapped signed v := by
  have hset {k : ℕ} (hk : k < 64) : (meaning (setBaseAddress v) r).2 k = v.getLsbD k :=
    Setting.set_holds (x := .baseAddress v) trivial ⟨Nat.zero_le k, hk⟩
  have hlow : (registerBits writable).load (iord32Direct lowBaseReg)
      (meaning (setBaseAddress v) r).2 = v.extractLsb' 0 32 := by
    apply BitVec.eq_of_getLsbD_eq
    intro k hk
    simp only [getLsbD_load _ hk, iord32Direct, lowBaseReg, hset (by omega : 8 * 0 + k < 64)]
    simp [hk]
  have hhigh : (registerBits writable).load (iord32Direct highBaseReg)
      (meaning (setBaseAddress v) r).2 = v.extractLsb' 32 32 := by
    apply BitVec.eq_of_getLsbD_eq
    intro k hk
    simp only [getLsbD_load _ hk, iord32Direct, highBaseReg, hset (by omega : 8 * 4 + k < 64)]
    simp [hk]
  simp only [meaning, readBaseAddress, eval_bind, eval_read, eval_pure] at hlow hhigh ⊢
  rw [hlow, hhigh, swapped]

/-- What the read function of a setter returns after it. -/
theorem Setting.read_set {x : Setting} (hx : x.Accepted) (hfit : x.Fits) :
    (meaning (x.field.read signed) (meaning x.set r).2).1 = x.value ↔ x.Symmetric signed := by
  by_cases hbase : x.field = .baseAddress
  · cases x <;> simp only [field, reduceCtorEq] at hbase
    case baseAddress v =>
      refine Iff.trans ?_ swapped_iff
      rw [← readBaseAddress_set (r := r) v]
      rfl
  · have hsym : x.Symmetric signed := by
      cases x <;> trivial
    refine iff_of_true (BitVec.eq_of_getLsbD_eq fun k hk => ?_) hsym
    rw [Field.getLsbD_read hbase hk]
    by_cases hbits : k < x.field.bits
    · have hle := x.field.bits_le
      rw [Setting.set_holds hx ⟨Nat.le_add_right .., by omega⟩, Nat.add_sub_cancel_left,
        decide_eq_true hbits, Bool.true_and]
    · rw [x.getLsbD_value hfit (by omega), decide_eq_false hbits, Bool.false_and]

/-- A read function of another field than that of a setter does not see it. -/
theorem Setting.read_set_other {x : Setting} {f : Field} (hf : f ≠ x.field) :
    (meaning (f.read signed) (meaning x.set r).2).1 = (meaning (f.read signed) r).1 := by
  have hframe {k : ℕ} (hk : f.Holds k) : (meaning x.set r).2 k = r k :=
    x.set_frame (Field.not_holds hf hk)
  by_cases hbase : f = .baseAddress
  · subst hbase
    have hload (l : DirectLoad) (h : l.offset + l.size ≤ 8) :
        (registerBits writable).load l (meaning x.set r).2 = (registerBits writable).load l r :=
      load_congr fun k _ hk => hframe ⟨Nat.zero_le k, by simp only [Field.first, Field.size]; omega⟩
    simp only [meaning, Field.read, readBaseAddress, eval_bind, eval_read, eval_pure] at hload ⊢
    rw [hload _ (by decide), hload _ (by decide)]
  · apply BitVec.eq_of_getLsbD_eq
    intro k hk
    rw [Field.getLsbD_read hbase hk, Field.getLsbD_read hbase hk]
    by_cases hbits : k < f.bits
    · have hle := f.bits_le
      rw [hframe ⟨Nat.le_add_right .., by omega⟩]
    · rw [decide_eq_false hbits, Bool.false_and, Bool.false_and]

end Halves

section Accessors

variable {s : State}

instance : Nonempty Inputs :=
  ⟨⟨0#_, false, false, 0#_, 0#_, false, false, ⟨false, 0#_, 0#_⟩, ⟨false, 0#_, 0#_⟩⟩⟩

theorem returns_symmetric_iff (signed : Bool) (hs : s.start = false) {x : Setting} (hx : x.Accepted)
    (hfit : x.Fits) :
    port.Returns s x.set (x.field.read signed) x.value ↔ x.Symmetric signed :=
  (implements_registerBits.returns_eval_iff hs x.uses_set (x.field.uses_read)).trans
    (x.read_set hx hfit)

theorem preserves (signed : Bool) (hs : s.start = false) (x : Setting) {f : Field}
    (hf : f ≠ x.field) : port.Preserves s x.set (f.read signed) :=
  (implements_registerBits.preserves_iff hs x.uses_set f.uses_read fun _ => f.read_keeps).2
    (x.read_set_other hf)

/-- The driver round-trips while the start bit is clear, except for a base address whose halves
differ. -/
theorem roundTrips_iff (signed : Bool) (hs : s.start = false) {x : Setting} (hx : x.Accepted)
    (hfit : x.Fits) : RoundTrips signed s x ↔ x.Symmetric signed :=
  ⟨fun h => (returns_symmetric_iff signed hs hx hfit).1 h.returns,
    fun h => ⟨(returns_symmetric_iff signed hs hx hfit).2 h, fun _ hf => preserves signed hs x hf⟩⟩

/-- A block size that the controller holds is one that the driver reads back. -/
theorem roundTrips_blockSize : RoundTrips true (reset 10#16 32#24 1#8) (.blockSize 1024#32) := by
  have hx : (Setting.blockSize 1024#32).Accepted := (by decide : 32#32 ≤ 1024#32)
  have hfit : (Setting.blockSize 1024#32).Fits := (by decide : 1024 < 2 ^ 24)
  exact (roundTrips_iff true rfl hx hfit).2 trivial

/-- A base address in the low half of the address space comes back in the high half. -/
theorem not_roundTrips_baseAddress :
    ¬ RoundTrips true (reset 10#16 32#24 1#8) (.baseAddress 0x08000000#64) ∧
      ¬ RoundTrips false (reset 10#16 32#24 1#8) (.baseAddress 0x08000000#64) := by
  have hx : (Setting.baseAddress 0x08000000#64).Accepted := trivial
  have hsym (signed : Bool) : ¬ (Setting.baseAddress 0x08000000#64).Symmetric signed :=
    fun h => absurd h.1 (by decide)
  exact ⟨fun h => hsym true ((returns_symmetric_iff true rfl hx trivial).1 h.returns),
    fun h => hsym false ((returns_symmetric_iff false rfl hx trivial).1 h.returns)⟩

/-- A size setter returns 0 exactly if the size is at least the minimum that the test software
reports and `register` holds it afterwards. -/
def ReportsSize (set : Driver ℤ) (register : State → BitVec 32) (s : State) (v : BitVec 32) :
    Prop :=
  ∀ s' result, port.Runs s set s' result → (result = 0 ↔ 32#32 ≤ v ∧ register s' = v)

/-- A size setter that replaces a size up to the minimum reports the size that it leaves in the
register, except for the minimum and for a size that the register cuts. -/
theorem reportsSize_iff {set : Driver ℤ} {reg : State → BitVec 32} {v held : BitVec 32}
    (hs : s.start = false) (huses : set.Uses StoreOk LoadOk)
    (hresult : ∀ r, (meaning set r).1 = if v ≤ 32#32 then 1 else 0)
    (hreg : ∀ r s', wordBits (register s') = (meaning set r).2 → reg s' = held)
    (hmin : v = 32#32 → held = v) :
    ReportsSize set reg s v ↔ v ≠ 32#32 ∧ (32#32 < v → held = v) := by
  have hrun {s' : State} {result : ℤ} (hr : port.Runs s set s' result) :
      result = (if v ≤ 32#32 then 1 else 0) ∧ reg s' = held := by
    obtain ⟨-, heval⟩ := implements_registerBits.eval hr hs huses
    exact ⟨(congrArg Prod.fst heval).trans (hresult _), hreg _ s' (congrArg Prod.snd heval)⟩
  have hle : v ≤ 32#32 ↔ ¬ 32#32 < v := BitVec.not_lt.symm
  constructor
  · intro h
    obtain ⟨s', result, hr⟩ := implements_registerBits.runs set hs huses
    have hiff := h s' result hr
    rw [(hrun hr).1, (hrun hr).2] at hiff
    refine ⟨fun hv => ?_, fun hv => ?_⟩
    · rw [if_pos (BitVec.le_of_eq hv)] at hiff
      exact one_ne_zero (hiff.2 ⟨BitVec.le_of_eq hv.symm, hmin hv⟩)
    · rw [if_neg (by rwa [hle, not_not])] at hiff
      exact (hiff.1 rfl).2
  · rintro ⟨hne, hheld⟩ s' result hr
    rw [(hrun hr).1, (hrun hr).2]
    by_cases hv : 32#32 < v
    · rw [if_neg (by rwa [hle, not_not])]
      exact iff_of_true rfl ⟨BitVec.le_of_lt hv, hheld hv⟩
    · rw [if_pos (hle.2 hv)]
      refine iff_of_false one_ne_zero fun h => hne ?_
      exact BitVec.le_antisymm (hle.2 hv) h.1

theorem length_eq {r : ℕ → Bool} {s' : State} {v : BitVec 32}
    (h : wordBits (register s') = (meaning (setTransferLength v) r).2) :
    s'.length = if v ≤ 32#32 then 32#32 else v := by
  apply BitVec.eq_of_getLsbD_eq
  intro k hk
  have hbit : Field.transferLength.Holds (64 + k) := by
    simp only [Field.Holds, Field.first, Field.size]
    omega
  have hset := setTransferLength_apply (r := r) v hbit
  rw [← h, wordBits, show (64 + k) / 32 = 2 by omega, show (64 + k) % 32 = k by omega,
    Nat.add_sub_cancel_left] at hset
  exact hset

theorem blockSize_eq {r : ℕ → Bool} {s' : State} {v : BitVec 32}
    (h : wordBits (register s') = (meaning (setBlockSize v) r).2) :
    s'.blockSize = (if v ≤ 32#32 then 32#32 else v).setWidth 24 := by
  apply BitVec.eq_of_getLsbD_eq
  intro k hk
  have hbit : Field.blockSize.Holds (96 + k) := by
    simp only [Field.Holds, Field.first, Field.size]
    omega
  have hset := setBlockSize_apply (r := r) v hbit
  rw [← h, wordBits, show (96 + k) / 32 = 3 by omega, show (96 + k) % 32 = k by omega,
    Nat.add_sub_cancel_left, register, BitVec.getLsbD_append, if_pos hk] at hset
  rw [BitVec.getLsbD_setWidth, decide_eq_true hk, Bool.true_and]
  exact hset

theorem setTransferLength_reports (hs : s.start = false) (v : BitVec 32) :
    ReportsSize (setTransferLength v) (·.length) s v ↔ v ≠ 32#32 := by
  have huses : (setTransferLength v).Uses StoreOk LoadOk :=
    ⟨storeOk (by decide) (by decide), trivial⟩
  rw [reportsSize_iff hs huses (fun _ => rfl) (fun r s' h => length_eq h) fun hv => by simp [hv]]
  refine and_iff_left_of_imp fun _ hv => if_neg ?_
  rwa [BitVec.not_le]

theorem setBlockSize_reports (hs : s.start = false) (v : BitVec 32) :
    ReportsSize (setBlockSize v) (·.blockSize.setWidth 32) s v ↔
      v ≠ 32#32 ∧ v.toNat < 2 ^ 24 := by
  have huses : (setBlockSize v).Uses StoreOk LoadOk :=
    ⟨storeOk (by decide) (by decide), storeOk (by decide) (by decide), trivial⟩
  rw [reportsSize_iff hs huses (fun _ => rfl)
    (fun r s' h => congrArg (BitVec.setWidth 32) (blockSize_eq h)) fun hv => by simp [hv]]
  refine and_congr_right fun hne => ?_
  by_cases hv : 32#32 < v
  · rw [if_neg (by rwa [BitVec.not_le]), ← BitVec.toNat_inj, BitVec.toNat_setWidth,
      BitVec.toNat_setWidth]
    simp only [hv, true_imp_iff]
    have := v.isLt
    omega
  · simp only [hv, false_imp_iff, true_iff]
    rw [BitVec.lt_def] at hv
    simp at hv
    omega

/-- The size setters report what the controller holds, except for the documented minimum and for a
block size of more than 24 bits. -/
theorem setters_report_iff (hs : s.start = false) (v : BitVec 32) :
    (ReportsSize (setTransferLength v) (·.length) s v ↔ v ≠ 32#32) ∧
      (ReportsSize (setBlockSize v) (·.blockSize.setWidth 32) s v ↔
        v ≠ 32#32 ∧ v.toNat < 2 ^ 24) :=
  ⟨setTransferLength_reports hs v, setBlockSize_reports hs v⟩

theorem setters_report_1024 :
    ReportsSize (setTransferLength 1024#32) (·.length) (reset 10#16 32#24 1#8) 1024#32 ∧
      ReportsSize (setBlockSize 1024#32) (·.blockSize.setWidth 32) (reset 10#16 32#24 1#8)
        1024#32 := by
  obtain ⟨htransfer, hblock⟩ := setters_report_iff (s := reset 10#16 32#24 1#8) rfl 1024#32
  exact ⟨htransfer.2 (by decide), hblock.2 (by decide)⟩

/-- The setters reject the minimum, and the block size setter accepts `2 ^ 24`, which leaves 0. -/
theorem not_setters_report :
    ¬ ReportsSize (setTransferLength 32#32) (·.length) (reset 10#16 32#24 1#8) 32#32 ∧
      ¬ ReportsSize (setBlockSize 32#32) (·.blockSize.setWidth 32) (reset 10#16 32#24 1#8) 32#32 ∧
      ¬ ReportsSize (setBlockSize 0x1000000#32) (·.blockSize.setWidth 32) (reset 10#16 32#24 1#8)
        0x1000000#32 := by
  refine ⟨fun h => ?_, fun h => ?_, fun h => ?_⟩
  · exact (setTransferLength_reports rfl _).1 h rfl
  · exact ((setBlockSize_reports rfl _).1 h).1 rfl
  · exact absurd ((setBlockSize_reports rfl _).1 h).2 (by decide)

end Accessors

end AvalonCores.MemoryTester.RamTestController
