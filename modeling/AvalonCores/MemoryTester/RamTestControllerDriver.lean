import Mathlib.Tactic
import AvalonCores.MemoryTester.DirectIo
import AvalonCores.MemoryTester.RamTestController

/-! The driver of `mtm_ram_test_controller`, `ram_test_controller.c`.  While the start bit is clear,
the slave port is a register file, `implements_registerBits`, and a function of the driver reads or
writes the bits of its own field. -/

namespace AvalonCores.MemoryTester.RamTestController

open Sync

section Port

variable (s : State) (i : Inputs)

/-- The word at each address of the slave port. -/
def register : ℕ → BitVec 32
  | 0 => s.baseAddress.extractLsb' 0 32
  | 1 => s.baseAddress.extractLsb' 32 32
  | 2 => s.length
  | 3 => s.blockTrail ++ s.blockSize
  | 4 => 0#7 ++ BitVec.ofBool s.start ++ 0#23 ++ BitVec.ofBool s.concurrentAccessEnable
  | 6 => 0#16 ++ s.timerResolution
  | 7 => s.timerCounter
  | _ => 0#32

/-- The bits that keep what is written to them, apart from the start bit. -/
def writable (k : ℕ) : Bool :=
  decide (k ≤ 128) || decide (192 ≤ k ∧ k < 208) || decide (224 ≤ k ∧ k < 256)

variable {s i}

theorem load_of_stopped (hs : s.start = false) (a : BitVec 3) :
    load s i a = (i.csrWrite && decide (a.toNat = i.csrAddress.toNat)) := by
  simp [load, csrWaitrequest, hs, beq_eq_decide]

theorem getLsbD_flags (start concurrent : Bool) (k : ℕ) :
    (0#7 ++ BitVec.ofBool start ++ 0#23 ++ BitVec.ofBool concurrent).getLsbD k =
      (decide (k = 0) && concurrent || decide (k = 24) && start) := by
  simp only [BitVec.getLsbD_append, BitVec.getLsbD_ofBool, BitVec.getLsbD_zero]
  split_ifs <;> grind

theorem getLsbD_loadBaseAddressLanes (k : ℕ) :
    (loadBaseAddressLanes i).getLsbD k =
      if k < 4 then !i.csrAddress.getLsbD 0 && i.csrByteenable.getLsbD k
      else i.csrAddress.getLsbD 0 && i.csrByteenable.getLsbD (k - 4) := by
  rw [loadBaseAddressLanes]
  cases i.csrAddress.getLsbD 0 <;>
    simp only [BitVec.getLsbD_append, BitVec.getLsbD_zero, if_true, Bool.not_true, Bool.not_false,
      Bool.false_eq_true, if_false, Bool.true_and, Bool.false_and]

/-- The halves of the base address have the word addresses 0 and 1. -/
theorem baseAddress_step (hs : s.start = false) {k : ℕ} (hk : k < 64) :
    (step s i).baseAddress.getLsbD k =
      if i.csrWrite = true ∧ k / 32 = i.csrAddress.toNat ∧
          i.csrByteenable.getLsbD (k % 32 / 8) = true then
        i.csrWritedata.getLsbD (k % 32)
      else s.baseAddress.getLsbD k := by
  have hbit : i.csrAddress.getLsbD 0 = decide (i.csrAddress.toNat % 2 = 1) := by
    simp [BitVec.getLsbD]
  simp only [step, load_of_stopped hs]
  rw [getLsbD_ite_loadLanes _ _ _ _ hk, getLsbD_loadBaseAddressLanes, BitVec.getLsbD_append, hbit]
  by_cases hhalf : k < 32
  · have hlane : k / 8 < 4 := by omega
    rw [if_pos hhalf, if_pos hlane, Nat.mod_eq_of_lt hhalf, Nat.div_eq_of_lt hhalf]
    grind
  · have hlane : ¬ k / 8 < 4 := by omega
    have hmod : k % 32 = k - 32 := by omega
    have hdiv : k / 8 - 4 = (k - 32) / 8 := by omega
    rw [if_neg hhalf, if_neg hlane, hmod, hdiv, show k / 32 = 1 by omega]
    grind

theorem start_step (hs : s.start = false) (hrun : loadStart s i = false) :
    (step s i).start = false := by
  simp [step, hrun, hs]

/-- In a stopped controller, a write changes the implemented bits of the enabled lanes of the word
that it addresses, and nothing else changes the registers. -/
theorem register_step (hs : s.start = false) (hrun : loadStart s i = false) (n : ℕ) {k : ℕ}
    (hk : k < 32) : (register (step s i) n).getLsbD k =
      if i.csrWrite = true ∧ n = i.csrAddress.toNat ∧ i.csrByteenable.getLsbD (k / 8) = true then
        writable (32 * n + k) && i.csrWritedata.getLsbD k
      else (register s n).getLsbD k := by
  have hload := load_of_stopped (i := i) hs
  have haddress := i.csrAddress.isLt
  rcases n with _ | _ | _ | _ | _ | _ | _ | _ | n
  · simp only [register, BitVec.getLsbD_extractLsb', hk, decide_true, Bool.true_and,
      baseAddress_step hs (by omega : 0 + k < 64), writable]
    grind
  · simp only [register, BitVec.getLsbD_extractLsb', hk, decide_true, Bool.true_and,
      baseAddress_step hs (by omega : 32 + k < 64), writable]
    grind
  · simp only [register, step, hload]
    rw [getLsbD_ite_loadLanes _ _ _ _ hk]
    simp only [writable]
    grind
  · simp only [register, step, hload, BitVec.getLsbD_append]
    by_cases hsize : k < 24
    · rw [if_pos hsize, if_pos hsize, getLsbD_ite_loadLanes _ _ _ _ hsize]
      simp only [BitVec.getLsbD_extractLsb', writable]
      grind
    · rw [if_neg hsize, if_neg hsize]
      simp only [apply_ite (BitVec.getLsbD · (k - 24)), BitVec.getLsbD_extractLsb', writable]
      grind
  · simp only [register, getLsbD_flags, start_step hs hrun, hs, writable]
    simp only [step, hload]
    grind
  · simp only [register, BitVec.getLsbD_zero, writable]
    grind
  · simp only [register, step, hload, BitVec.getLsbD_append]
    by_cases hresolution : k < 16
    · rw [if_pos hresolution, if_pos hresolution, getLsbD_ite_loadLanes _ _ _ _ hresolution]
      simp only [BitVec.getLsbD_extractLsb', writable]
      grind
    · rw [if_neg hresolution, if_neg hresolution]
      simp only [BitVec.getLsbD_zero, writable]
      grind
  · simp only [register, step, hload, incrementTimerCounter, hs, Bool.false_and,
      Bool.false_eq_true, if_false]
    rw [getLsbD_ite_loadLanes _ _ _ _ hk]
    simp only [writable]
    grind
  · simp only [register, BitVec.getLsbD_zero]
    grind

/-- The signals of the slave port in a cycle. -/
def access (c : CsrAccess) (i : Inputs) : Inputs :=
  { i with
    csrAddress := c.address
    csrRead := c.read
    csrWrite := c.write
    csrWritedata := c.writedata
    csrByteenable := c.byteenable }

def port : Port DirectStore DirectLoad (BitVec 32) State Inputs where
  step := step
  idle := access CsrAccess.none
  store x := access x.toCsrAccess
  load l := access l.toCsrAccess
  waits := csrWaitrequest
  value l s := l.value s.readDataD1

/-- A store that does not write the start bit. -/
def StoreOk (x : DirectStore) : Prop := x.Within 0 32 ∧ ¬ x.Writes 152

def LoadOk (l : DirectLoad) : Prop := l.Within 0 32

theorem loadStart_of_storeOk (hs : s.start = false) {x : DirectStore} (hx : StoreOk x)
    (i : Inputs) : loadStart s (access x.toCsrAccess i) = false := by
  obtain ⟨⟨haligned, -, hoffset⟩, hstart⟩ := hx
  have hword : (BitVec.ofNat 3 (x.word 4)).toNat = x.word 4 := toNat_wordAddress hoffset
  rw [DirectStore.writes_iff haligned] at hstart
  simp only [loadStart, load_of_stopped hs, access, DirectStore.toCsrAccess, hword]
  simp at hstart ⊢
  exact hstart

/-- A cycle without a write keeps the registers. -/
theorem wordBits_step (hs : s.start = false) (hw : i.csrWrite = false) :
    (step s i).start = false ∧ wordBits (register (step s i)) = wordBits (register s) := by
  have hrun : loadStart s i = false := by simp [loadStart, load, hw]
  refine ⟨start_step hs hrun, funext fun k => ?_⟩
  simp [wordBits, register_step hs hrun (k / 32) (Nat.mod_lt k (by decide)), hw]

theorem implements_registerBits :
    port.Implements (registerBits writable) (fun s => wordBits (register s)) (·.start = false)
      StoreOk LoadOk where
  idle hs i := wordBits_step hs rfl
  store {s x} hs hx i := by
    have hrun := loadStart_of_storeOk hs hx i
    obtain ⟨⟨haligned, -, hoffset⟩, -⟩ := hx
    have hword : (BitVec.ofNat 3 (x.word 4)).toNat = x.word 4 := toNat_wordAddress hoffset
    refine ⟨by simp [port, csrWaitrequest, hs], start_step hs hrun, ?_⟩
    refine wordBits_store haligned fun n k hk => ?_
    simpa [port, access, DirectStore.toCsrAccess, hword] using register_step hs hrun n hk
  load {s l} hs hl i := by
    have hword : (BitVec.ofNat 3 (l.offset / 4)).toNat = l.offset / 4 := toNat_wordAddress hl.upper
    refine ⟨rfl, (wordBits_step hs rfl).1, (wordBits_step hs rfl).2, ?_⟩
    rw [← wordBits_load hl.aligned, ← hword]
    rfl

end Port

section Driver

open Program

def lowBaseReg : ℕ := 0x0

def highBaseReg : ℕ := 0x4

def lengthReg : ℕ := 0x8

def blockReg : ℕ := 0xC

def controlReg : ℕ := 0x10

def timerResReg : ℕ := 0x18

def timerReg : ℕ := 0x1C

def blockSizeByteOffset : ℕ := 0

def blockTrailDistanceByteOffset : ℕ := 3

def controlConcurrentAccessByteOffset : ℕ := 0

def controlStartByteOffset : ℕ := 3

def setBaseAddress (ramBase : BitVec 64) : Driver Unit := do
  write (iowr32Direct lowBaseReg ((ramBase &&& 0xFFFFFFFF#64).setWidth 32))
  write (iowr32Direct highBaseReg (((ramBase >>> 32) &&& 0xFFFFFFFF#64).setWidth 32))

def setTransferLength (length : BitVec 32) : Driver ℤ := do
  let fail : ℤ := if length ≤ 32#32 then 1 else 0
  let length := if length ≤ 32#32 then 32#32 else length
  write (iowr32Direct lengthReg length)
  return fail

def setBlockSize (blockSize : BitVec 32) : Driver ℤ := do
  let fail : ℤ := if blockSize ≤ 32#32 then 1 else 0
  let blockSize := if blockSize ≤ 32#32 then 32#32 else blockSize
  write (iowr16Direct (blockReg + blockSizeByteOffset) ((blockSize &&& 0x0000FFFF#32).setWidth 16))
  write (iowr8Direct (blockReg + blockSizeByteOffset + 2)
    (((blockSize >>> 16) &&& 0x000000FF#32).setWidth 8))
  return fail

def setBlockTrailDistance (trailDistance : BitVec 8) : Driver ℤ := do
  let fail : ℤ := if trailDistance = 0#8 then 1 else 0
  let trailDistance := if trailDistance = 0#8 then 1#8 else trailDistance
  write (iowr8Direct (blockReg + blockTrailDistanceByteOffset) trailDistance)
  return fail

def enableConcurrentAccesses : Driver Unit :=
  write (iowr8Direct (controlReg + controlConcurrentAccessByteOffset) 1#8)

def disableConcurrentAccesses : Driver Unit :=
  write (iowr8Direct (controlReg + controlConcurrentAccessByteOffset) 0#8)

def setTimerResolution (resolution : BitVec 16) : Driver ℤ := do
  let fail : ℤ := if resolution < 2#16 then 1 else 0
  let resolution := if resolution < 2#16 then 10#16 else resolution
  write (iowr16Direct timerResReg resolution)
  return fail

def setTimer (timer : BitVec 32) : Driver Unit := write (iowr32Direct timerReg timer)

/-- The result of the compiler's `__builtin_ldwio`, through which `IORD_32DIRECT` loads, as an
`unsigned long long`.  `signed` tells whether that result is an `int`. -/
def toUnsignedLongLong (signed : Bool) (x : BitVec 32) : BitVec 64 :=
  if signed then x.signExtend 64 else x.setWidth 64

def readBaseAddress (signed : Bool) : Driver (BitVec 64) := do
  let baseAddress := toUnsignedLongLong signed (← read (iord32Direct lowBaseReg))
  return (baseAddress <<< 32) ||| toUnsignedLongLong signed (← read (iord32Direct highBaseReg))

def readTransferLength : Driver (BitVec 32) := read (iord32Direct lengthReg)

def readBlockSize : Driver (BitVec 32) := do
  return (← read (iord32Direct (blockReg + blockSizeByteOffset))) &&& 0x00FFFFFF#32

def readBlockTrailDistance : Driver (BitVec 32) :=
  read (iord8Direct (blockReg + blockTrailDistanceByteOffset))

def readConcurrentAccesses : Driver (BitVec 8) := do
  return ((← read (iord8Direct (controlReg + controlConcurrentAccessByteOffset))) &&&
    0x01#32).setWidth 8

def readStart : Driver (BitVec 8) := do
  return ((← read (iord8Direct (controlReg + controlStartByteOffset))) &&& 0x01#32).setWidth 8

def readTimerResolution : Driver (BitVec 16) := do
  return (← read (iord16Direct timerResReg)).setWidth 16

def readTimer : Driver (BitVec 32) := read (iord32Direct timerReg)

/-- What the read functions return. -/
inductive Field
  | baseAddress
  | transferLength
  | blockSize
  | blockTrailDistance
  | concurrentAccesses
  | start
  | timerResolution
  | timer
deriving DecidableEq, Repr

/-- The width of the result of a read function. -/
@[reducible] def Field.width : Field → ℕ
  | baseAddress => 64
  | transferLength | blockSize | blockTrailDistance | timer => 32
  | timerResolution => 16
  | concurrentAccesses | start => 8

def Field.read (signed : Bool) : (f : Field) → Driver (BitVec f.width)
  | baseAddress => readBaseAddress signed
  | transferLength => readTransferLength
  | blockSize => readBlockSize
  | blockTrailDistance => readBlockTrailDistance
  | concurrentAccesses => readConcurrentAccesses
  | start => readStart
  | timerResolution => readTimerResolution
  | timer => readTimer

/-- The calls of the setters. -/
inductive Setting
  | baseAddress (v : BitVec 64)
  | transferLength (v : BitVec 32)
  | blockSize (v : BitVec 32)
  | blockTrailDistance (v : BitVec 8)
  | concurrentAccesses (enable : Bool)
  | timerResolution (v : BitVec 16)
  | timer (v : BitVec 32)
deriving DecidableEq, Repr

namespace Setting

def set : Setting → Driver Unit
  | baseAddress v => setBaseAddress v
  | transferLength v => do let _ ← setTransferLength v
  | blockSize v => do let _ ← setBlockSize v
  | blockTrailDistance v => do let _ ← setBlockTrailDistance v
  | concurrentAccesses true => enableConcurrentAccesses
  | concurrentAccesses false => disableConcurrentAccesses
  | timerResolution v => do let _ ← setTimerResolution v
  | timer v => setTimer v

/-- The setter does not replace the value by another one. -/
def Accepted : Setting → Prop
  | baseAddress _ | concurrentAccesses _ | timer _ => True
  | transferLength v | blockSize v => 32#32 ≤ v
  | blockTrailDistance v => v ≠ 0#8
  | timerResolution v => 2#16 ≤ v

/-- The block size has 24 bits. -/
def Fits : Setting → Prop
  | blockSize v => v.toNat < 2 ^ 24
  | _ => True

@[reducible] def field : Setting → Field
  | baseAddress _ => .baseAddress
  | transferLength _ => .transferLength
  | blockSize _ => .blockSize
  | blockTrailDistance _ => .blockTrailDistance
  | concurrentAccesses _ => .concurrentAccesses
  | timerResolution _ => .timerResolution
  | timer _ => .timer

/-- The value in the type of the matching read function. -/
def value : (x : Setting) → BitVec x.field.width
  | baseAddress v => v
  | transferLength v => v
  | blockSize v => v
  | blockTrailDistance v => v.setWidth 32
  | concurrentAccesses enable => (BitVec.ofBool enable).setWidth 8
  | timerResolution v => v
  | timer v => v

end Setting

end Driver

section Meaning

open Program

variable {signed : Bool} {r r' : ℕ → Bool}

/-- The meaning of a program over the register file of the controller. -/
abbrev meaning {α : Type} (p : Driver α) (r : ℕ → Bool) : α × (ℕ → Bool) :=
  p.eval (registerBits writable) r

/-- The first bit of a field. -/
def Field.first : Field → ℕ
  | baseAddress => 0
  | transferLength => 64
  | blockSize => 96
  | blockTrailDistance => 120
  | concurrentAccesses => 128
  | start => 152
  | timerResolution => 192
  | timer => 224

/-- The number of bits that a setter of the field writes. -/
def Field.size : Field → ℕ
  | baseAddress => 64
  | transferLength | timer => 32
  | blockSize => 24
  | blockTrailDistance | concurrentAccesses | start => 8
  | timerResolution => 16

/-- The number of bits of a field that are implemented. -/
def Field.bits : Field → ℕ
  | concurrentAccesses | start => 1
  | f => f.size

/-- Bit `k` of the registers belongs to the field. -/
abbrev Field.Holds (f : Field) (k : ℕ) : Prop := f.first ≤ k ∧ k < f.first + f.size

theorem Field.bits_le (f : Field) : f.bits ≤ f.size := by cases f <;> decide

theorem Field.not_holds {f g : Field} (hne : f ≠ g) {k : ℕ} (hf : f.Holds k) : ¬ g.Holds k := by
  cases f <;> cases g <;> simp only [Holds, first, size] at * <;> first | omega | contradiction

theorem storeOk {o n : ℕ} {data : BitVec 32} (h : o % 4 + n ≤ 4)
    (hrun : o + n ≤ 19 ∨ 20 ≤ o ∧ o < 32) : StoreOk ⟨o, n, data⟩ :=
  ⟨⟨h, Nat.zero_le o, by simp only; omega⟩, by simp only [DirectStore.Writes]; omega⟩

theorem loadOk {o n : ℕ} (h : o % 4 + n ≤ 4) (hlt : o < 32) : LoadOk ⟨o, n⟩ :=
  ⟨h, Nat.zero_le o, hlt⟩

theorem Field.uses_read (f : Field) : (f.read signed).Uses StoreOk LoadOk := by
  cases f
  case baseAddress =>
    exact ⟨loadOk (by decide) (by decide), fun _ =>
      ⟨loadOk (by decide) (by decide), fun _ => trivial⟩⟩
  all_goals exact ⟨loadOk (by decide) (by decide), fun _ => trivial⟩

theorem Setting.uses_set (x : Setting) : x.set.Uses StoreOk LoadOk := by
  cases x
  case baseAddress v =>
    exact ⟨storeOk (by decide) (by decide), storeOk (by decide) (by decide), trivial⟩
  case blockSize v =>
    exact ⟨storeOk (by decide) (by decide), storeOk (by decide) (by decide), trivial⟩
  case concurrentAccesses e =>
    cases e <;> exact ⟨storeOk (by decide) (by decide), trivial⟩
  all_goals exact ⟨storeOk (by decide) (by decide), trivial⟩

theorem Field.read_keeps (f : Field) : (meaning (f.read signed) r).2 = r := by
  cases f <;> rfl

/-- A read function other than `readBaseAddress` returns the bits of its field. -/
theorem Field.getLsbD_read {f : Field} (hf : f ≠ .baseAddress) {k : ℕ} (hk : k < f.width) :
    (meaning (f.read signed) r).1.getLsbD k = (decide (k < f.bits) && r (f.first + k)) := by
  cases f
  case baseAddress => contradiction
  case transferLength | timer | blockTrailDistance => exact @getLsbD_load writable r _ k hk
  case blockSize => exact @getLsbD_load_and writable r _ 24 (by decide) k hk
  case concurrentAccesses | start =>
    have hk32 : k < 32 := hk.trans (by decide)
    refine (BitVec.getLsbD_setWidth ..).trans ?_
    rw [show decide (k < 8) = true from decide_eq_true hk]
    exact @getLsbD_load_and writable r _ 1 (by decide) k hk32
  case timerResolution =>
    have hk32 : k < 32 := hk.trans (by decide)
    refine (BitVec.getLsbD_setWidth ..).trans ?_
    rw [show decide (k < 16) = true from decide_eq_true hk]
    exact @getLsbD_load writable r _ k hk32

/-- A mask that keeps the bits of a conversion to a smaller type does not matter. -/
theorem getLsbD_truncate {w n : ℕ} {v mask : BitVec w} (hmask : ∀ k < n, mask.getLsbD k = true)
    {k : ℕ} (hk : k < n) : ((v &&& mask).setWidth n).getLsbD k = v.getLsbD k := by
  simp [hk, hmask k hk]

theorem setTransferLength_apply (v : BitVec 32) {k : ℕ} (hk : Field.transferLength.Holds k) :
    (meaning (setTransferLength v) r).2 k =
      (if v ≤ 32#32 then 32#32 else v).getLsbD (k - 64) := by
  simp only [Field.Holds, Field.first, Field.size] at hk
  simp only [meaning, setTransferLength, eval_bind, eval_write, eval_pure, store32_apply, writable,
    lengthReg]
  rw [if_pos (by omega)]
  simp [show k ≤ 128 by omega]

/-- The 16-bit and the 8-bit store of a block size. -/
theorem setBlockSize_apply (v : BitVec 32) {k : ℕ} (hk : Field.blockSize.Holds k) :
    (meaning (setBlockSize v) r).2 k = (if v ≤ 32#32 then 32#32 else v).getLsbD (k - 96) := by
  simp only [Field.Holds, Field.first, Field.size] at hk
  simp only [meaning, setBlockSize, eval_bind, eval_write, eval_pure, store16_apply, store8_apply,
    writable, blockReg, blockSizeByteOffset]
  by_cases hlow : k < 112
  · rw [if_neg (by omega), if_pos (by omega), getLsbD_truncate (by decide) (by omega)]
    simp [show k ≤ 128 by omega]
  · rw [if_pos (by omega), getLsbD_truncate (by decide) (by omega), BitVec.getLsbD_ushiftRight]
    simp [show k ≤ 128 by omega, show 16 + (k - 112) = k - 96 by omega]

/-- A setter writes its value to the bits of its field. -/
theorem Setting.set_holds {x : Setting} (hx : x.Accepted) {k : ℕ} (hk : x.field.Holds k) :
    (meaning x.set r).2 k = x.value.getLsbD (k - x.field.first) := by
  cases x
  case baseAddress v =>
    simp only [Field.Holds, Field.first, Field.size] at hk
    simp only [meaning, set, setBaseAddress, eval_bind, eval_write, store32_apply, Field.first,
      value, writable, lowBaseReg, highBaseReg]
    by_cases hlow : k < 32
    · rw [if_neg (by omega), if_pos (by omega), getLsbD_truncate (by decide) (by omega)]
      simp [show k ≤ 128 by omega]
    · rw [if_pos (by omega), getLsbD_truncate (by decide) (by omega),
        BitVec.getLsbD_ushiftRight]
      simp [show k ≤ 128 by omega, show 32 + (k - 32) = k by omega]
  case transferLength v =>
    have hv : v ≤ 32#32 → 32#32 = v := fun h => BitVec.le_antisymm hx h
    have hset := setTransferLength_apply (r := r) v hk
    rwa [ite_eq_right_iff.2 hv] at hset
  case blockSize v =>
    have hv : v ≤ 32#32 → 32#32 = v := fun h => BitVec.le_antisymm hx h
    have hset := setBlockSize_apply (r := r) v hk
    rwa [ite_eq_right_iff.2 hv] at hset
  case blockTrailDistance v =>
    simp only [Field.Holds, Field.first, Field.size] at hk
    simp only [meaning, set, setBlockTrailDistance, eval_bind, eval_write, eval_pure, if_neg hx,
      store8_apply, Field.first, value, writable, blockReg, blockTrailDistanceByteOffset,
      BitVec.getLsbD_setWidth]
    rw [if_pos (by omega)]
    simp [show k ≤ 128 by omega, show k - 120 < 32 by omega]
  case concurrentAccesses e =>
    have hone : set (.concurrentAccesses e) =
        write (iowr8Direct 0x10 ((BitVec.ofBool e).setWidth 8)) := by
      cases e <;> rfl
    simp only [Field.Holds, Field.first, Field.size] at hk
    simp only [hone, meaning, eval_write, store8_apply, Field.first, value, writable,
      BitVec.getLsbD_setWidth, BitVec.getLsbD_ofBool]
    rw [if_pos (by omega)]
    by_cases hbit : k = 128
    · simp [hbit]
    · simp [show k - 128 ≠ 0 by omega]
  case timerResolution v =>
    simp only [Field.Holds, Field.first, Field.size] at hk
    simp only [meaning, set, setTimerResolution, eval_bind, eval_write, eval_pure,
      if_neg (BitVec.not_lt.2 hx), store16_apply, Field.first, value, writable, timerResReg]
    rw [if_pos (by omega)]
    simp [show 192 ≤ k ∧ k < 208 by omega]
  case timer v =>
    simp only [Field.Holds, Field.first, Field.size] at hk
    simp only [meaning, set, setTimer, eval_write, store32_apply, Field.first, value, writable,
      timerReg]
    rw [if_pos (by omega)]
    simp [show 224 ≤ k ∧ k < 256 by omega]

/-- A setter writes no other bits. -/
theorem Setting.set_frame (x : Setting) {k : ℕ} (hk : ¬ x.field.Holds k) :
    (meaning x.set r).2 k = r k := by
  cases x <;> simp only [Field.Holds, Field.first, Field.size, not_and_or] at hk
  case baseAddress v =>
    simp only [meaning, set, setBaseAddress, eval_bind, eval_write, store32_apply, lowBaseReg,
      highBaseReg]
    rw [if_neg (by omega), if_neg (by omega)]
  case transferLength v =>
    simp only [meaning, set, setTransferLength, eval_bind, eval_write, eval_pure, store32_apply,
      lengthReg]
    rw [if_neg (by omega)]
  case blockSize v =>
    simp only [meaning, set, setBlockSize, eval_bind, eval_write, eval_pure, store16_apply,
      store8_apply, blockReg, blockSizeByteOffset]
    rw [if_neg (by omega), if_neg (by omega)]
  case blockTrailDistance v =>
    simp only [meaning, set, setBlockTrailDistance, eval_bind, eval_write, eval_pure,
      store8_apply, blockReg, blockTrailDistanceByteOffset]
    rw [if_neg (by omega)]
  case concurrentAccesses e =>
    cases e <;>
      simp only [meaning, set, enableConcurrentAccesses, disableConcurrentAccesses, eval_write,
        store8_apply, controlReg, controlConcurrentAccessByteOffset] <;>
      rw [if_neg (by omega)]
  case timerResolution v =>
    simp only [meaning, set, setTimerResolution, eval_bind, eval_write, eval_pure, store16_apply,
      timerResReg]
    rw [if_neg (by omega)]
  case timer v =>
    simp only [meaning, set, setTimer, eval_write, store32_apply, timerReg]
    rw [if_neg (by omega)]

end Meaning

end AvalonCores.MemoryTester.RamTestController
