import Mathlib.Tactic
import AvalonCores.MemoryTester.Csr

/-! The registers that `mtm_custom_pattern_generator` and `mtm_custom_pattern_checker` have in
common: the payload length, the length of the pattern, and the position in it.  `a` is the
`ADDRESS_WIDTH` of the pattern memory and `m` the `NUM_OF_SYMBOLS` of its words. -/

namespace AvalonCores.MemoryTester.CustomPattern

/-- What a slave port of four words sees in a cycle. -/
structure Csr where
  address : BitVec 2
  read : Bool
  write : Bool
  writedata : BitVec 32
  byteenable : BitVec 4
deriving DecidableEq, Repr

namespace Csr

/-- A cycle without an access. -/
def none : Csr := ⟨0#_, false, false, 0#_, 0#_⟩

variable (c : Csr)

/-- A write to the register at word address `r`. -/
def loads (r : BitVec 2) : Bool := c.address == r && c.write

/-- A write to byte lane `n` of the register at word address `r`. -/
def loadsLane (r : BitVec 2) (n : ℕ) : Bool := c.loads r && c.byteenable.getLsbD n

@[simp] theorem loads_eq_false {c : Csr} (h : c.write = false) (r : BitVec 2) :
    c.loads r = false := by simp [loads, h]

@[simp] theorem loadsLane_eq_false {c : Csr} (h : c.write = false) (r : BitVec 2) (n : ℕ) :
    c.loadsLane r n = false := by simp [loadsLane, h]

end Csr

section Registers

variable {a : ℕ} (c : Csr)

def loadPayloadLengthCounter : Bool := c.loads 0#2

def loadPatternLengthLanes : BitVec 2 := c.byteenable.extractLsb' 0 2

def loadPatternLength : Bool := c.loads 1#2 && loadPatternLengthLanes c != 0#_

def loadPatternPositionCounterLanes : BitVec 2 := c.byteenable.extractLsb' 2 2

def loadPatternPositionCounter : Bool := c.loads 1#2 && loadPatternPositionCounterLanes c != 0#_

def loadInfinitePayloadLength : Bool := c.loadsLane 2#2 0

def loadStart : Bool := c.loadsLane 2#2 3

/-- The payload length after a cycle, in which `decrement` takes a word of `m` bytes off it. -/
def nextPayloadLength (m : ℕ) (decrement : Bool) (payloadLengthCounter : BitVec 32) : BitVec 32 :=
  if loadPayloadLengthCounter c then
    loadLanes c.byteenable c.writedata payloadLengthCounter
  else if decrement then payloadLengthCounter - BitVec.ofNat _ m
  else payloadLengthCounter

def nextPatternLength (patternLength : BitVec 16) : BitVec 16 :=
  if loadPatternLength c then
    loadLanes (loadPatternLengthLanes c) (c.writedata.extractLsb' 0 16) patternLength
  else patternLength

/-- The position after a word: the low `a` bits count up to the end of the pattern. -/
def increment (patternLengthMinusOne : BitVec a) (position : BitVec 16) : BitVec 16 :=
  let low : BitVec a := position.setWidth a
  let next := if low == patternLengthMinusOne then 0#_ else low + 1#_
  (position &&& ~~~(BitVec.allOnes a).setWidth 16) ||| next.setWidth 16

def nextPatternPosition (incrementPatternPositionCounter : Bool)
    (patternLengthMinusOne : BitVec a) (position : BitVec 16) : BitVec 16 :=
  if loadPatternPositionCounter c then
    loadLanes (loadPatternPositionCounterLanes c) (c.writedata.extractLsb' 16 16) position
  else if incrementPatternPositionCounter then increment patternLengthMinusOne position
  else position

/-- The `byte_reversal` wires: the word with its bytes in reverse order. -/
def reverseSymbols {m : ℕ} (x : BitVec (8 * m)) : BitVec (8 * m) :=
  (BitVec.iunfoldr (fun k _ => ((), x.getLsbD (8 * (m - 1 - k / 8) + k % 8))) ()).2

end Registers

variable {a : ℕ} {c : Csr}

theorem nextPayloadLength_of_quiet (h : c.write = false) (m : ℕ) (decrement : Bool)
    (payload : BitVec 32) :
    nextPayloadLength c m decrement payload =
      if decrement then payload - BitVec.ofNat _ m else payload := by
  simp [nextPayloadLength, loadPayloadLengthCounter, h]

/-- The run bit and the pattern length are at different addresses. -/
theorem loadPatternLength_of_loadStart (h : loadStart c = true) : loadPatternLength c = false := by
  have : c.address = 2#2 := by
    simp only [loadStart, Csr.loadsLane, Csr.loads, Bool.and_eq_true, beq_iff_eq] at h
    exact h.1.1
  simp [loadPatternLength, Csr.loads, this]

theorem nextPatternLength_of_quiet (h : c.write = false) (length : BitVec 16) :
    nextPatternLength c length = length := by
  simp [nextPatternLength, loadPatternLength, h]

theorem nextPatternPosition_of_quiet (h : c.write = false) (inc : Bool) (last : BitVec a)
    (position : BitVec 16) :
    nextPatternPosition c inc last position =
      if inc then increment last position else position := by
  simp [nextPatternPosition, loadPatternPositionCounter, h]

/-- Port B of the pattern memory: its address and its output are registered. -/
structure ReadPort (a m : ℕ) where
  address : BitVec a
  q : BitVec (8 * m)
deriving DecidableEq, Repr

def ReadPort.step {m : ℕ} (memory : BitVec a → BitVec (8 * m)) (p : ReadPort a m)
    (address : BitVec a) : ReadPort a m :=
  ⟨address, memory p.address⟩

/-- The word of the pattern memory at position `k`. -/
def patternWord {m : ℕ} (memory : BitVec a → BitVec (8 * m)) (k : ℕ) : BitVec (8 * m) :=
  memory (BitVec.ofNat a k)

/-- A position that fits the address has no bits above it. -/
theorem and_not_mask {position : BitVec 16} (h : position.toNat < 2 ^ a) :
    position &&& ~~~(BitVec.allOnes a).setWidth 16 = 0#_ := by
  apply BitVec.eq_of_getLsbD_eq
  intro k hk
  have hbit : position.getLsbD k = true → k < a := by
    intro hset
    by_contra hak
    have hle : 2 ^ k ≤ position.toNat := Nat.ge_two_pow_of_testBit hset
    have : 2 ^ a ≤ 2 ^ k := Nat.pow_le_pow_right (by omega) (by omega)
    omega
  cases hset : position.getLsbD k with
  | false => simp [hset]
  | true => simp [hk, hbit hset]

/-- Within the pattern, the position counts modulo its length. -/
theorem increment_toNat {patternLength : BitVec 16} {position : BitVec 16}
    (hlen : patternLength.toNat ≤ 2 ^ a) (hpos : position.toNat < patternLength.toNat) :
    (increment ((patternLength - 1#_).setWidth a) position).toNat =
      (position.toNat + 1) % patternLength.toNat := by
  have hlow : (position.setWidth a).toNat = position.toNat := by
    rw [BitVec.toNat_setWidth, Nat.mod_eq_of_lt (by omega)]
  have hone : 1#16 ≤ patternLength := by
    rw [BitVec.le_def]
    simp only [BitVec.toNat_ofNat]
    omega
  have hlast : ((patternLength - 1#_).setWidth a).toNat = patternLength.toNat - 1 := by
    rw [BitVec.toNat_setWidth, BitVec.toNat_sub_of_le hone]
    simp only [BitVec.toNat_ofNat]
    exact Nat.mod_eq_of_lt (by omega)
  simp only [increment, and_not_mask (a := a) (by omega : position.toNat < 2 ^ a), BitVec.zero_or,
    BitVec.toNat_setWidth, beq_iff_eq, ← BitVec.toNat_inj, hlow, hlast]
  by_cases hend : position.toNat = patternLength.toNat - 1
  · rw [if_pos hend, show position.toNat + 1 = patternLength.toNat by omega, Nat.mod_self]
    simp
  · have hlen' := patternLength.isLt
    rw [if_neg hend, BitVec.toNat_add, hlow, BitVec.toNat_ofNat, Nat.add_mod_mod,
      Nat.mod_eq_of_lt (by omega : position.toNat + 1 < 2 ^ a), Nat.mod_eq_of_lt (by omega),
      Nat.mod_eq_of_lt (by omega)]

end AvalonCores.MemoryTester.CustomPattern
