import Mathlib.Tactic
import AvalonCores.MemoryTester.Transfer

/-! What `mtm_pattern_writer` and `mtm_pattern_reader` have in common: their parameters, the byte
reversal between stream and memory, and the sizes of the bursts of a command. -/

namespace AvalonCores.MemoryTester

/-- A word of a data path of `2 ^ b` bytes, `b` being `BYTE_ENABLE_WIDTH_LOG2`. -/
abbrev Word (b : ℕ) := BitVec (8 * 2 ^ b)

/-- The word with its byte lanes in reverse order. -/
def byteReversal {b : ℕ} (x : Word b) : Word b :=
  (BitVec.iunfoldr (fun k _ => ((), x.getLsbD (8 * (2 ^ b - 1 - k / 8) + k % 8))) ()).2

theorem byteReversal_getLsbD {b : ℕ} (x : Word b) {k : ℕ} (hk : k < 8 * 2 ^ b) :
    (byteReversal x).getLsbD k = x.getLsbD (8 * (2 ^ b - 1 - k / 8) + k % 8) :=
  BitVec.iunfoldr_getLsbD (fun _ => ()) ⟨k, hk⟩ fun _ => rfl

@[simp] theorem byteReversal_byteReversal {b : ℕ} (x : Word b) :
    byteReversal (byteReversal x) = x := by
  apply BitVec.eq_of_getLsbD_eq
  intro k hk
  have hlt : 8 * (2 ^ b - 1 - k / 8) + k % 8 < 8 * 2 ^ b := by omega
  have hback : 8 * (2 ^ b - 1 - (8 * (2 ^ b - 1 - k / 8) + k % 8) / 8) +
      (8 * (2 ^ b - 1 - k / 8) + k % 8) % 8 = k := by omega
  rw [byteReversal_getLsbD _ hk, byteReversal_getLsbD _ hlt, hback]

theorem byteReversal_injective (b : ℕ) : (byteReversal : Word b → Word b).Injective :=
  Function.Involutive.injective byteReversal_byteReversal

/-- The parameters of a master with a data path of `2 ^ b` bytes: its burst limit and its FIFO depth
are powers of two, and the FIFO holds at least two full bursts. -/
structure MasterParams (b : ℕ) where
  addressWidth : ℕ
  lengthWidth : ℕ
  burstEnable : Bool
  maxBurstCountLog2 : ℕ
  fifoDepthLog2 : ℕ
  burstRealignEnable : Bool
  addressWidth_le : addressWidth ≤ 64
  lengthWidth_le : lengthWidth ≤ 32
  maxBurstCount_lt : b + maxBurstCountLog2 < 32
  fifoDepth_ge : maxBurstCountLog2 + 1 ≤ fifoDepthLog2

namespace MasterParams

variable {b : ℕ} (p : MasterParams b)

def maxBurstCount : ℕ := 2 ^ p.maxBurstCountLog2

/-- `BURST_WIDTH` -/
def burstWidth : ℕ := p.maxBurstCountLog2 + 1

def fifoDepth : ℕ := 2 ^ p.fifoDepthLog2

theorem maxBurstCount_pos : 0 < p.maxBurstCount := by unfold maxBurstCount; positivity

theorem maxBurstCount_lt_burstWidth : p.maxBurstCount < 2 ^ p.burstWidth :=
  Nat.pow_lt_pow_right (by omega) (by simp [burstWidth])

end MasterParams

/-- The parameters of the two masters of `memory_tester_system.qsys`. -/
def MasterParams.shipped : MasterParams 2 where
  addressWidth := 32
  lengthWidth := 21
  burstEnable := true
  maxBurstCountLog2 := 1
  fifoDepthLog2 := 7
  burstRealignEnable := true
  addressWidth_le := by decide
  lengthWidth_le := by decide
  maxBurstCount_lt := by decide
  fifoDepth_ge := by decide

section Command

variable (b : ℕ) (c : Command)

/-- The command address without the byte offset in a word. -/
def commandAddress : BitVec 64 := c.address >>> b <<< b

/-- The command length without the bytes past the last full word. -/
def commandLength : BitVec 32 := c.length >>> b <<< b

/-- The number of words of a command. -/
def words : ℕ := c.length.toNat / 2 ^ b

/-- The first word of a command. -/
def wordAddress : ℕ := c.address.toNat / 2 ^ b

theorem toNat_shift {w : ℕ} (x : BitVec w) (n : ℕ) :
    (x >>> n <<< n).toNat = x.toNat / 2 ^ n * 2 ^ n := by
  have hle : x.toNat / 2 ^ n * 2 ^ n ≤ x.toNat := Nat.div_mul_le_self _ _
  simp only [BitVec.toNat_shiftLeft, BitVec.toNat_ushiftRight, Nat.shiftRight_eq_div_pow,
    Nat.shiftLeft_eq]
  exact Nat.mod_eq_of_lt (hle.trans_lt x.isLt)

theorem commandAddress_toNat : (commandAddress b c).toNat = wordAddress b c * 2 ^ b :=
  toNat_shift _ _

theorem commandLength_toNat : (commandLength b c).toNat = words b c * 2 ^ b := toNat_shift _ _

theorem commandLength_div : (commandLength b c).toNat / 2 ^ b = words b c := by
  rw [commandLength_toNat, Nat.mul_div_cancel _ (by positivity)]

end Command

section ShortBursts

variable {b : ℕ} (p : MasterParams b) (c : Command)

def addressBurstOffset : BitVec p.maxBurstCountLog2 :=
  (commandAddress b c).extractLsb' b p.maxBurstCountLog2

def lengthBurstOffset : BitVec p.maxBurstCountLog2 :=
  (commandLength b c).extractLsb' b p.maxBurstCountLog2

def shortFirstBurstCount : BitVec p.burstWidth :=
  if p.burstEnable then
    if (commandLength b c >>> b).toNat < p.maxBurstCount - (addressBurstOffset p c).toNat then
      (lengthBurstOffset p c).setWidth _
    else BitVec.ofNat _ (p.maxBurstCount - (addressBurstOffset p c).toNat)
  else 0#_

def adjustedLengthBurstOffset : BitVec p.maxBurstCountLog2 :=
  (commandLength b c - BitVec.ofNat 32 ((shortFirstBurstCount p c).toNat * 2 ^ b)).extractLsb' b
    p.maxBurstCountLog2

def shortLastBurstCount : BitVec p.burstWidth :=
  if p.burstEnable then
    let offset :=
      if p.burstRealignEnable then adjustedLengthBurstOffset p c else lengthBurstOffset p c
    if offset = 0#_ then BitVec.ofNat _ p.maxBurstCount else offset.setWidth _
  else 0#_

/-- `nextLengthCounter` equals the length of the last burst of the command `c` on the bus, which
need not be the command that the master works on. -/
def enableShortLastBurst (nextLengthCounter : BitVec p.lengthWidth) : Bool :=
  p.burstEnable && decide (nextLengthCounter.toNat = 2 ^ b * (shortLastBurstCount p c).toNat)

def enableShortFirstBurst (firstTransfer transferComplete : Bool) : Bool :=
  p.burstEnable && p.burstRealignEnable && firstTransfer && !transferComplete

/-- The next burst count, from the two enables and the registered short burst counts. -/
def selectBurstCount (shortLast shortFirst : Bool) (lastD1 firstD1 : BitVec p.burstWidth) :
    BitVec p.burstWidth :=
  if p.burstEnable then
    if shortFirst then firstD1
    else if shortLast then lastD1
    else BitVec.ofNat _ p.maxBurstCount
  else 1#_

variable {p c}

theorem extractLsb'_toNat {w : ℕ} (x : BitVec w) (n m : ℕ) :
    (x.extractLsb' n m).toNat = x.toNat / 2 ^ n % 2 ^ m := by
  rw [BitVec.extractLsb'_toNat, Nat.shiftRight_eq_div_pow]

theorem addressBurstOffset_toNat :
    (addressBurstOffset p c).toNat = wordAddress b c % p.maxBurstCount := by
  rw [addressBurstOffset, extractLsb'_toNat, commandAddress_toNat,
    Nat.mul_div_cancel _ (by positivity), MasterParams.maxBurstCount]

theorem lengthBurstOffset_toNat :
    (lengthBurstOffset p c).toNat = words b c % p.maxBurstCount := by
  rw [lengthBurstOffset, extractLsb'_toNat, commandLength_div, MasterParams.maxBurstCount]

/-- The number of words to the next burst boundary, or the whole command if it is shorter. -/
def firstBurst (p : MasterParams b) (c : Command) : ℕ :=
  min (words b c) (p.maxBurstCount - wordAddress b c % p.maxBurstCount)

theorem firstBurst_le_words : firstBurst p c ≤ words b c := min_le_left _ _

theorem firstBurst_le_max : firstBurst p c ≤ p.maxBurstCount :=
  (min_le_right _ _).trans (Nat.sub_le _ _)

theorem firstBurst_pos (hN : 0 < words b c) : 0 < firstBurst p c := by
  have := Nat.mod_lt (wordAddress b c) p.maxBurstCount_pos
  unfold firstBurst
  omega

theorem ofNat_burstWidth {n : ℕ} (hn : n ≤ p.maxBurstCount) :
    (BitVec.ofNat p.burstWidth n).toNat = n := by
  rw [BitVec.toNat_ofNat, Nat.mod_eq_of_lt (hn.trans_lt p.maxBurstCount_lt_burstWidth)]

@[simp] theorem one_burstWidth : (1#p.burstWidth).toNat = 1 := by
  simp [MasterParams.burstWidth]

theorem setWidth_burstWidth (x : BitVec p.maxBurstCountLog2) :
    (x.setWidth p.burstWidth).toNat = x.toNat := by
  rw [BitVec.toNat_setWidth, Nat.mod_eq_of_lt]
  exact x.isLt.trans p.maxBurstCount_lt_burstWidth

theorem shortFirstBurstCount_toNat (hp : p.burstEnable = true) :
    (shortFirstBurstCount p c).toNat = firstBurst p c := by
  have hlen : (commandLength b c >>> b).toNat = words b c := by
    rw [BitVec.toNat_ushiftRight, Nat.shiftRight_eq_div_pow, commandLength_div]
  have hoff := addressBurstOffset_toNat (p := p) (c := c)
  have hlt := Nat.mod_lt (wordAddress b c) p.maxBurstCount_pos
  simp only [shortFirstBurstCount, hp, if_true, hlen, hoff, firstBurst]
  split
  · rw [setWidth_burstWidth, lengthBurstOffset_toNat, Nat.mod_eq_of_lt (by omega),
      Nat.min_eq_left (by omega)]
  · rw [ofNat_burstWidth (by omega), Nat.min_eq_right (by omega)]

theorem selectBurstCount_later {short : Bool} {lastD1 firstD1 : BitVec p.burstWidth}
    (hp : p.burstEnable = true) : (selectBurstCount p short false lastD1 firstD1).toNat =
      if short then lastD1.toNat else p.maxBurstCount := by
  simp only [selectBurstCount, hp, if_true, Bool.false_eq_true, if_false]
  split
  · rfl
  · exact ofNat_burstWidth le_rfl

/-- The number of words that the last burst has to hold once all but the last are full. -/
def lastBurst (p : MasterParams b) (c : Command) : ℕ :=
  let rest := if p.burstRealignEnable then words b c - firstBurst p c else words b c
  if rest % p.maxBurstCount = 0 then p.maxBurstCount else rest % p.maxBurstCount

theorem lastBurst_le : lastBurst p c ≤ p.maxBurstCount := by
  have := Nat.mod_lt (words b c) p.maxBurstCount_pos
  have := Nat.mod_lt (words b c - firstBurst p c) p.maxBurstCount_pos
  simp only [lastBurst]
  split_ifs <;> omega

theorem lastBurst_pos : 0 < lastBurst p c := by
  have := p.maxBurstCount_pos
  simp only [lastBurst]
  split_ifs <;> omega

theorem adjustedLengthBurstOffset_toNat (hp : p.burstEnable = true) :
    (adjustedLengthBurstOffset p c).toNat =
      (words b c - firstBurst p c) % p.maxBurstCount := by
  have hN := commandLength_toNat b c
  have hlt := (commandLength b c).isLt
  have hle : firstBurst p c * 2 ^ b ≤ words b c * 2 ^ b :=
    Nat.mul_le_mul_right _ firstBurst_le_words
  have hsub : (commandLength b c - BitVec.ofNat 32 (firstBurst p c * 2 ^ b)).toNat =
      (words b c - firstBurst p c) * 2 ^ b := by
    have hof : (BitVec.ofNat 32 (firstBurst p c * 2 ^ b)).toNat = firstBurst p c * 2 ^ b := by
      rw [BitVec.toNat_ofNat, Nat.mod_eq_of_lt (by omega)]
    rw [BitVec.toNat_sub_of_le (by rw [BitVec.le_def]; omega), hof, hN, Nat.sub_mul]
  rw [adjustedLengthBurstOffset, extractLsb'_toNat, shortFirstBurstCount_toNat hp, hsub,
    Nat.mul_div_cancel _ (by positivity), MasterParams.maxBurstCount]

theorem shortLastBurstCount_toNat (hp : p.burstEnable = true) :
    (shortLastBurstCount p c).toNat = lastBurst p c := by
  have hadj := adjustedLengthBurstOffset_toNat (p := p) (c := c) hp
  have hlen := lengthBurstOffset_toNat (p := p) (c := c)
  have hzero : ∀ x : BitVec p.maxBurstCountLog2, x = 0#_ ↔ x.toNat = 0 := by
    intro x
    rw [← BitVec.toNat_inj, BitVec.toNat_zero]
  simp only [shortLastBurstCount, hp, if_true, lastBurst, hzero]
  cases p.burstRealignEnable with
  | false =>
    simp only [Bool.false_eq_true, if_false, hlen]
    split
    · exact ofNat_burstWidth le_rfl
    · rw [setWidth_burstWidth, hlen]
  | true =>
    simp only [if_true, hadj]
    split
    · exact ofNat_burstWidth le_rfl
    · rw [setWidth_burstWidth, hadj]

/-- The comparison with a last burst holds only for the length of at most one full burst. -/
theorem enableShortLastBurst_le {nl : BitVec p.lengthWidth} {x : ℕ}
    (h : enableShortLastBurst p c nl = true) (hx : nl.toNat = x * 2 ^ b) : x ≤ p.maxBurstCount := by
  simp only [enableShortLastBurst, Bool.and_eq_true, decide_eq_true_eq] at h
  rw [shortLastBurstCount_toNat h.1, hx, mul_comm] at h
  rw [Nat.eq_of_mul_eq_mul_left (by positivity) h.2]
  exact lastBurst_le

end ShortBursts

section Fits

variable {b : ℕ} {p : MasterParams b} {c : Command}

/-- A length counter that holds whole words is zero when it holds none. -/
theorem eq_zero_iff_of_toNat {w k : ℕ} {x : BitVec w} (h : x.toNat = k * 2 ^ b) :
    x = 0#w ↔ k = 0 := by
  rw [← BitVec.toNat_inj, h, BitVec.toNat_zero, Nat.mul_eq_zero]
  have : 2 ^ b ≠ 0 := by positivity
  tauto

/-- A command of at least one word that the length counter can count down. -/
def Fits (p : MasterParams b) (c : Command) : Prop :=
  0 < words b c ∧ words b c * 2 ^ b ≤ 2 ^ p.lengthWidth

instance (c : Command) : Decidable (Fits p c) := inferInstanceAs (Decidable (_ ∧ _))

theorem commandLength_setWidth (p : MasterParams b) (c : Command) :
    (commandLength b c).setWidth p.lengthWidth = BitVec.ofNat _ (words b c * 2 ^ b) := by
  rw [← BitVec.ofNat_toNat, commandLength_toNat]

/-- A length below that of the command is a value of the length register. -/
theorem Fits.toNat_lt (h : Fits p c) {n : ℕ} (hn : n < words b c) :
    (BitVec.ofNat p.lengthWidth (n * 2 ^ b)).toNat = n * 2 ^ b := by
  have hlt : n * 2 ^ b < words b c * 2 ^ b := Nat.mul_lt_mul_of_pos_right hn (by positivity)
  rw [BitVec.toNat_ofNat, Nat.mod_eq_of_lt (hlt.trans_le h.2)]

/-- Lengths that the length register does not tell from that of the command are not shorter. -/
theorem Fits.le_of_ofNat_eq (h : Fits p c) {n : ℕ} (hn : 0 < n)
    (heq : BitVec.ofNat p.lengthWidth (n * 2 ^ b) = BitVec.ofNat _ (words b c * 2 ^ b)) :
    words b c ≤ n := by
  by_contra hlt
  have hmod := congrArg BitVec.toNat heq
  rw [h.toNat_lt (by omega), BitVec.toNat_ofNat] at hmod
  have hpos : 0 < n * 2 ^ b := by positivity
  rcases h.2.lt_or_eq with hsmall | hfull
  · rw [Nat.mod_eq_of_lt hsmall] at hmod
    have := Nat.eq_of_mul_eq_mul_right (by positivity) hmod
    omega
  · rw [hfull, Nat.mod_self] at hmod
    omega

/-- A command of at least one word whose length is a value of the length register. -/
def Short (p : MasterParams b) (c : Command) : Prop :=
  0 < words b c ∧ words b c * 2 ^ b < 2 ^ p.lengthWidth

instance (c : Command) : Decidable (Short p c) := inferInstanceAs (Decidable (_ ∧ _))

theorem Short.fits (h : Short p c) : Fits p c := ⟨h.1, h.2.le⟩

theorem Short.toNat_le (h : Short p c) {n : ℕ} (hn : n ≤ words b c) :
    (BitVec.ofNat p.lengthWidth (n * 2 ^ b)).toNat = n * 2 ^ b := by
  rw [BitVec.toNat_ofNat, Nat.mod_eq_of_lt ((Nat.mul_le_mul_right _ hn).trans_lt h.2)]

end Fits

end AvalonCores.MemoryTester
