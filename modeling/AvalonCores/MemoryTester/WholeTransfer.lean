import Mathlib.Tactic
import AvalonCores.MemoryTester.WholeBursts

/-! Transfers whose base address, length and block size are multiples of the maximum burst size:
their blocks are commands of whole bursts, and follow one another in memory. -/

namespace AvalonCores.MemoryTester

variable {b : ℕ} {p : MasterParams b} {t : Transfer}

/-- What the settings of the test software guarantee of a transfer for the master `p`. -/
structure Transfer.Testable (t : Transfer) (p : MasterParams b) : Prop where
  base_dvd : p.maxBurstCount * 2 ^ b ∣ t.baseAddress.toNat
  length_dvd : p.maxBurstCount * 2 ^ b ∣ t.transferLength.toNat
  block_dvd : p.maxBurstCount * 2 ^ b ∣ t.blockSize.toNat
  length_pos : 0 < t.transferLength.toNat
  block_pos : 0 < t.blockSize.toNat
  block_lt : t.blockSize.toNat < 2 ^ p.lengthWidth
  within : t.baseAddress.toNat + t.transferLength.toNat ≤ 2 ^ p.addressWidth

instance (t : Transfer) (p : MasterParams b) : Decidable (t.Testable p) :=
  decidable_of_iff (_ ∧ _ ∧ _ ∧ _ ∧ _ ∧ _ ∧ _)
    ⟨fun ⟨h1, h2, h3, h4, h5, h6, h7⟩ => ⟨h1, h2, h3, h4, h5, h6, h7⟩,
      fun ⟨h1, h2, h3, h4, h5, h6, h7⟩ => ⟨h1, h2, h3, h4, h5, h6, h7⟩⟩

namespace Transfer

/-- The bytes of the blocks before block `k`. -/
def bytesBefore (t : Transfer) (k : ℕ) : ℕ := min (k * t.blockSize.toNat) t.transferLength.toNat

/-- The words of the blocks before block `k`. -/
def wordsBefore (t : Transfer) (b k : ℕ) : ℕ := t.bytesBefore k / 2 ^ b

namespace Testable

variable {k : ℕ}

/-- The number of words of the transfer. -/
theorem length_mul (h : t.Testable p) :
    t.transferLength.toNat / 2 ^ b * 2 ^ b = t.transferLength.toNat :=
  Nat.div_mul_cancel ((Dvd.intro_left _ rfl).trans h.length_dvd)

theorem length_div_pos (h : t.Testable p) : 0 < t.transferLength.toNat / 2 ^ b := by
  by_contra hzero
  have hlength := h.length_mul
  rw [Nat.eq_zero_of_not_pos hzero, zero_mul] at hlength
  exact h.length_pos.ne hlength

theorem bytesBefore_eq (h : t.Testable p) (hk : k < t.blockCount) :
    t.bytesBefore k = k * t.blockSize.toNat :=
  Nat.min_eq_left (mul_lt_of_lt_blockCount h.block_pos hk)

/-- The length of a block, which runs to the next one or to the end of the transfer. -/
theorem length_eq (h : t.Testable p) (hk : k < t.blockCount) :
    (t.block k).length.toNat = t.bytesBefore (k + 1) - t.bytesBefore k := by
  have hle := mul_lt_of_lt_blockCount h.block_pos hk
  have hlt := t.blockSize.isLt
  rw [h.bytesBefore_eq hk, bytesBefore, Nat.succ_mul]
  by_cases hlast : k + 1 = t.blockCount
  · have hrest := (remaining_le_iff h.block_pos hk).mpr hlast
    simp only [block, hlast, if_true, BitVec.toNat_ofNat]
    rw [Nat.mod_eq_of_lt (by omega)]
    omega
  · have hmore := (lt_blockCount_iff h.block_pos k).mp (by omega)
    rw [Nat.succ_mul] at hmore
    simp only [block, hlast, if_false]
    omega

theorem bytesBefore_dvd (h : t.Testable p) (k : ℕ) :
    p.maxBurstCount * 2 ^ b ∣ t.bytesBefore k := by
  unfold bytesBefore
  rcases Nat.le_total (k * t.blockSize.toNat) t.transferLength.toNat with hle | hle
  · rw [Nat.min_eq_left hle]
    exact h.block_dvd.mul_left k
  · rw [Nat.min_eq_right hle]
    exact h.length_dvd

theorem wordsBefore_mul (h : t.Testable p) (k : ℕ) :
    t.wordsBefore b k * 2 ^ b = t.bytesBefore k :=
  Nat.div_mul_cancel ((Dvd.intro_left _ rfl).trans (h.bytesBefore_dvd k))

theorem bytesBefore_mono (t : Transfer) {j : ℕ} (hjk : j ≤ k) :
    t.bytesBefore j ≤ t.bytesBefore k :=
  min_le_min_right _ (Nat.mul_le_mul_right _ hjk)

theorem wordsBefore_mono (b : ℕ) (t : Transfer) {j : ℕ} (hjk : j ≤ k) :
    t.wordsBefore b j ≤ t.wordsBefore b k :=
  Nat.div_le_div_right (bytesBefore_mono t hjk)

theorem bytesBefore_lt (h : t.Testable p) (hk : k < t.blockCount) :
    t.bytesBefore k < t.bytesBefore (k + 1) := by
  have hlt : k * t.blockSize.toNat < t.transferLength.toNat := by
    cases k with
    | zero => simpa using h.length_pos
    | succ k => exact (lt_blockCount_iff h.block_pos k).mp hk
  have := h.block_pos
  simp only [bytesBefore, Nat.succ_mul]
  omega

theorem words_mul (h : t.Testable p) (hk : k < t.blockCount) :
    words b (t.block k).writeCommand * 2 ^ b = t.bytesBefore (k + 1) - t.bytesBefore k := by
  have hlen : (t.block k).writeCommand.length.toNat = t.bytesBefore (k + 1) - t.bytesBefore k := by
    rw [← h.length_eq hk]
    simp only [Block.writeCommand, BitVec.toNat_setWidth]
    exact Nat.mod_eq_of_lt ((t.block k).length.isLt.trans (by norm_num))
  rw [words, hlen, ← h.wordsBefore_mul, ← h.wordsBefore_mul, ← Nat.sub_mul,
    Nat.mul_div_cancel _ (by positivity)]

theorem wordsBefore_succ (h : t.Testable p) (hk : k < t.blockCount) :
    t.wordsBefore b (k + 1) = t.wordsBefore b k + words b (t.block k).writeCommand := by
  have hle := bytesBefore_lt h hk
  have hwords := h.words_mul hk
  apply Nat.eq_of_mul_eq_mul_right (show 0 < 2 ^ b by positivity)
  rw [h.wordsBefore_mul, Nat.add_mul, h.wordsBefore_mul, hwords]
  omega

theorem wordsBefore_zero (b : ℕ) (t : Transfer) : t.wordsBefore b 0 = 0 := by
  simp [wordsBefore, bytesBefore]

/-- All blocks together cover the transfer. -/
theorem wordsBefore_blockCount (h : t.Testable p) :
    t.wordsBefore b t.blockCount = t.transferLength.toNat / 2 ^ b := by
  have hn := t.blockCount_pos
  have hlast := (remaining_le_iff h.block_pos (k := t.blockCount - 1) (by omega)).mpr (by omega)
  have hle : t.transferLength.toNat ≤ t.blockCount * t.blockSize.toNat := by
    obtain ⟨n, hn⟩ := Nat.exists_eq_add_one.mpr hn
    rw [hn, Nat.add_sub_cancel] at hlast
    rw [hn, Nat.succ_mul]
    omega
  rw [wordsBefore, bytesBefore, Nat.min_eq_right hle]

/-- The words of the first `k` blocks. -/
theorem sum_words (h : t.Testable p) (hk : k ≤ t.blockCount) :
    ((List.range k).map fun j => words b (t.block j).writeCommand).sum = t.wordsBefore b k := by
  induction k with
  | zero => simp [wordsBefore_zero]
  | succ k ih =>
    rw [List.range_succ, List.map_append, List.sum_append, ih (by omega), h.wordsBefore_succ hk]
    simp

/-- A block begins where the blocks before it end. -/
theorem address_eq (h : t.Testable p) (hk : k < t.blockCount) :
    (t.block k).address.toNat = t.baseAddress.toNat + t.bytesBefore k := by
  have hle : t.bytesBefore (k + 1) ≤ t.transferLength.toNat := min_le_right _ _
  have hlt := h.bytesBefore_lt hk
  have hwidth : 2 ^ p.addressWidth ≤ 2 ^ 64 := Nat.pow_le_pow_right (by omega) p.addressWidth_le
  have hwithin := h.within
  rw [h.bytesBefore_eq hk] at hlt ⊢
  simp only [block, BitVec.toNat_add, BitVec.toNat_ofNat]
  rw [Nat.add_mod_mod, Nat.mod_eq_of_lt (by omega)]

theorem wholeBursts (h : t.Testable p) (hk : k < t.blockCount) :
    WholeBursts p (t.block k).writeCommand := by
  have hwords := h.words_mul hk
  have hlt := h.bytesBefore_lt hk
  refine ⟨⟨?_, ?_⟩, ?_, ?_⟩
  · by_contra hzero
    rw [show words b (t.block k).writeCommand = 0 by omega, zero_mul] at hwords
    omega
  · have hblock := h.block_lt
    have hsize : t.bytesBefore (k + 1) ≤ (k + 1) * t.blockSize.toNat := min_le_left _ _
    rw [Nat.succ_mul] at hsize
    have := h.bytesBefore_eq hk
    omega
  · apply Nat.dvd_of_mul_dvd_mul_right (show 0 < 2 ^ b by positivity)
    rw [hwords]
    exact Nat.dvd_sub (h.bytesBefore_dvd _) (h.bytesBefore_dvd _)
  · apply Nat.dvd_div_of_mul_dvd
    rw [mul_comm]
    show p.maxBurstCount * 2 ^ b ∣ (t.block k).address.toNat
    rw [h.address_eq hk]
    exact h.base_dvd.add (h.bytesBefore_dvd k)

/-- The bus address of word `j` of a block, in the address space of the master. -/
theorem busAddress_eq (h : t.Testable p) (hk : k < t.blockCount) {j : ℕ}
    (hj : j < words b (t.block k).writeCommand) :
    ((commandAddress b (t.block k).writeCommand).setWidth p.addressWidth +
        BitVec.ofNat p.addressWidth (j * 2 ^ b)).toNat =
      t.baseAddress.toNat + (t.wordsBefore b k + j) * 2 ^ b := by
  have haddress := h.address_eq hk
  have hwhole := h.wholeBursts hk
  have hwords := h.words_mul hk
  have hlt := h.bytesBefore_lt hk
  have hle : t.bytesBefore (k + 1) ≤ t.transferLength.toNat := min_le_right _ _
  have hwithin := h.within
  have hj' : j * 2 ^ b < words b (t.block k).writeCommand * 2 ^ b :=
    Nat.mul_lt_mul_of_pos_right hj (by positivity)
  have hcommand : (commandAddress b (t.block k).writeCommand).toNat =
      t.baseAddress.toNat + t.bytesBefore k := by
    rw [commandAddress_toNat, wordAddress, Nat.div_mul_cancel]
    · exact haddress
    · show 2 ^ b ∣ (t.block k).address.toNat
      rw [haddress]
      exact (Dvd.intro_left _ rfl).trans (h.base_dvd.add (h.bytesBefore_dvd k))
  rw [BitVec.toNat_add, BitVec.toNat_setWidth, hcommand, BitVec.toNat_ofNat, ← Nat.add_mod,
    Nat.mod_eq_of_lt (by omega), Nat.add_mul, h.wordsBefore_mul]
  omega

end Testable

end Transfer

end AvalonCores.MemoryTester
