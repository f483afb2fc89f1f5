import Mathlib.Tactic
import AvalonCores.Sync.Program
import AvalonCores.MemoryTester.CustomPattern

/-! The stores and the loads that the software makes with the `IOWR` and `IORD` macros of `io.h`,
and the byte lanes in which a slave port sees them.  `registerBits` is what they do to registers of
which each bit keeps what is written to it. -/

namespace AvalonCores.MemoryTester

/-- A store of `size` bytes at the byte address `offset` of a slave port. -/
structure DirectStore where
  offset : ℕ
  size : ℕ
  data : BitVec 32
deriving DecidableEq, Repr

def iowr8Direct (offset : ℕ) (data : BitVec 8) : DirectStore := ⟨offset, 1, data.setWidth 32⟩

def iowr16Direct (offset : ℕ) (data : BitVec 16) : DirectStore := ⟨offset, 2, data.setWidth 32⟩

def iowr32Direct (offset : ℕ) (data : BitVec 32) : DirectStore := ⟨offset, 4, data⟩

namespace DirectStore

variable (s : DirectStore) (n : ℕ)

/-- The word address of the store at a slave port whose words have `n` bytes. -/
def word : ℕ := s.offset / n

/-- The lane of its first byte. -/
def lane : ℕ := s.offset % n

def byteenable : BitVec n := BitVec.ofNat n ((2 ^ s.size - 1) * 2 ^ s.lane n)

def writedata : BitVec (8 * n) := s.data.setWidth (8 * n) <<< (8 * s.lane n)

/-- The store as a slave port of four 32-bit words sees it. -/
def toCsr : CustomPattern.Csr :=
  ⟨BitVec.ofNat 2 (s.word 4), false, true, s.writedata 4, s.byteenable 4⟩

/-- The store as a slave port of eight 32-bit words sees it. -/
def toCsrAccess : CsrAccess :=
  ⟨BitVec.ofNat 3 (s.word 4), false, true, s.writedata 4, s.byteenable 4⟩

/-- The store writes bit `k` of the registers, counted from the base of the slave port. -/
def Writes (k : ℕ) : Prop := 8 * s.offset ≤ k ∧ k < 8 * (s.offset + s.size)

instance (k : ℕ) : Decidable (s.Writes k) := inferInstanceAs (Decidable (_ ∧ _))

/-- The store does not cross a boundary between two 32-bit words. -/
def Aligned : Prop := s.offset % 4 + s.size ≤ 4

/-- An aligned store to bytes from `lo` on, before `hi`. -/
structure Within (lo hi : ℕ) : Prop where
  aligned : s.Aligned
  lower : lo ≤ s.offset
  upper : s.offset < hi

/-- The lanes of a store are its bytes. -/
theorem getLsbD_byteenable {j : ℕ} (hj : j < n) :
    (s.byteenable n).getLsbD j = decide (s.lane n ≤ j ∧ j < s.lane n + s.size) := by
  rw [byteenable, BitVec.getLsbD_ofNat, Nat.testBit_mul_two_pow, Nat.testBit_two_pow_sub_one,
    Bool.eq_iff_iff]
  simp [hj]
  omega

/-- A store writes the bits of its lanes in its word. -/
theorem writes_iff {s : DirectStore} (h : s.Aligned) (k : ℕ) :
    s.Writes k ↔ k / 32 = s.word 4 ∧ (s.byteenable 4).getLsbD (k % 32 / 8) = true := by
  rw [s.getLsbD_byteenable 4 (by omega), decide_eq_true_iff]
  simp only [Aligned, Writes, word, lane] at h ⊢
  omega

theorem getLsbD_writedata {s : DirectStore} (h : s.Aligned) {k : ℕ} (hk : s.Writes k) :
    (s.writedata 4).getLsbD (k % 32) = s.data.getLsbD (k - 8 * s.offset) := by
  simp only [Aligned, Writes] at h hk
  have hlow : ¬ k % 32 < 8 * (s.offset % 4) := by omega
  have hlt : k - 8 * s.offset < 32 := by omega
  have hoffset : k % 32 - 8 * (s.offset % 4) = k - 8 * s.offset := by omega
  simp only [writedata, lane, BitVec.getLsbD_shiftLeft, BitVec.getLsbD_setWidth, hlow, hoffset]
  simp [hlt, Nat.mod_lt k]

end DirectStore

/-- A load of `size` bytes from the byte address `offset` of a slave port. -/
structure DirectLoad where
  offset : ℕ
  size : ℕ
deriving DecidableEq, Repr

def iord8Direct (offset : ℕ) : DirectLoad := ⟨offset, 1⟩

def iord16Direct (offset : ℕ) : DirectLoad := ⟨offset, 2⟩

def iord32Direct (offset : ℕ) : DirectLoad := ⟨offset, 4⟩

namespace DirectLoad

variable (l : DirectLoad)

/-- The load does not cross a boundary between two 32-bit words. -/
def Aligned : Prop := l.offset % 4 + l.size ≤ 4

/-- An aligned load of bytes from `lo` on, before `hi`. -/
structure Within (lo hi : ℕ) : Prop where
  aligned : l.Aligned
  lower : lo ≤ l.offset
  upper : l.offset < hi

/-- The load as a slave port of four 32-bit words sees it. -/
def toCsr : CustomPattern.Csr := ⟨BitVec.ofNat 2 (l.offset / 4), true, false, 0#32, 0#4⟩

/-- The load as a slave port of eight 32-bit words sees it. -/
def toCsrAccess : CsrAccess := ⟨BitVec.ofNat 3 (l.offset / 4), true, false, 0#32, 0#4⟩

/-- What the load returns from the word that the slave port shows. -/
def value (readdata : BitVec 32) : BitVec 32 :=
  ((readdata >>> (8 * (l.offset % 4))).setWidth (8 * l.size)).setWidth 32

end DirectLoad

/-- The word address of an access to a slave port of `2 ^ w` words. -/
theorem toNat_wordAddress {w offset : ℕ} (h : offset < 4 * 2 ^ w) :
    (BitVec.ofNat w (offset / 4)).toNat = offset / 4 := by
  rw [BitVec.toNat_ofNat]
  exact Nat.mod_eq_of_lt (by omega)

/-- A program over the registers of a slave port. -/
abbrev Driver (α : Type) : Type := Sync.Program DirectStore DirectLoad (BitVec 32) α

/-- A core behind a slave port without a wait request, which sees accesses of the type `κ`. -/
def slavePort {κ σ ι : Type} (none : κ) (ofStore : DirectStore → κ) (ofLoad : DirectLoad → κ)
    (step : σ → ι → σ) (withCsr : κ → ι → ι) (readback : σ → BitVec 32) :
    Sync.Port DirectStore DirectLoad (BitVec 32) σ ι where
  step := step
  idle := withCsr none
  store x := withCsr (ofStore x)
  load l := withCsr (ofLoad l)
  waits _ _ := false
  value l s := l.value (readback s)

/-- Registers as the bits of 32-bit words.  A bit outside of `writable` reads zero after a store. -/
def registerBits (writable : ℕ → Bool) :
    Sync.RegisterFile DirectStore DirectLoad (BitVec 32) (ℕ → Bool) where
  store s r k := if s.Writes k then writable k && s.data.getLsbD (k - 8 * s.offset) else r k
  load l r :=
    (BitVec.iunfoldr (fun k _ => ((), decide (k < 8 * l.size) && r (8 * l.offset + k))) ()).2

/-- The bits of the words `r`. -/
def wordBits (r : ℕ → BitVec 32) (k : ℕ) : Bool := (r (k / 32)).getLsbD (k % 32)

section RegisterBits

variable {writable : ℕ → Bool} {r r' : ℕ → BitVec 32}

/-- A port that writes the enabled lanes of the addressed word stores to the bits of the words. -/
theorem wordBits_store {s : DirectStore} (hs : s.Aligned)
    (h : ∀ n, ∀ k < 32, (r' n).getLsbD k =
      if n = s.word 4 ∧ (s.byteenable 4).getLsbD (k / 8) = true then
        writable (32 * n + k) && (s.writedata 4).getLsbD k
      else (r n).getLsbD k) :
    wordBits r' = (registerBits writable).store s (wordBits r) := by
  funext k
  have hk : 32 * (k / 32) + k % 32 = k := by omega
  have hwrites := DirectStore.writes_iff hs k
  simp only [registerBits, wordBits, h (k / 32) (k % 32) (by omega), hk, ← hwrites]
  split
  · rename_i hw
    rw [DirectStore.getLsbD_writedata hs hw]
  · rfl

/-- The bits that a load returns. -/
theorem getLsbD_load {ρ : ℕ → Bool} (l : DirectLoad) {k : ℕ} (hk : k < 32) :
    ((registerBits writable).load l ρ).getLsbD k =
      (decide (k < 8 * l.size) && ρ (8 * l.offset + k)) :=
  BitVec.iunfoldr_getLsbD (fun _ => ()) ⟨k, hk⟩ fun _ => rfl

/-- The bits that a load returns under a mask. -/
theorem getLsbD_load_and {ρ : ℕ → Bool} (l : DirectLoad) {n : ℕ} (hn : n ≤ 8 * l.size) {k : ℕ}
    (hk : k < 32) :
    ((registerBits writable).load l ρ &&& BitVec.ofNat 32 (2 ^ n - 1)).getLsbD k =
      (decide (k < n) && ρ (8 * l.offset + k)) := by
  rw [BitVec.getLsbD_and, getLsbD_load l hk, BitVec.getLsbD_ofNat, Nat.testBit_two_pow_sub_one]
  by_cases hkn : k < n
  · simp [hk, hkn, hkn.trans_le hn]
  · simp [hkn]

/-- A port that shows the addressed word loads from the bits of the words. -/
theorem wordBits_load {l : DirectLoad} (hl : l.Aligned) :
    l.value (r (l.offset / 4)) = (registerBits writable).load l (wordBits r) := by
  apply BitVec.eq_of_getLsbD_eq
  intro k hk
  simp only [DirectLoad.Aligned] at hl
  simp only [getLsbD_load l hk, wordBits, DirectLoad.value, BitVec.getLsbD_setWidth, hk,
    BitVec.getLsbD_ushiftRight]
  by_cases hsize : k < 8 * l.size
  · have hword : (8 * l.offset + k) / 32 = l.offset / 4 := by omega
    have hbit : (8 * l.offset + k) % 32 = 8 * (l.offset % 4) + k := by omega
    simp [hsize, hword, hbit]
  · simp [hsize]

section Access

variable {ρ ρ' : ℕ → Bool}

theorem load_congr {l : DirectLoad}
    (h : ∀ k, 8 * l.offset ≤ k → k < 8 * (l.offset + l.size) → ρ k = ρ' k) :
    (registerBits writable).load l ρ = (registerBits writable).load l ρ' := by
  apply BitVec.eq_of_getLsbD_eq
  intro k hk
  rw [getLsbD_load l hk, getLsbD_load l hk]
  by_cases hsize : k < 8 * l.size
  · rw [h _ (by omega) (by omega)]
  · simp [hsize]

theorem store_of_not_writes {s : DirectStore} {k : ℕ} (h : ¬ s.Writes k) :
    (registerBits writable).store s ρ k = ρ k := if_neg h

theorem store_apply (o n : ℕ) (data : BitVec 32) (k : ℕ) :
    (registerBits writable).store ⟨o, n, data⟩ ρ k =
      if 8 * o ≤ k ∧ k < 8 * (o + n) then writable k && data.getLsbD (k - 8 * o) else ρ k := by
  by_cases h : 8 * o ≤ k ∧ k < 8 * (o + n)
  · rw [if_pos h]
    exact if_pos h
  · rw [if_neg h]
    exact if_neg h

theorem store8_apply (o : ℕ) (data : BitVec 8) (k : ℕ) :
    (registerBits writable).store (iowr8Direct o data) ρ k =
      if 8 * o ≤ k ∧ k < 8 * o + 8 then writable k && data.getLsbD (k - 8 * o) else ρ k := by
  rw [iowr8Direct, store_apply, Nat.mul_add, BitVec.getLsbD_setWidth]
  grind

theorem store16_apply (o : ℕ) (data : BitVec 16) (k : ℕ) :
    (registerBits writable).store (iowr16Direct o data) ρ k =
      if 8 * o ≤ k ∧ k < 8 * o + 16 then writable k && data.getLsbD (k - 8 * o) else ρ k := by
  rw [iowr16Direct, store_apply, Nat.mul_add, BitVec.getLsbD_setWidth]
  grind

theorem store32_apply (o : ℕ) (data : BitVec 32) (k : ℕ) :
    (registerBits writable).store (iowr32Direct o data) ρ k =
      if 8 * o ≤ k ∧ k < 8 * o + 32 then writable k && data.getLsbD (k - 8 * o) else ρ k := by
  rw [iowr32Direct, store_apply, Nat.mul_add]

end Access

end RegisterBits

end AvalonCores.MemoryTester
