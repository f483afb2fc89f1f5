import Mathlib.Tactic
import Mathlib.Data.Nat.ModEq
import AvalonCores.MemoryTester.PatternReader

/-! The burst boundaries of `mtm_pattern_reader` with burst realignment.  The reader compares its
length counter with the last burst of whatever command the bus shows, and the counter may wrap; but
a burst boundary is a multiple of the burst size, which divides the range of every counter, so that
`Realigning` carries the alignment through all of it. -/

namespace AvalonCores.MemoryTester.PatternReader

open AvalonCores.Sync

section Residue

variable {m w : ℕ}

theorem toNat_ofNat_modEq (h : m ∣ 2 ^ w) (n : ℕ) : (BitVec.ofNat w n).toNat ≡ n [MOD m] := by
  rw [BitVec.toNat_ofNat]
  exact (Nat.mod_modEq n _).of_dvd h

theorem toNat_add_modEq (h : m ∣ 2 ^ w) (x y : BitVec w) :
    (x + y).toNat ≡ x.toNat + y.toNat [MOD m] := by
  rw [BitVec.toNat_add]
  exact (Nat.mod_modEq _ _).of_dvd h

theorem toNat_sub_modEq (h : m ∣ 2 ^ w) (x y : BitVec w) :
    (x - y).toNat + y.toNat ≡ x.toNat [MOD m] := by
  have := toNat_add_modEq h (x - y) y
  rw [BitVec.sub_add_cancel] at this
  exact this.symm

/-- A truncated number is a multiple of each power of two that the number is a multiple of. -/
theorem pow_dvd_mod_pow {d x : ℕ} (h : 2 ^ d ∣ x) (w : ℕ) : 2 ^ d ∣ x % 2 ^ w := by
  rcases Nat.le_total d w with hle | hle
  · exact (Nat.dvd_mod_iff (Nat.pow_dvd_pow 2 hle)).mpr h
  · rw [Nat.mod_eq_zero_of_dvd ((Nat.pow_dvd_pow 2 hle).trans h)]
    exact dvd_zero _

/-- Truncation does not increase the remainder by a power of two. -/
theorem mod_pow_mod_le (x w d : ℕ) : x % 2 ^ w % 2 ^ d ≤ x % 2 ^ d := by
  rcases Nat.le_total d w with hle | hle
  · rw [Nat.mod_mod_of_dvd _ (Nat.pow_dvd_pow 2 hle)]
  · calc x % 2 ^ w % 2 ^ d ≤ x % 2 ^ w := Nat.mod_le _ _
      _ = x % 2 ^ d % 2 ^ w := (Nat.mod_mod_of_dvd _ (Nat.pow_dvd_pow 2 hle)).symm
      _ ≤ x % 2 ^ d := Nat.mod_le _ _

/-- Words from `a` on stay in the block of `m` words around `a` as far as the block goes. -/
theorem add_div_eq_div {a x m : ℕ} (h : a % m + x < m) : (a + x) / m = a / m := by
  have hx : x < m := by omega
  rw [Nat.add_div_eq_of_add_mod_lt (by rwa [Nat.mod_eq_of_lt hx]), Nat.div_eq_of_lt hx,
    Nat.add_zero]

end Residue

variable {b : ℕ} {p : MasterParams b}

/-- The bytes between two burst boundaries. -/
def blockSize (p : MasterParams b) : ℕ := p.maxBurstCount * 2 ^ b

theorem blockSize_eq (p : MasterParams b) : blockSize p = 2 ^ (p.maxBurstCountLog2 + b) := by
  rw [blockSize, MasterParams.maxBurstCount, pow_add]

theorem blockSize_dvd {w : ℕ} (h : blockSize p ≤ 2 ^ w) : blockSize p ∣ 2 ^ w := by
  rw [blockSize_eq] at h ⊢
  exact Nat.pow_dvd_pow 2 ((Nat.pow_le_pow_iff_right (by omega)).mp h)

/-- The reader with any memory and for any commands of at least one word.  A memory that returns
more words than it was asked for may overflow the FIFO, so that it holds anything after a cycle. -/
def anyReader (p : MasterParams b) : Circuit (State p) (Inputs b × List (Word b)) where
  init s := s = reset
  admits s i := loadCommand s i.1 = true → 0 < words b i.1.snkCommandData.toCommand
  step s i := { step s i.1 with fifo := i.2 }

/-- The ideal FIFO is one of them. -/
theorem anyReader_of_poster {c : Monitored p} (h : (poster p).Reachable c) :
    (anyReader p).Reachable c.hw := by
  refine h.map (f := fun c => c.hw) (g := fun c i => (i, (step c.hw i).fifo)) ?_ ?_ ?_
  · rintro c rfl
    rfl
  · rintro c i - ha hload
    exact (ha hload).1
  · intros
    rfl

/-- The burst that the reader offers has between one word and the maximum, all in one block of the
address space. -/
structure InBlock (s : State p) : Prop where
  pos : 1 ≤ s.burstCountD1.toNat
  le : s.burstCountD1.toNat ≤ p.maxBurstCount
  word : 2 ^ b ∣ s.transferAddress.toNat
  block : ∀ k < s.burstCountD1.toNat,
    (s.transferAddress.toNat + k * 2 ^ b) / blockSize p = s.transferAddress.toNat / blockSize p

/-- Where the reader is between burst boundaries.  While it has a burst on offer, its counters
describe the one after: there is none, or it begins at a boundary and the length counter is a last
burst past a multiple of the block size. -/
inductive Realigning (s : State p) : Prop
  | idle (active : s.masterActive = false) (read : s.read = false)
      (loaded : s.loadCommandD1 = false)
  | loaded (c : Command) (active : s.masterActive = true) (read : s.read = false)
      (loaded : s.loadCommandD1 = true) (some : 0 < words b c) (first : s.firstTransfer = true)
      (shortFirst : s.shortFirstBurstCountD1.toNat = firstBurst p c)
      (shortLast : s.shortLastBurstCountD1.toNat = lastBurst p c)
      (base : s.baseAddress = (commandAddress b c).setWidth _)
      (length : s.nextLengthCounter = BitVec.ofNat _ (words b c * 2 ^ b))
      (counter : s.transferCounter = 0#_)
  | moving (start : ℕ) (active : s.masterActive = true) (loaded : s.loadCommandD1 = false)
      (lastPos : 0 < s.shortLastBurstCountD1.toNat)
      (lastLe : s.shortLastBurstCountD1.toNat ≤ p.maxBurstCount)
      (base : s.baseAddress.toNat = start % 2 ^ p.addressWidth)
      (some : 0 < s.burstCountD1.toNat) (word : 2 ^ b ∣ s.transferAddress.toNat)
      (block : s.transferAddress.toNat % blockSize p + s.burstCountD1.toNat * 2 ^ b ≤ blockSize p)
      (next : s.nextLengthCounter = 0#_ ∨ blockSize p ∣ start + s.transferCounter.toNat ∧
        s.nextLengthCounter.toNat ≡ s.shortLastBurstCountD1.toNat * 2 ^ b [MOD blockSize p])

namespace Realigning

variable {s : State p} {i : Inputs b}

theorem of_fifo (h : Realigning s) (q : List (Word b)) : Realigning { s with fifo := q } := by
  cases h with
  | idle active read loaded => exact .idle active read loaded
  | loaded c active read loaded some first shortFirst shortLast base length counter =>
    exact .loaded c active read loaded some first shortFirst shortLast base length counter
  | moving start active loaded lastPos lastLe base some word block next =>
    exact .moving start active loaded lastPos lastLe base some word block next

theorem next_idle (hp : p.burstEnable = true) (active : s.masterActive = false)
    (read : s.read = false)
    (ha : loadCommand s i = true → 0 < words b i.snkCommandData.toCommand) :
    Realigning (step s i) := by
  obtain ⟨hactive, hread, hloaded⟩ := step_idle (i := i) active read
  cases hload : loadCommand s i with
  | false =>
    apply Realigning.idle
    · rw [hactive, hload]
    · exact hread
    · rw [hloaded, hload]
  | true =>
    apply Realigning.loaded i.snkCommandData.toCommand
    · rw [hactive, hload]
    · exact hread
    · rw [hloaded, hload]
    · exact ha hload
    · simp [step, hload]
    · simp [step, hload, shortFirstBurstCount_toNat hp]
    · simp [step, hload, shortLastBurstCount_toNat hp]
    · simp [step, hload]
    · simpa [step, hload] using commandLength_setWidth p i.snkCommandData.toCommand
    · simp [step, hload]

/-- A cycle in which the bus does not accept the read on offer. -/
theorem next_stalled {start : ℕ} (active : s.masterActive = true)
    (loaded : s.loadCommandD1 = false) (lastPos : 0 < s.shortLastBurstCountD1.toNat)
    (lastLe : s.shortLastBurstCountD1.toNat ≤ p.maxBurstCount)
    (base : s.baseAddress.toNat = start % 2 ^ p.addressWidth)
    (some : 0 < s.burstCountD1.toNat) (word : 2 ^ b ∣ s.transferAddress.toNat)
    (block : s.transferAddress.toNat % blockSize p + s.burstCountD1.toNat * 2 ^ b ≤ blockSize p)
    (next : s.nextLengthCounter = 0#_ ∨ blockSize p ∣ start + s.transferCounter.toNat ∧
      s.nextLengthCounter.toNat ≡ s.shortLastBurstCountD1.toNat * 2 ^ b [MOD blockSize p])
    (htc : transferComplete s i = false) : Realigning (step s i) := by
  have hload : loadCommand s i = false := loadCommand_of_active active
  apply Realigning.moving start
  · simp [step, resetMasterActive, htc, hload, active]
  · simp [step, hload]
  · simpa [step, hload] using lastPos
  · simpa [step, hload] using lastLe
  · simpa [step, hload] using base
  · simpa [step, htc, loaded] using some
  · simpa [step, htc, loaded] using word
  · simpa [step, htc, loaded] using block
  · simpa [step, htc, hload, loaded] using next

/-- The last burst of a command ends a stretch of words that begins at its first boundary. -/
theorem lastBurst_modEq (hrealign : p.burstRealignEnable = true) (c : Command) :
    lastBurst p c ≡ words b c - firstBurst p c [MOD p.maxBurstCount] := by
  simp only [Nat.ModEq, lastBurst, hrealign, if_true]
  split_ifs with h
  · rw [h, Nat.mod_self]
  · exact Nat.mod_mod _ _

/-- The first burst of a command. -/
theorem next_loaded (hp : p.burstEnable = true) (hrealign : p.burstRealignEnable = true)
    (hwidth : blockSize p ≤ 2 ^ p.lengthWidth) {c : Command} (active : s.masterActive = true)
    (read : s.read = false) (loaded : s.loadCommandD1 = true) (some : 0 < words b c)
    (first : s.firstTransfer = true)
    (shortFirst : s.shortFirstBurstCountD1.toNat = firstBurst p c)
    (shortLast : s.shortLastBurstCountD1.toNat = lastBurst p c)
    (base : s.baseAddress = (commandAddress b c).setWidth _)
    (length : s.nextLengthCounter = BitVec.ofNat _ (words b c * 2 ^ b))
    (counter : s.transferCounter = 0#_) : Realigning (step s i) := by
  have htc : transferComplete s i = false := transferComplete_of_read read
  have hload : loadCommand s i = false := loadCommand_of_active active
  have hdvd := blockSize_dvd hwidth
  have hcount : (burstCount s i).toNat = firstBurst p c := by
    rw [burstCount_first hp hrealign first htc, shortFirst]
  have hbase : s.baseAddress.toNat = wordAddress b c * 2 ^ b % 2 ^ p.addressWidth := by
    rw [base, BitVec.toNat_setWidth, commandAddress_toNat]
  have hd1 : (step s i).burstCountD1 = burstCount s i := by simp [step, loaded]
  have haddress : (step s i).transferAddress = s.baseAddress := by
    simp [step, loaded, counter]
  have hlength : (step s i).nextLengthCounter =
      BitVec.ofNat _ (words b c * 2 ^ b) - BitVec.ofNat _ (firstBurst p c * 2 ^ b) := by
    simp [step, hload, loaded, length, transferSize, hcount, mul_comm (2 ^ b)]
  have hcounter : (step s i).transferCounter = BitVec.ofNat _ (firstBurst p c * 2 ^ b) := by
    simp [step, hload, loaded, counter, transferSize, hcount, mul_comm (2 ^ b)]
  have hmod := Nat.mod_lt (wordAddress b c) p.maxBurstCount_pos
  apply Realigning.moving (wordAddress b c * 2 ^ b)
  · simp [step, resetMasterActive, htc, hload, active]
  · simp [step, hload]
  · simpa [step, hload, shortLast] using lastBurst_pos
  · simpa [step, hload, shortLast] using lastBurst_le
  · simpa [step, hload] using hbase
  · rw [hd1, hcount]
    exact firstBurst_pos some
  · rw [haddress, hbase]
    exact pow_dvd_mod_pow (Nat.dvd_mul_left _ _) _
  · have hle : wordAddress b c * 2 ^ b % 2 ^ p.addressWidth % blockSize p ≤
        wordAddress b c % p.maxBurstCount * 2 ^ b := by
      rw [← Nat.mul_mod_mul_right, ← blockSize, blockSize_eq]
      exact mod_pow_mod_le _ _ _
    have hsum : (wordAddress b c % p.maxBurstCount + firstBurst p c) * 2 ^ b ≤ blockSize p :=
      Nat.mul_le_mul_right _ (by unfold firstBurst; omega)
    rw [Nat.add_mul] at hsum
    rw [haddress, hbase, hd1, hcount]
    omega
  · rcases Nat.le_total (words b c) (p.maxBurstCount - wordAddress b c % p.maxBurstCount) with
      hle | hle
    · left
      rw [hlength, show firstBurst p c = words b c from Nat.min_eq_left hle, BitVec.sub_self]
    · right
      constructor
      · have hstart : blockSize p ∣ wordAddress b c * 2 ^ b + firstBurst p c * 2 ^ b := by
          have hdiv := Nat.div_add_mod (wordAddress b c) p.maxBurstCount
          rw [← Nat.add_mul, blockSize,
            show firstBurst p c = _ from Nat.min_eq_right hle]
          apply Nat.mul_dvd_mul_right
          refine ⟨wordAddress b c / p.maxBurstCount + 1, ?_⟩
          rw [Nat.mul_succ]
          omega
        rw [hcounter]
        exact ((toNat_ofNat_modEq hdvd _).add_left _).dvd_iff dvd_rfl |>.mpr hstart
      · have hlast : (step s i).shortLastBurstCountD1.toNat = lastBurst p c := by
          simpa [step, hload] using shortLast
        have hsplit : words b c * 2 ^ b =
            (words b c - firstBurst p c) * 2 ^ b + firstBurst p c * 2 ^ b := by
          rw [← Nat.add_mul, Nat.sub_add_cancel firstBurst_le_words]
        have hsub := toNat_sub_modEq hdvd (BitVec.ofNat _ (words b c * 2 ^ b))
          (BitVec.ofNat _ (firstBurst p c * 2 ^ b))
        have hrest := ((toNat_ofNat_modEq hdvd (firstBurst p c * 2 ^ b)).symm.add_left _).trans
          (hsub.trans (toNat_ofNat_modEq hdvd _))
        rw [hsplit] at hrest
        rw [hlength, hlast]
        rw [hsplit]
        exact (hrest.add_right_cancel' _).trans
          ((lastBurst_modEq hrealign c).symm.mul_right' _)

/-- The last burst is chosen for the words that are its own, whatever command the bus shows. -/
theorem enableShortLastBurst_length {c : Command} (hp : p.burstEnable = true)
    (lastPos : 0 < s.shortLastBurstCountD1.toNat)
    (lastLe : s.shortLastBurstCountD1.toNat ≤ p.maxBurstCount)
    (length : s.nextLengthCounter.toNat ≡
      s.shortLastBurstCountD1.toNat * 2 ^ b [MOD blockSize p])
    (hshort : enableShortLastBurst p c s.nextLengthCounter = true) :
    s.nextLengthCounter.toNat = s.shortLastBurstCountD1.toNat * 2 ^ b := by
  simp only [enableShortLastBurst, Bool.and_eq_true, decide_eq_true_eq] at hshort
  rw [shortLastBurstCount_toNat hp, mul_comm] at hshort
  have hbus : lastBurst p c ≡ s.shortLastBurstCountD1.toNat [MOD p.maxBurstCount] := by
    rw [hshort.2] at length
    exact Nat.ModEq.mul_right_cancel' (by positivity) length
  have hpos : 0 < lastBurst p c := lastBurst_pos
  have hle : lastBurst p c ≤ p.maxBurstCount := lastBurst_le
  rw [hshort.2]
  congr 1
  -- both lie between one and the maximum, where a residue has one number
  have hpred : lastBurst p c - 1 ≡ s.shortLastBurstCountD1.toNat - 1 [MOD p.maxBurstCount] := by
    apply Nat.ModEq.add_right_cancel' 1
    rwa [Nat.sub_add_cancel hpos, Nat.sub_add_cancel lastPos]
  have heq := hpred.eq_of_lt_of_lt (by omega) (by omega)
  omega

/-- A burst is accepted, and the next one begins at a boundary. -/
theorem next_accepted (hp : p.burstEnable = true) (hwidth : blockSize p ≤ 2 ^ p.lengthWidth)
    {start : ℕ} (active : s.masterActive = true)
    (lastPos : 0 < s.shortLastBurstCountD1.toNat)
    (lastLe : s.shortLastBurstCountD1.toNat ≤ p.maxBurstCount)
    (base : s.baseAddress.toNat = start % 2 ^ p.addressWidth)
    (aligned : blockSize p ∣ start + s.transferCounter.toNat)
    (length : s.nextLengthCounter.toNat ≡
      s.shortLastBurstCountD1.toNat * 2 ^ b [MOD blockSize p])
    (hne : s.nextLengthCounter ≠ 0#_) (htc : transferComplete s i = true) :
    Realigning (step s i) := by
  have hload : loadCommand s i = false := loadCommand_of_active active
  have hdvd := blockSize_dvd hwidth
  have hlast : (step s i).shortLastBurstCountD1 = s.shortLastBurstCountD1 := by
    simp [step, hload]
  have hd1 : (step s i).burstCountD1 = burstCount s i := by simp [step, htc]
  have hsize : transferSize s i = (burstCount s i).toNat * 2 ^ b := mul_comm _ _
  have hlength : (step s i).nextLengthCounter =
      s.nextLengthCounter - BitVec.ofNat _ ((burstCount s i).toNat * 2 ^ b) := by
    simp [step, hload, htc, hsize]
  have hcounter : (step s i).transferCounter =
      s.transferCounter + BitVec.ofNat _ ((burstCount s i).toNat * 2 ^ b) := by
    simp [step, hload, htc, hsize]
  have haddress : blockSize p ∣ (step s i).transferAddress.toNat := by
    have hsum : (step s i).transferAddress.toNat =
        (start + s.transferCounter.toNat) % 2 ^ p.addressWidth := by
      simp [step, htc, base]
    rw [hsum, blockSize_eq]
    rw [blockSize_eq] at aligned
    exact pow_dvd_mod_pow aligned _
  have hcount := burstCount_later hp htc
  have hpos := p.maxBurstCount_pos
  have hbound : 0 < (burstCount s i).toNat ∧ (burstCount s i).toNat ≤ p.maxBurstCount := by
    rw [hcount]
    split <;> omega
  apply Realigning.moving start
  · simp [step, resetMasterActive, hne, hload, active]
  · simp [step, hload]
  · rwa [hlast]
  · rwa [hlast]
  · simpa [step, hload] using base
  · rw [hd1]
    exact hbound.1
  · exact (Nat.dvd_mul_left _ _).trans haddress
  · rw [Nat.mod_eq_zero_of_dvd haddress, hd1, Nat.zero_add]
    exact Nat.mul_le_mul_right _ hbound.2
  · rw [hlength, hcounter, hlast]
    cases hshort : enableShortLastBurst p i.snkCommandData.toCommand s.nextLengthCounter with
    | true =>
      left
      rw [hcount, hshort, if_pos rfl,
        ← enableShortLastBurst_length hp lastPos lastLe length hshort, BitVec.ofNat_toNat,
        BitVec.setWidth_eq, BitVec.sub_self]
    | false =>
      right
      rw [hcount, hshort, if_neg Bool.false_ne_true, ← blockSize]
      have hzero : (BitVec.ofNat p.lengthWidth (blockSize p)).toNat ≡ 0 [MOD blockSize p] :=
        (toNat_ofNat_modEq hdvd _).trans (Nat.modEq_zero_iff_dvd.mpr dvd_rfl)
      constructor
      · have hadd := (toNat_add_modEq hdvd s.transferCounter
          (BitVec.ofNat _ (blockSize p))).trans (hzero.add_left _)
        exact ((hadd.add_left start).dvd_iff dvd_rfl).mpr aligned
      · have hsub := toNat_sub_modEq hdvd s.nextLengthCounter (BitVec.ofNat _ (blockSize p))
        exact ((hzero.symm.add_left _).trans hsub).trans length

theorem next (h : Realigning s) (hp : p.burstEnable = true) (hrealign : p.burstRealignEnable = true)
    (hwidth : blockSize p ≤ 2 ^ p.lengthWidth)
    (ha : loadCommand s i = true → 0 < words b i.snkCommandData.toCommand) :
    Realigning (step s i) := by
  cases h with
  | idle active read => exact next_idle hp active read ha
  | loaded c active read loaded some first shortFirst shortLast base length counter =>
    exact next_loaded hp hrealign hwidth active read loaded some first shortFirst shortLast base
      length counter
  | moving start active loaded lastPos lastLe base some word block next =>
    cases htc : transferComplete s i with
    | false =>
      exact next_stalled active loaded lastPos lastLe base some word block next htc
    | true =>
      by_cases hzero : s.nextLengthCounter = 0#_
      · have hload : loadCommand s i = false := loadCommand_of_active active
        have hreset : resetMasterActive s i = true := by
          simp [resetMasterActive, htc, hload, hzero]
        exact .idle (by simp [step, hreset]) (by simp [step, resetRead, hreset])
          (by simp [step, hload])
      · obtain ⟨aligned, length⟩ := next.resolve_left hzero
        exact next_accepted hp hwidth active lastPos lastLe base aligned length hzero htc

theorem inBlock (h : Realigning s) (hread : s.read = true) : InBlock s := by
  cases h with
  | idle _ read | loaded _ _ read => simp [hread] at read
  | moving _ _ _ _ _ _ some word block =>
    refine ⟨some, ?_, word, fun k hk => add_div_eq_div ?_⟩
    · exact Nat.le_of_mul_le_mul_right ((Nat.le_add_left _ _).trans block) (by positivity)
    · have := Nat.mul_lt_mul_of_pos_right hk (Nat.two_pow_pos b)
      omega

theorem hold (h : Realigning s) (hread : s.read = true) (hwait : i.masterWaitrequest = true) :
    (step s i).read = true ∧ (step s i).transferAddress = s.transferAddress ∧
      (step s i).burstCountD1 = s.burstCountD1 := by
  have htc : transferComplete s i = false := by simp [transferComplete, hwait]
  cases h with
  | idle _ read | loaded _ _ read => simp [hread] at read
  | moving _ _ loaded => simp [step, resetRead, resetMasterActive, htc, loaded, hread]

end Realigning

theorem realigning (hp : p.burstEnable = true) (hrealign : p.burstRealignEnable = true)
    (hwidth : blockSize p ≤ 2 ^ p.lengthWidth) {s : State p} (h : (anyReader p).Reachable s) :
    Realigning s := by
  refine h.invariant (I := fun s => Realigning s) ?_ ?_
  · rintro s rfl
    exact .idle rfl rfl rfl
  · rintro s ⟨i, q⟩ - hs ha
    exact (hs.next hp hrealign hwidth ha).of_fifo q

/-- No read crosses a burst boundary, and none changes before the bus accepts it. -/
theorem read_in_block (hp : p.burstEnable = true) (hrealign : p.burstRealignEnable = true)
    (hwidth : p.maxBurstCount * 2 ^ b ≤ 2 ^ p.lengthWidth) {s : State p}
    (h : (anyReader p).Reachable s) (hread : s.read = true) :
    InBlock s ∧ ∀ (i : Inputs b) (q : List (Word b)), i.masterWaitrequest = true →
      let s' := (anyReader p).step s (i, q)
      s'.read = true ∧ s'.transferAddress = s.transferAddress ∧
        s'.burstCountD1 = s.burstCountD1 := by
  have hs := realigning hp hrealign hwidth h
  exact ⟨hs.inBlock hread, fun i q hwait => hs.hold hread hwait⟩

/-- The reader posts one word more than the command has, but not past the boundary. -/
theorem read_in_block_next_command :
    let inputs : List (Inputs 2) := [.cycle ⟨⟨0#64, 12#32⟩, true⟩ true 0#32 false,
      .cycle ⟨⟨12#64, 12#32⟩, true⟩ false 0#32 false,
      .cycle ⟨⟨12#64, 12#32⟩, true⟩ false 0#32 false]
    let c := run (poster .shipped).step .reset inputs
    c.hw.transferAddress = 8#_ ∧ c.hw.burstCountD1.toNat = 2 ∧ InBlock c.hw := by
  refine ⟨by decide +kernel, by decide +kernel, ?_⟩
  have hrun := (Circuit.Reachable.init (C := poster .shipped) rfl).run
    [.cycle ⟨⟨0#64, 12#32⟩, true⟩ true 0#32 false, .cycle ⟨⟨12#64, 12#32⟩, true⟩ false 0#32 false,
      .cycle ⟨⟨12#64, 12#32⟩, true⟩ false 0#32 false] (by decide +kernel)
  exact (read_in_block rfl rfl (by decide) (anyReader_of_poster hrun) (by decide +kernel)).1

end AvalonCores.MemoryTester.PatternReader
