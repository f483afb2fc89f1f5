import Mathlib.Tactic
import AvalonCores.Lfsr.GaloisRegister
import AvalonCores.MemoryTester.PopulatePattern

/-! What the functions of `main.c` that load a custom pattern leave in the two pattern memories,
whatever these held before: the words of the pattern, bit by bit, as they appear on the data lines
of the memory under test. -/

namespace AvalonCores.MemoryTester.PopulatePattern

open Sync CustomPattern

variable {a m : ℕ} {M : PatternMemory a m}

/-- Bit `j` of word `k` of the pattern, with `m` bytes to a word. -/
def Populate.bit (m : ℕ) : Populate → ℕ → ℕ → Bool
  | walkingOnes invertOutputEnable, k, j => decide (j = k) ^^ (invertOutputEnable != 0#8)
  | lowFrequency, k, _ => k == 0
  | alternatingLowFrequency, k, j => decide (m / 2 ≤ j / 8) ^^ k != 0
  | highFrequency, k, j => (j % 2 == 1) ^^ k != 0
  | alternatingHighFrequency, k, j => (j % 2 == 1) ^^ decide (4 ≤ j % 8) ^^ k != 0
  | syncPrbs, k, j => ((Lfsr.step 0xB8#8)^[k] 0x55#8).getLsbD (j % 8)

/-- The bit `k` of the word at `address` is `v` in both memories. -/
def Holds (r : Registers M) (address : BitVec a) (k : ℕ) (v : Bool) : Prop :=
  (M.word r.generatorPattern address).getLsbD k = v ∧
    (M.word r.checkerPattern address).getLsbD k = v

/-- A byte stored at `offset` has bit `k` of the word at `address`. -/
def Hits (m : ℕ) (address : BitVec a) (k offset : ℕ) : Prop :=
  BitVec.ofNat a (offset / m) = address ∧ offset % m = k / 8

theorem holds_storeByte {r : Registers M} {address : BitVec a} {k offset : ℕ} (hk : k < 8 * m)
    {data : BitVec 8} {v : Bool} (hdata : Hits m address k offset → data.getLsbD (k % 8) = v)
    (h : Holds r address k v ∨ Hits m address k offset) :
    Holds (r.nexts (storeByte offset data)) address k v := by
  have henable : ((iowr8Direct offset data).byteenable m).getLsbD (k / 8) =
      decide (offset % m = k / 8) := by
    rw [DirectStore.getLsbD_byteenable _ _ (by omega), decide_eq_decide]
    simp only [DirectStore.lane, iowr8Direct]
    omega
  rw [nexts_storeByte]
  simp only [Holds, writePattern, if_true, M.word_write]
  by_cases haddress : address = BitVec.ofNat a ((iowr8Direct offset data).word m)
  · rw [if_pos haddress, if_pos haddress, getLsbD_loadLanes _ _ _ hk, getLsbD_loadLanes _ _ _ hk,
      henable]
    by_cases hlane : offset % m = k / 8
    · have hbit : ((iowr8Direct offset data).writedata m).getLsbD k = data.getLsbD (k % 8) := by
        have hlow : ¬ k < 8 * (offset % m) := by omega
        have hoffset : k - 8 * (offset % m) = k % 8 := by omega
        have hword : k % 8 < 8 * m := by omega
        have hdata : k % 8 < 32 := by omega
        simp only [DirectStore.writedata, DirectStore.lane, iowr8Direct,
          BitVec.getLsbD_shiftLeft, BitVec.getLsbD_setWidth, hoffset, hk, hlow, hword, hdata]
        rfl
      rw [decide_eq_true hlane, if_pos rfl, if_pos rfl, hbit]
      exact ⟨hdata ⟨haddress.symm, hlane⟩, hdata ⟨haddress.symm, hlane⟩⟩
    · rw [decide_eq_false hlane, if_neg Bool.false_ne_true, if_neg Bool.false_ne_true, ← haddress]
      rcases h with h | ⟨-, hhit⟩
      · exact h
      · exact absurd hhit hlane
  · rw [if_neg haddress, if_neg haddress]
    rcases h with h | ⟨hword, -⟩
    · exact h
    · exact absurd hword.symm haddress

/-- When all bytes stored for a bit agree on it, the memories hold what they say. -/
theorem Paired.holds {stores : List Store} (h : Paired stores) {r : Registers M}
    {address : BitVec a} {k : ℕ} (hk : k < 8 * m) {v : Bool}
    (hdata : ∀ offset data, ⟨.generatorPatternAccess, iowr8Direct offset data⟩ ∈ stores →
      Hits m address k offset → data.getLsbD (k % 8) = v)
    (hbyte : Holds r address k v ∨ ∃ offset data,
      ⟨.generatorPatternAccess, iowr8Direct offset data⟩ ∈ stores ∧ Hits m address k offset) :
    Holds (r.nexts stores) address k v := by
  induction h generalizing r with
  | nil =>
    rcases hbyte with h | ⟨offset, data, hmem, -⟩
    · exact h
    · simp at hmem
  | storeByte offset data _ ih =>
    have hfirst := hdata offset data (List.mem_append_left _ (mem_storeByte offset data))
    rw [nexts_append]
    refine ih (fun offset' data' hmem => hdata offset' data' (List.mem_append_right _ hmem)) ?_
    rcases hbyte with h | ⟨offset', data', hmem, hhit⟩
    · exact .inl (holds_storeByte hk hfirst (.inl h))
    · simp only [PopulatePattern.storeByte, List.cons_append, List.nil_append, List.mem_cons,
        Store.mk.injEq, reduceCtorEq, false_and, false_or, true_and] at hmem
      rcases hmem with hsame | hmem
      · obtain rfl : offset' = offset := congrArg DirectStore.offset hsame
        exact .inl (holds_storeByte hk hfirst (.inr hhit))
      · exact .inr ⟨offset', data', hmem, hhit⟩

/-- The bytes stored are those of the words of the pattern. -/
def Spells (f : Populate) (m : ℕ) (stores : List Store) : Prop :=
  ∀ offset data, ⟨.generatorPatternAccess, iowr8Direct offset data⟩ ∈ stores →
    offset / m < f.length m ∧
      ∀ j < 8, data.getLsbD j = f.bit m (offset / m) (8 * (offset % m) + j)

theorem setWidth_injective {x y : BitVec 8} (h : x.setWidth 32 = y.setWidth 32) : x = y := by
  have := congrArg (BitVec.setWidth 8) h
  simpa using this

theorem mem_storeByte_iff {offset offset' : ℕ} {data data' : BitVec 8}
    (h : ⟨.generatorPatternAccess, iowr8Direct offset data⟩ ∈ storeByte offset' data') :
    offset = offset' ∧ data = data' := by
  simp only [storeByte, List.mem_cons, Store.mk.injEq, reduceCtorEq, false_and, List.not_mem_nil,
    or_false, true_and] at h
  exact ⟨congrArg DirectStore.offset h, setWidth_injective (congrArg DirectStore.data h)⟩

theorem of_mem_fill {lo hi offset : ℕ} {data data' : BitVec 8}
    (h : ⟨.generatorPatternAccess, iowr8Direct offset data⟩ ∈ fill lo hi data') :
    lo ≤ offset ∧ offset < hi ∧ data = data' := by
  obtain ⟨byteCounter, hrange, hmem⟩ := List.mem_flatMap.mp h
  obtain ⟨rfl, rfl⟩ := mem_storeByte_iff hmem
  rw [List.mem_range'_1] at hrange
  exact ⟨hrange.1, by omega, rfl⟩

theorem lut_getLsbD {r j : ℕ} (hr : r < 8) (hj : j < 8) :
    (lut.getD r 0#8).getLsbD j = decide (j = r) := by
  interval_cases r <;> interval_cases j <;> rfl

theorem spells_walkingOnes (invert : BitVec 8) : Spells (.walkingOnes invert) m
    ((List.range (m * 8)).flatMap fun symbolCounter =>
      (List.range m).flatMap fun byteCounter =>
        storeByte (symbolCounter * m + byteCounter)
          ((if symbolCounter / 8 = byteCounter then lut.getD (symbolCounter % 8) 0#8
            else 0x00#8) ^^^ if invert == 0#8 then 0x00#8 else 0xFF#8)) := by
  intro offset data hmem
  obtain ⟨symbolCounter, hsymbol, hmem⟩ := List.mem_flatMap.mp hmem
  obtain ⟨byteCounter, hbyte, hmem⟩ := List.mem_flatMap.mp hmem
  obtain ⟨rfl, rfl⟩ := mem_storeByte_iff hmem
  rw [List.mem_range] at hsymbol hbyte
  have hdiv : (symbolCounter * m + byteCounter) / m = symbolCounter := by
    rw [Nat.mul_comm, Nat.mul_add_div (by omega), Nat.div_eq_of_lt hbyte, Nat.add_zero]
  have hmod : (symbolCounter * m + byteCounter) % m = byteCounter := by
    rw [Nat.mul_comm, Nat.mul_add_mod, Nat.mod_eq_of_lt hbyte]
  rw [hdiv, hmod]
  refine ⟨hsymbol, fun j hj => ?_⟩
  have hmask : (if invert == 0#8 then 0x00#8 else 0xFF#8).getLsbD j = (invert != 0#8) := by
    cases hzero : invert == 0#8 with
    | true => simp [bne, hzero]
    | false =>
      simp only [bne, hzero, Bool.false_eq_true, if_false, Bool.not_false]
      interval_cases j <;> rfl
  rw [BitVec.getLsbD_xor, hmask]
  simp only [Populate.bit]
  congr 1
  split
  case isTrue h =>
    rw [lut_getLsbD (Nat.mod_lt _ (by omega)) hj, decide_eq_decide]
    omega
  case isFalse h =>
    rw [BitVec.getLsbD_zero, eq_comm, decide_eq_false_iff_not]
    omega

/-- A function that fills the first and the second word. -/
theorem spells_fill {f : Populate} (hlength : f.length m = 2) {lo hi k : ℕ} {x : BitVec 8}
    (hlo : k * m ≤ lo) (hhi : hi ≤ (k + 1) * m) (hk : k < 2)
    (hbit : ∀ l j, lo ≤ k * m + l → k * m + l < hi → j < 8 → x.getLsbD j = f.bit m k (8 * l + j)) :
    Spells f m (fill lo hi x) := by
  intro offset data hmem
  obtain ⟨hle, hlt, rfl⟩ := of_mem_fill hmem
  obtain ⟨l, rfl⟩ := Nat.exists_eq_add_of_le (hlo.trans hle)
  have hl : l < m := by
    rw [Nat.succ_mul] at hhi
    omega
  have hdiv : (k * m + l) / m = k := by
    rw [Nat.mul_comm, Nat.mul_add_div (by omega), Nat.div_eq_of_lt hl, Nat.add_zero]
  have hmod : (k * m + l) % m = l := by
    rw [Nat.mul_comm, Nat.mul_add_mod, Nat.mod_eq_of_lt hl]
  rw [hdiv, hmod, hlength]
  exact ⟨hk, fun j hj => hbit l j hle hlt hj⟩

theorem Spells.append {f : Populate} {xs ys : List Store} (hx : Spells f m xs)
    (hy : Spells f m ys) : Spells f m (xs ++ ys) := by
  intro offset data hmem
  rcases List.mem_append.mp hmem with h | h
  · exact hx offset data h
  · exact hy offset data h

theorem spells_lowFrequency :
    Spells .lowFrequency m (fill 0 m 0xFF#8 ++ fill m (2 * m) 0x00#8) := by
  refine (spells_fill (k := 0) rfl (by omega) (by omega) (by omega) ?_).append
    (spells_fill (k := 1) rfl (by omega) (by omega) (by omega) ?_)
  · intro l j _ _ hj
    interval_cases j <;> rfl
  · intro l j _ _ hj
    interval_cases j <;> rfl

theorem spells_alternatingLowFrequency : Spells .alternatingLowFrequency m
    (fill 0 (m / 2) 0x00#8 ++ fill (m / 2) m 0xFF#8 ++ fill m (3 * m / 2) 0xFF#8 ++
      fill (3 * m / 2) (2 * m) 0x00#8) := by
  have hlane (l : ℕ) {j : ℕ} (hj : j < 8) : (8 * l + j) / 8 = l := by omega
  refine (((spells_fill (k := 0) rfl (by omega) (by omega) (by omega) ?_).append
    (spells_fill (k := 0) rfl (by omega) (by omega) (by omega) ?_)).append
      (spells_fill (k := 1) rfl (by omega) (by omega) (by omega) ?_)).append
        (spells_fill (k := 1) rfl (by omega) (by omega) (by omega) ?_)
  · intro l j _ hhi hj
    have hhalf : ¬ m / 2 ≤ l := by omega
    simp only [Populate.bit, hlane l hj, hhalf]
    interval_cases j <;> rfl
  · intro l j hlo _ hj
    have hhalf : m / 2 ≤ l := by omega
    simp only [Populate.bit, hlane l hj, hhalf]
    interval_cases j <;> rfl
  · intro l j _ hhi hj
    have hhalf : ¬ m / 2 ≤ l := by omega
    simp only [Populate.bit, hlane l hj, hhalf]
    interval_cases j <;> rfl
  · intro l j hlo _ hj
    have hhalf : m / 2 ≤ l := by omega
    simp only [Populate.bit, hlane l hj, hhalf]
    interval_cases j <;> rfl

theorem spells_highFrequency :
    Spells .highFrequency m (fill 0 m 0xAA#8 ++ fill m (2 * m) 0x55#8) := by
  refine (spells_fill (k := 0) rfl (by omega) (by omega) (by omega) ?_).append
    (spells_fill (k := 1) rfl (by omega) (by omega) (by omega) ?_)
  · intro l j _ _ hj
    have hodd : (8 * l + j) % 2 = j % 2 := by omega
    simp only [Populate.bit, hodd]
    interval_cases j <;> rfl
  · intro l j _ _ hj
    have hodd : (8 * l + j) % 2 = j % 2 := by omega
    simp only [Populate.bit, hodd]
    interval_cases j <;> rfl

theorem spells_alternatingHighFrequency :
    Spells .alternatingHighFrequency m (fill 0 m 0x5A#8 ++ fill m (2 * m) 0xA5#8) := by
  refine (spells_fill (k := 0) rfl (by omega) (by omega) (by omega) ?_).append
    (spells_fill (k := 1) rfl (by omega) (by omega) (by omega) ?_)
  · intro l j _ _ hj
    have hodd : (8 * l + j) % 2 = j % 2 := by omega
    have hlane : (8 * l + j) % 8 = j := by omega
    simp only [Populate.bit, hodd, hlane]
    interval_cases j <;> rfl
  · intro l j _ _ hj
    have hodd : (8 * l + j) % 2 = j % 2 := by omega
    have hlane : (8 * l + j) % 8 = j := by omega
    simp only [Populate.bit, hodd, hlane]
    interval_cases j <;> rfl

/-- In sixteen bits the shift register is the Galois register of eight bits. -/
theorem nextTaps_setWidth (x : BitVec 8) :
    nextTaps (x.setWidth 16) = (Lfsr.step 0xB8#8 x).setWidth 16 := by
  revert x
  decide +kernel

theorem nextTaps_iterate (x : BitVec 8) (k : ℕ) :
    nextTaps^[k] (x.setWidth 16) = ((Lfsr.step 0xB8#8)^[k] x).setWidth 16 := by
  induction k generalizing x with
  | zero => rfl
  | succ k ih =>
    rw [Function.iterate_succ_apply, Function.iterate_succ_apply, nextTaps_setWidth, ih]

theorem of_mem_storeTaps {n symbolCounter offset : ℕ} {taps : BitVec 16} {data : BitVec 8}
    (h : ⟨.generatorPatternAccess, iowr8Direct offset data⟩ ∈
      storeTaps m n symbolCounter taps) :
    ∃ k < n, ∃ l < m, offset = (symbolCounter + k) * m + l ∧
      data = (nextTaps^[k] taps).setWidth 8 := by
  induction n generalizing symbolCounter taps with
  | zero => simp [storeTaps] at h
  | succ n ih =>
    rcases List.mem_append.mp h with h | h
    · obtain ⟨l, hl, hmem⟩ := List.mem_flatMap.mp h
      obtain ⟨rfl, rfl⟩ := mem_storeByte_iff hmem
      exact ⟨0, by omega, l, List.mem_range.mp hl, rfl, rfl⟩
    · obtain ⟨k, hk, l, hl, rfl, rfl⟩ := ih h
      refine ⟨k + 1, by omega, l, hl, ?_, rfl⟩
      rw [Nat.add_assoc, Nat.add_comm 1 k]

theorem spells_syncPrbs : Spells .syncPrbs m (storeTaps m 256 0 0x55#16) := by
  intro offset data hmem
  obtain ⟨k, hk, l, hl, rfl, rfl⟩ := of_mem_storeTaps hmem
  rw [Nat.zero_add]
  have hdiv : (k * m + l) / m = k := by
    rw [Nat.mul_comm, Nat.mul_add_div (by omega), Nat.div_eq_of_lt hl, Nat.add_zero]
  rw [hdiv]
  refine ⟨hk, fun j hj => ?_⟩
  have hlane : (8 * ((k * m + l) % m) + j) % 8 = j := by omega
  rw [Populate.bit, hlane, show (0x55#16 : BitVec 16) = (0x55#8).setWidth 16 from rfl,
    nextTaps_iterate]
  simp

/-- The bytes that a function stores are those of its pattern, and then it programs the cores. -/
theorem Populate.stores_spell (f : Populate) (m : ℕ) :
    ∃ bytes, f.stores m = bytes ++ programPattern (f.length m) ∧ Paired bytes ∧
      Covers m (f.length m) bytes ∧ Spells f m bytes := by
  obtain ⟨bytes, hbytes, hpaired, hcovers⟩ := f.stores_eq m
  refine ⟨bytes, hbytes, hpaired, hcovers, ?_⟩
  cases f with
  | walkingOnes invert =>
    rw [← List.append_cancel_right hbytes]
    exact spells_walkingOnes invert
  | lowFrequency =>
    rw [← List.append_cancel_right hbytes]
    exact spells_lowFrequency
  | alternatingLowFrequency =>
    rw [← List.append_cancel_right hbytes]
    exact spells_alternatingLowFrequency
  | highFrequency =>
    rw [← List.append_cancel_right hbytes]
    exact spells_highFrequency
  | alternatingHighFrequency =>
    rw [← List.append_cancel_right hbytes]
    exact spells_alternatingHighFrequency
  | syncPrbs =>
    rw [← List.append_cancel_right hbytes]
    exact spells_syncPrbs

/-- A byte of the pattern with bit `j` of word `k` says what this bit is. -/
theorem Spells.bit_eq {f : Populate} {stores : List Store} (h : Spells f m stores)
    (hfit : f.length m ≤ 2 ^ a) {k j offset : ℕ} {data : BitVec 8} (hk : k < f.length m)
    (hmem : ⟨.generatorPatternAccess, iowr8Direct offset data⟩ ∈ stores)
    (hhit : Hits m (BitVec.ofNat a k) j offset) : data.getLsbD (j % 8) = f.bit m k j := by
  obtain ⟨hword, hlane⟩ := hhit
  obtain ⟨hlt, hbits⟩ := h offset data hmem
  have hoffset : offset / m = k := by
    have := congrArg BitVec.toNat hword
    rwa [BitVec.toNat_ofNat, BitVec.toNat_ofNat, Nat.mod_eq_of_lt (by omega),
      Nat.mod_eq_of_lt (by omega)] at this
  rw [hbits _ (Nat.mod_lt _ (by omega)), hoffset, hlane, Nat.div_add_mod]

section Run

variable (f : Populate) {s : State M} {is : List (Inputs m)}

/-- After a function has run on two stopped cores, both memories hold its pattern, whatever they
held before. -/
theorem holds_run (h : Stopped s) (hstores : is.filterMap (·.store) = f.stores m)
    (hfit : f.length m ≤ 2 ^ a) {k j : ℕ} (hk : k < f.length m) (hj : j < 8 * m) :
    Holds (registers (run step s is)) (BitVec.ofNat a k) j (f.bit m k j) := by
  obtain ⟨bytes, hbytes, hpaired, hcovers, hspells⟩ := f.stores_spell m
  have hl : j / 8 < m := by omega
  obtain ⟨data, hmem⟩ := hcovers k hk (j / 8) hl
  rw [registers_run f h hstores, hbytes, nexts_append, nexts_programPattern]
  refine hpaired.holds hj (fun offset data hmem hhit => hspells.bit_eq hfit hk hmem hhit)
    (.inr ⟨k * m + j / 8, data, hmem, ?_, ?_⟩)
  · rw [Nat.mul_comm, Nat.mul_add_div (by omega), Nat.div_eq_of_lt hl, Nat.add_zero]
  · rw [Nat.mul_comm, Nat.mul_add_mod, Nat.mod_eq_of_lt hl]

/-- The registers of the generator and the pattern length of the checker after a function. -/
theorem registers_populated (h : Stopped s) (hstores : is.filterMap (·.store) = f.stores m) :
    (run step s is).generator.patternLength = BitVec.ofNat 16 (f.length m) ∧
      (run step s is).generator.patternPositionCounter = 0#16 ∧
      (run step s is).checker.patternLength = BitVec.ofNat 16 (f.length m) := by
  obtain ⟨bytes, hbytes, -⟩ := f.stores_spell m
  have hrun := registers_run f h hstores
  rw [hbytes, nexts_append, nexts_programPattern] at hrun
  exact ⟨congrArg Registers.generatorLength hrun, congrArg Registers.generatorPosition hrun,
    congrArg Registers.checkerLength hrun⟩

/-- After a function has run on two stopped cores, both memories spell its pattern, and the
registers of the generator and the length of the checker are those of the pattern. -/
theorem pattern_populated (h : Stopped s) (hstores : is.filterMap (·.store) = f.stores m)
    (hfit : f.length m ≤ 2 ^ a) :
    (∀ k < f.length m, ∀ j < 8 * m,
      (M.word (run step s is).generatorPattern (BitVec.ofNat a k)).getLsbD j = f.bit m k j ∧
        (M.word (run step s is).checkerPattern (BitVec.ofNat a k)).getLsbD j = f.bit m k j) ∧
    (run step s is).generator.patternLength = BitVec.ofNat 16 (f.length m) ∧
    (run step s is).generator.patternPositionCounter = 0#16 ∧
    (run step s is).checker.patternLength = BitVec.ofNat 16 (f.length m) :=
  ⟨fun _ hk _ hj => holds_run f h hstores hfit hk hj, registers_populated f h hstores⟩

end Run

/-- The last word of the synchronous pattern repeats its first one. -/
theorem pattern_populated_syncPrbs :
    (wordMemory 8 4).word
      (run step (stopped 5#_) (cycles (Populate.syncPrbs.stores 4))).checkerPattern
        (BitVec.ofNat 8 255) = 0x55555555#32 := by
  apply BitVec.eq_of_getLsbD_eq
  intro j hj
  have hpopulated := pattern_populated .syncPrbs (s := stopped 5#_) ⟨rfl, rfl⟩ (cycles_store _)
    (by decide)
  have hperiod : (Lfsr.step 0xB8#8)^[255] 0x55#8 = 0x55#8 := by decide +kernel
  rw [(hpopulated.1 255 (by decide) j hj).2, Populate.bit, hperiod]
  interval_cases j <;> rfl

/-- The register of the synchronous pattern goes through all bytes but 0. -/
theorem exists_iterate_eq {x : BitVec 8} (hx : x ≠ 0#8) :
    ∃ k < 256, (Lfsr.step 0xB8#8)^[k] 0x55#8 = x := by
  have hprime : ∀ q ∈ [3, 5, 17], Nat.Prime q := by
    intro q hq
    simp only [List.mem_cons, List.not_mem_nil, or_false] at hq
    rcases hq with rfl | rfl | rfl <;> norm_num
  have hcheck : Lfsr.check 8 (0xB8#8).toNat [3, 5, 17] = true := by decide +kernel
  have hleast := Lfsr.isLeast_of_check (by omega) (by decide) hprime hcheck (s := 0x55#8)
    (by decide)
  have hperiod : Function.minimalPeriod (Lfsr.step 0xB8#8) 0x55#8 = 255 := by
    refine (Lfsr.isLeast_minimalPeriod ?_).unique hleast
    exact Function.minimalPeriod_pos_iff_mem_periodicPts.mpr ⟨255, by omega, hleast.1.2⟩
  have hcard : Fintype.card (BitVec 8) - 1 = 255 := by
    rw [← FinEnum.card_eq_fintypeCard, FinEnum.card_bitVec]
    norm_num
  obtain ⟨n, hn⟩ := Lfsr.mem_cycle Lfsr.step_zero (by decide) (hperiod.trans hcard.symm) hx
  refine ⟨n % 255, by omega, ?_⟩
  rw [← hn, ← hperiod]
  exact Function.iterate_mod_minimalPeriod_eq

/-- Every data line takes both values in the words of a pattern. -/
theorem Populate.exists_bit_eq (f : Populate) {j : ℕ} (hj : j < 8 * m) (v : Bool) :
    ∃ k < f.length m, f.bit m k j = v := by
  cases f with
  | walkingOnes invert =>
    by_cases hv : v = (true ^^ invert != 0#8)
    · exact ⟨j, by simp only [Populate.length]; omega, by simp [Populate.bit, hv]⟩
    · refine ⟨if j = 0 then 1 else 0, ?_, ?_⟩
      · simp only [Populate.length]
        split <;> omega
      · have hne : j ≠ if j = 0 then 1 else 0 := by split <;> omega
        simp only [Populate.bit, decide_eq_false hne]
        cases v <;> cases hi : (invert != 0#8) <;> simp_all
  | lowFrequency =>
    refine ⟨(!v).toNat, Bool.toNat_lt _, ?_⟩
    cases v <;> rfl
  | alternatingLowFrequency =>
    refine ⟨(v ^^ decide (m / 2 ≤ j / 8)).toNat, Bool.toNat_lt _, ?_⟩
    simp only [Populate.bit]
    cases v <;> cases decide (m / 2 ≤ j / 8) <;> rfl
  | highFrequency =>
    refine ⟨(v ^^ j % 2 == 1).toNat, Bool.toNat_lt _, ?_⟩
    simp only [Populate.bit]
    cases v <;> cases j % 2 == 1 <;> rfl
  | alternatingHighFrequency =>
    refine ⟨(v ^^ (j % 2 == 1) ^^ decide (4 ≤ j % 8)).toNat, Bool.toNat_lt _, ?_⟩
    simp only [Populate.bit]
    cases v <;> cases j % 2 == 1 <;> cases decide (4 ≤ j % 8) <;> rfl
  | syncPrbs =>
    have hbyte : ∃ x : BitVec 8, x ≠ 0#8 ∧ x.getLsbD (j % 8) = v := by
      have hlane : j % 8 < 8 := Nat.mod_lt _ (by omega)
      cases v with
      | true =>
        refine ⟨BitVec.twoPow 8 (j % 8), ?_, by simp [hlane]⟩
        interval_cases j % 8 <;> decide
      | false =>
        refine ⟨~~~BitVec.twoPow 8 (j % 8), ?_, by simp [hlane]⟩
        interval_cases j % 8 <;> decide
    obtain ⟨x, hx, hbit⟩ := hbyte
    obtain ⟨k, hk, rfl⟩ := exists_iterate_eq hx
    exact ⟨k, hk, hbit⟩

/-- Two data lines take different values in a word of the walking pattern. -/
theorem Populate.exists_bit_ne (invert : BitVec 8) {j l : ℕ} (hj : j < 8 * m) (hne : l ≠ j) :
    ∃ k < (walkingOnes invert).length m,
      (walkingOnes invert).bit m k j ≠ (walkingOnes invert).bit m k l := by
  refine ⟨j, by simp only [Populate.length]; omega, ?_⟩
  simp [Populate.bit, hne]

end AvalonCores.MemoryTester.PopulatePattern
