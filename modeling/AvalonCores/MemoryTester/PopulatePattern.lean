import Mathlib.Tactic
import AvalonCores.MemoryTester.CustomPatternChecker
import AvalonCores.MemoryTester.CustomPatternGenerator
import AvalonCores.MemoryTester.DirectIo

/-! The functions of `main.c` that load a custom pattern into the generator and the checker.
`Registers` is what the software has programmed so far; `step_registers` relates it to the state of
the two cores while they are stopped. -/

namespace AvalonCores.MemoryTester.PopulatePattern

open Sync CustomPattern

/-- The slave ports that the functions address. -/
inductive Base
  | generatorCsr
  | generatorPatternAccess
  | checkerCsr
  | checkerPatternAccess
deriving DecidableEq, Repr

structure Store where
  base : Base
  access : DirectStore
deriving DecidableEq, Repr

def generatorPatternSettingsReg : ℕ := 0x4

def generatorPatternLengthByteOffset : ℕ := 0

def generatorPatternPositionByteOffset : ℕ := 2

def checkerPatternSettingsReg : ℕ := 0x4

def checkerPatternLengthByteOffset : ℕ := 0

def checkerPatternPositionByteOffset : ℕ := 2

def generatorSetPatternLength (base : Base) (length : BitVec 16) : Store :=
  ⟨base, iowr16Direct (generatorPatternSettingsReg + generatorPatternLengthByteOffset) length⟩

def generatorSetPatternPosition (base : Base) (position : BitVec 16) : Store :=
  ⟨base, iowr16Direct (generatorPatternSettingsReg + generatorPatternPositionByteOffset) position⟩

def checkerSetPatternLength (base : Base) (length : BitVec 16) : Store :=
  ⟨base, iowr16Direct (checkerPatternSettingsReg + checkerPatternLengthByteOffset) length⟩

def checkerSetPatternPosition (base : Base) (position : BitVec 16) : Store :=
  ⟨base, iowr16Direct (checkerPatternSettingsReg + checkerPatternPositionByteOffset) position⟩

/-- A byte of the pattern, stored into both pattern memories. -/
def storeByte (offset : ℕ) (data : BitVec 8) : List Store :=
  [⟨.generatorPatternAccess, iowr8Direct offset data⟩,
    ⟨.checkerPatternAccess, iowr8Direct offset data⟩]

/-- `for (byte_counter = lo; byte_counter < hi; byte_counter++)`, with the same data for each
byte. -/
def fill (lo hi : ℕ) (data : BitVec 8) : List Store :=
  (List.range' lo (hi - lo)).flatMap fun byteCounter => storeByte byteCounter data

/-- The last four calls of each function.  The last one addresses the generator. -/
def programPattern (length : ℕ) : List Store :=
  [generatorSetPatternLength .generatorCsr (BitVec.ofNat 16 length),
    checkerSetPatternLength .checkerCsr (BitVec.ofNat 16 length),
    generatorSetPatternPosition .generatorCsr 0#16,
    checkerSetPatternPosition .generatorCsr 0#16]

def lut : List (BitVec 8) := [0x01#8, 0x02#8, 0x04#8, 0x08#8, 0x10#8, 0x20#8, 0x40#8, 0x80#8]

/-- `DATA_WIDTH` counts bytes. -/
def populateWalkingOnesPattern (dataWidth : ℕ) (invertOutputEnable : BitVec 8) : List Store :=
  let xorMask := if invertOutputEnable == 0#8 then 0x00#8 else 0xFF#8
  ((List.range (dataWidth * 8)).flatMap fun symbolCounter =>
    (List.range dataWidth).flatMap fun byteCounter =>
      let tempData :=
        if symbolCounter / 8 = byteCounter then lut.getD (symbolCounter % 8) 0#8 else 0x00#8
      storeByte (symbolCounter * dataWidth + byteCounter) (tempData ^^^ xorMask)) ++
    programPattern (dataWidth * 8)

def populateLowFrequencyPattern (dataWidth : ℕ) : List Store :=
  fill 0 dataWidth 0xFF#8 ++ fill dataWidth (2 * dataWidth) 0x00#8 ++ programPattern 2

def populateAlternatingLowFrequencyPattern (dataWidth : ℕ) : List Store :=
  fill 0 (dataWidth / 2) 0x00#8 ++ fill (dataWidth / 2) dataWidth 0xFF#8 ++
    fill dataWidth (3 * dataWidth / 2) 0xFF#8 ++ fill (3 * dataWidth / 2) (2 * dataWidth) 0x00#8 ++
      programPattern 2

def populateHighFrequencyPattern (dataWidth : ℕ) : List Store :=
  fill 0 dataWidth 0xAA#8 ++ fill dataWidth (2 * dataWidth) 0x55#8 ++ programPattern 2

def populateAlternatingHighFrequencyPattern (dataWidth : ℕ) : List Store :=
  fill 0 dataWidth 0x5A#8 ++ fill dataWidth (2 * dataWidth) 0xA5#8 ++ programPattern 2

/-- The next value of the byte-wide shift register, with taps at positions 8, 7, 5 and 4. -/
def nextTaps (taps : BitVec 16) : BitVec 16 :=
  let feedback := if taps &&& 0x0001#16 == 1#16 then 0xFFFF#16 else 0x0000#16
  (taps >>> 1) ^^^ (0x00B8#16 &&& feedback)

/-- The loop over the symbols from `symbolCounter` on, `n` of which are left. -/
def storeTaps (dataWidth : ℕ) : ℕ → ℕ → BitVec 16 → List Store
  | 0, _, _ => []
  | n + 1, symbolCounter, taps =>
    ((List.range dataWidth).flatMap fun byteCounter =>
      storeByte (symbolCounter * dataWidth + byteCounter) (taps.setWidth 8)) ++
        storeTaps dataWidth n (symbolCounter + 1) (nextTaps taps)

def populateSyncPrbsPattern (dataWidth : ℕ) : List Store :=
  storeTaps dataWidth 256 0 0x55#16 ++ programPattern 256

/-- The functions, with the argument of the first one. -/
inductive Populate
  | walkingOnes (invertOutputEnable : BitVec 8)
  | lowFrequency
  | alternatingLowFrequency
  | highFrequency
  | alternatingHighFrequency
  | syncPrbs
deriving DecidableEq, Repr

def Populate.stores (dataWidth : ℕ) : Populate → List Store
  | walkingOnes invertOutputEnable => populateWalkingOnesPattern dataWidth invertOutputEnable
  | lowFrequency => populateLowFrequencyPattern dataWidth
  | alternatingLowFrequency => populateAlternatingLowFrequencyPattern dataWidth
  | highFrequency => populateHighFrequencyPattern dataWidth
  | alternatingHighFrequency => populateAlternatingHighFrequencyPattern dataWidth
  | syncPrbs => populateSyncPrbsPattern dataWidth

/-- The number of words of the pattern. -/
def Populate.length (dataWidth : ℕ) : Populate → ℕ
  | walkingOnes _ => dataWidth * 8
  | lowFrequency | alternatingLowFrequency | highFrequency | alternatingHighFrequency => 2
  | syncPrbs => 256

/-- A pattern memory of `2 ^ a` words of `m` bytes, as port A of `altsyncram` writes it. -/
structure PatternMemory (a m : ℕ) where
  Contents : Type
  word : Contents → BitVec a → BitVec (8 * m)
  write : Contents → BitVec a → BitVec (8 * m) → BitVec m → Contents
  word_write : ∀ c address data byteena address', word (write c address data byteena) address' =
    if address' = address then loadLanes byteena data (word c address) else word c address'

variable {a m : ℕ}

/-- The two cores with their pattern memories. -/
structure State (M : PatternMemory a m) where
  generator : CustomPatternGenerator.State a m
  checker : CustomPatternChecker.State a m
  generatorPattern : M.Contents
  checkerPattern : M.Contents

/-- A cycle, in which the software makes a store or none. -/
structure Inputs (m : ℕ) where
  store : Option Store
  srcReady : Bool
  snkData : BitVec (8 * m)
  snkValid : Bool
  generatorMemoryData : BitVec (8 * m)
  checkerMemoryData : BitVec (8 * m)
deriving DecidableEq, Repr

/-- What a register port sees of a store. -/
def csr (base : Base) : Option Store → Csr
  | some store => if store.base = base then store.access.toCsr else .none
  | none => .none

/-- A pattern memory after a store. -/
def writePattern (M : PatternMemory a m) (base : Base) (c : M.Contents) : Option Store → M.Contents
  | some store =>
    if store.base = base then
      M.write c (BitVec.ofNat a (store.access.word m)) (store.access.writedata m)
        (store.access.byteenable m)
    else c
  | none => c

variable {M : PatternMemory a m}

def step (s : State M) (i : Inputs m) : State M where
  generator := CustomPatternGenerator.step s.generator
    ⟨csr .generatorCsr i.store, i.srcReady, i.generatorMemoryData⟩
  checker := CustomPatternChecker.step s.checker
    ⟨csr .checkerCsr i.store, i.snkData, i.snkValid, i.checkerMemoryData⟩
  generatorPattern := writePattern M .generatorPatternAccess s.generatorPattern i.store
  checkerPattern := writePattern M .checkerPatternAccess s.checkerPattern i.store

/-- The generator and the checker are in step at the start of a pattern of `n` words. -/
structure InStep (n : ℕ) (s : State M) : Prop where
  words : ∀ k < n, M.word s.generatorPattern (BitVec.ofNat a k) =
    M.word s.checkerPattern (BitVec.ofNat a k)
  length : s.generator.patternLength = s.checker.patternLength
  generatorPosition : s.generator.patternPositionCounter = 0#_
  checkerPosition : s.checker.patternPositionCounter = 0#_

/-- What the software has programmed: the registers that the functions write, and the memories. -/
structure Registers (M : PatternMemory a m) where
  generatorLength : BitVec 16
  generatorPosition : BitVec 16
  checkerLength : BitVec 16
  checkerPosition : BitVec 16
  generatorPattern : M.Contents
  checkerPattern : M.Contents

def registers (s : State M) : Registers M where
  generatorLength := s.generator.patternLength
  generatorPosition := s.generator.patternPositionCounter
  checkerLength := s.checker.patternLength
  checkerPosition := s.checker.patternPositionCounter
  generatorPattern := s.generatorPattern
  checkerPattern := s.checkerPattern

/-- A store into the registers of two stopped cores. -/
def Registers.next (r : Registers M) (store : Option Store) : Registers M where
  generatorLength := nextPatternLength (csr .generatorCsr store) r.generatorLength
  generatorPosition :=
    nextPatternPosition (csr .generatorCsr store) false (0#a) r.generatorPosition
  checkerLength := nextPatternLength (csr .checkerCsr store) r.checkerLength
  checkerPosition := nextPatternPosition (csr .checkerCsr store) false (0#a) r.checkerPosition
  generatorPattern := writePattern M .generatorPatternAccess r.generatorPattern store
  checkerPattern := writePattern M .checkerPatternAccess r.checkerPattern store

structure Stopped (s : State M) : Prop where
  generator : s.generator.start = false
  checker : s.checker.start = false

/-- The store leaves the run bits alone. -/
def KeepsStopped (store : Option Store) : Prop :=
  loadStart (csr .generatorCsr store) = false ∧ loadStart (csr .checkerCsr store) = false

theorem Stopped.step {s : State M} {i : Inputs m} (h : Stopped s) (hi : KeepsStopped i.store) :
    Stopped (PopulatePattern.step s i) where
  generator := by
    simp [PopulatePattern.step, CustomPatternGenerator.step, hi.1, h.generator]
  checker := by
    simp [PopulatePattern.step, CustomPatternChecker.step, hi.2, h.checker]

/-- While the cores are stopped, only the stores change the registers. -/
theorem step_registers {s : State M} (h : Stopped s) (i : Inputs m) :
    registers (step s i) = (registers s).next i.store := by
  simp [registers, step, Registers.next, CustomPatternGenerator.step, CustomPatternChecker.step,
    CustomPatternGenerator.incrementPatternPositionCounter,
    CustomPatternChecker.incrementPatternPositionCounter, h.generator, h.checker,
    nextPatternPosition]

theorem next_none (r : Registers M) : r.next none = r := rfl

/-- A run of two stopped cores carries out the stores of the software in their order. -/
theorem run_registers {s : State M} (h : Stopped s) (is : List (Inputs m))
    (hkeeps : ∀ x ∈ is.filterMap (·.store), KeepsStopped (some x)) :
    registers (run step s is) =
      (is.filterMap (·.store)).foldl (fun r x => r.next (some x)) (registers s) := by
  induction is generalizing s with
  | nil => rfl
  | cons i is ih =>
    rw [run_cons]
    cases hi : i.store with
    | none =>
      rw [List.filterMap_cons_none hi] at hkeeps ⊢
      have hstep : Stopped (step s i) := h.step (hi ▸ ⟨rfl, rfl⟩)
      rw [ih hstep hkeeps, step_registers h, hi, next_none]
    | some x =>
      rw [List.filterMap_cons_some hi] at hkeeps ⊢
      have hstep : Stopped (step s i) := h.step (hi ▸ hkeeps x List.mem_cons_self)
      rw [ih hstep fun y hy => hkeeps y (List.mem_cons_of_mem x hy), step_registers h, hi,
        List.foldl_cons]

/-- The stores of a sequence of `storeByte`. -/
inductive Paired : List Store → Prop
  | nil : Paired []
  | storeByte (offset : ℕ) (data : BitVec 8) {stores : List Store} :
      Paired stores → Paired (storeByte offset data ++ stores)

namespace Paired

theorem append {xs ys : List Store} (hx : Paired xs) (hy : Paired ys) : Paired (xs ++ ys) := by
  induction hx with
  | nil => exact hy
  | storeByte offset data _ ih =>
    rw [List.append_assoc]
    exact ih.storeByte offset data

theorem flatMap {α : Type*} (xs : List α) {f : α → List Store} (h : ∀ x, Paired (f x)) :
    Paired (xs.flatMap f) := by
  induction xs with
  | nil => exact .nil
  | cons x xs ih =>
    rw [List.flatMap_cons]
    exact (h x).append ih

theorem single (offset : ℕ) (data : BitVec 8) :
    Paired (PopulatePattern.storeByte offset data) := by
  simpa using Paired.nil.storeByte offset data

theorem fill (lo hi : ℕ) (data : BitVec 8) : Paired (fill lo hi data) :=
  flatMap _ fun offset => single offset data

theorem storeTaps (dataWidth n symbolCounter : ℕ) (taps : BitVec 16) :
    Paired (storeTaps dataWidth n symbolCounter taps) := by
  induction n generalizing symbolCounter taps with
  | zero => exact .nil
  | succ n ih => exact (flatMap _ fun _ => single _ _).append (ih _ _)

theorem keepsStopped {stores : List Store} (h : Paired stores) :
    ∀ x ∈ stores, KeepsStopped (some x) := by
  induction h with
  | nil => simp
  | storeByte offset data _ ih =>
    intro x hx
    simp only [PopulatePattern.storeByte, List.cons_append, List.nil_append, List.mem_cons] at hx
    rcases hx with rfl | rfl | hx
    · exact ⟨rfl, rfl⟩
    · exact ⟨rfl, rfl⟩
    · exact ih x hx

end Paired

/-- Every byte of the first `n` words is stored. -/
def Covers (m n : ℕ) (stores : List Store) : Prop :=
  ∀ k < n, ∀ l < m, ∃ data, ⟨.generatorPatternAccess, iowr8Direct (k * m + l) data⟩ ∈ stores

/-- The bit `k` of the word at `address` is the same in both memories. -/
def Agree (r : Registers M) (address : BitVec a) (k : ℕ) : Prop :=
  (M.word r.generatorPattern address).getLsbD k = (M.word r.checkerPattern address).getLsbD k

/-- The registers after a list of stores. -/
abbrev Registers.nexts (r : Registers M) (stores : List Store) : Registers M :=
  stores.foldl (fun r x => r.next (some x)) r

theorem nexts_append (r : Registers M) (xs ys : List Store) :
    r.nexts (xs ++ ys) = (r.nexts xs).nexts ys := List.foldl_append

/-- What a byte for both memories leaves. -/
theorem nexts_storeByte (r : Registers M) (offset : ℕ) (data : BitVec 8) :
    r.nexts (storeByte offset data) =
      { r with
        generatorPattern := writePattern M .generatorPatternAccess r.generatorPattern
          (some ⟨.generatorPatternAccess, iowr8Direct offset data⟩)
        checkerPattern := writePattern M .checkerPatternAccess r.checkerPattern
          (some ⟨.checkerPatternAccess, iowr8Direct offset data⟩) } := rfl

theorem agree_storeByte {r : Registers M} {address : BitVec a} {k offset : ℕ} (hk : k < 8 * m)
    (data : BitVec 8)
    (h : Agree r address k ∨ BitVec.ofNat a (offset / m) = address ∧ offset % m = k / 8) :
    Agree (r.nexts (storeByte offset data)) address k := by
  rw [nexts_storeByte]
  simp only [Agree, writePattern, if_true, M.word_write]
  by_cases haddress : address = BitVec.ofNat a ((iowr8Direct offset data).word m)
  · rw [if_pos haddress, if_pos haddress, getLsbD_loadLanes _ _ _ hk, getLsbD_loadLanes _ _ _ hk]
    rcases h with h | ⟨-, hlane⟩
    · rw [← haddress, h]
    · have hset : ((iowr8Direct offset data).byteenable m).getLsbD (k / 8) = true := by
        rw [DirectStore.getLsbD_byteenable _ _ (by omega), DirectStore.lane, decide_eq_true_iff]
        exact ⟨hlane.le, by simp [iowr8Direct, hlane]⟩
      rw [if_pos hset, if_pos hset]
  · rw [if_neg haddress, if_neg haddress]
    rcases h with h | ⟨hword, -⟩
    · exact h
    · exact absurd hword.symm haddress

/-- The memories agree on a byte that has been stored into both, whatever they held before. -/
theorem Paired.agree {stores : List Store} (h : Paired stores) {r : Registers M}
    {address : BitVec a} {k : ℕ} (hk : k < 8 * m)
    (hbyte : Agree r address k ∨ ∃ offset data,
      ⟨.generatorPatternAccess, iowr8Direct offset data⟩ ∈ stores ∧
        BitVec.ofNat a (offset / m) = address ∧ offset % m = k / 8) :
    Agree (r.nexts stores) address k := by
  induction h generalizing r with
  | nil =>
    rcases hbyte with h | ⟨offset, data, hmem, -⟩
    · exact h
    · simp at hmem
  | storeByte offset data _ ih =>
    rw [nexts_append]
    apply ih
    rcases hbyte with h | ⟨offset', data', hmem, hword, hlane⟩
    · exact .inl (agree_storeByte hk data (.inl h))
    · simp only [PopulatePattern.storeByte, List.cons_append, List.nil_append, List.mem_cons,
        Store.mk.injEq, reduceCtorEq, false_and, false_or, true_and] at hmem
      rcases hmem with hsame | hmem
      · obtain rfl : offset' = offset := congrArg DirectStore.offset hsame
        exact .inl (agree_storeByte hk data (.inr ⟨hword, hlane⟩))
      · exact .inr ⟨offset', data', hmem, hword, hlane⟩

/-- The pattern stores leave the register ports alone. -/
theorem Paired.registers {stores : List Store} (h : Paired stores) (r : Registers M) :
    (r.nexts stores).checkerPosition = r.checkerPosition := by
  induction h generalizing r with
  | nil => rfl
  | storeByte offset data _ ih =>
    rw [nexts_append, ih, nexts_storeByte]

theorem loadLanes_both (data old : BitVec 16) : loadLanes 0b11#2 data old = data := by
  refine loadLanes_of_all (fun k hk => ?_) data old
  have : k / 8 < 2 := by omega
  interval_cases k / 8 <;> rfl

theorem toCsr_patternLength (x : BitVec 16) :
    (iowr16Direct 4 x).toCsr = ⟨1#2, false, true, x.setWidth 32, 0b0011#4⟩ := by
  simp [DirectStore.toCsr, DirectStore.writedata, DirectStore.byteenable, DirectStore.lane,
    DirectStore.word, iowr16Direct]

theorem toCsr_patternPosition (x : BitVec 16) :
    (iowr16Direct 6 x).toCsr = ⟨1#2, false, true, x.setWidth 32 <<< 16, 0b1100#4⟩ := by
  simp [DirectStore.toCsr, DirectStore.writedata, DirectStore.byteenable, DirectStore.lane,
    DirectStore.word, iowr16Direct]

/-- A pattern length that the software sets is the one that the core holds. -/
theorem store_patternLength (x length position : BitVec 16) (last : BitVec a) :
    nextPatternLength (iowr16Direct 4 x).toCsr length = x ∧
      nextPatternPosition (iowr16Direct 4 x).toCsr false last position = position := by
  rw [toCsr_patternLength]
  constructor
  · refine (loadLanes_both _ length).trans ?_
    apply BitVec.eq_of_getLsbD_eq
    intro k hk
    simp [hk]
    omega
  · simp [nextPatternPosition, loadPatternPositionCounter, loadPatternPositionCounterLanes]

/-- A pattern position that the software sets is the one that the core holds. -/
theorem store_patternPosition (x length position : BitVec 16) (last : BitVec a) :
    nextPatternLength (iowr16Direct 6 x).toCsr length = length ∧
      nextPatternPosition (iowr16Direct 6 x).toCsr false last position = x := by
  rw [toCsr_patternPosition]
  constructor
  · simp [nextPatternLength, loadPatternLength, loadPatternLengthLanes]
  · have hlanes : BitVec.extractLsb' 2 2 0b1100#4 = 0b11#2 := by decide
    simp only [nextPatternPosition, loadPatternPositionCounter, loadPatternPositionCounterLanes,
      hlanes]
    refine (loadLanes_both _ position).trans ?_
    apply BitVec.eq_of_getLsbD_eq
    intro k hk
    simp [hk, show 16 + k < 32 by omega]

/-- The last four calls of a function program all but the position of the checker. -/
theorem nexts_programPattern (r : Registers M) (n : ℕ) :
    r.nexts (programPattern n) =
      { r with
        generatorLength := BitVec.ofNat 16 n
        generatorPosition := 0#16
        checkerLength := BitVec.ofNat 16 n } := by
  have hlength (x length : BitVec 16) := (store_patternLength x length 0#16 (0#a)).1
  have hlength' (x position : BitVec 16) := (store_patternLength x 0#16 position (0#a)).2
  have hposition (x position : BitVec 16) := (store_patternPosition x 0#16 position (0#a)).2
  have hposition' (x length : BitVec 16) := (store_patternPosition x length 0#16 (0#a)).1
  simp only [programPattern, generatorSetPatternLength, checkerSetPatternLength,
    generatorSetPatternPosition, checkerSetPatternPosition, generatorPatternSettingsReg,
    generatorPatternLengthByteOffset, generatorPatternPositionByteOffset, checkerPatternSettingsReg,
    checkerPatternLengthByteOffset, checkerPatternPositionByteOffset, Registers.nexts,
    List.foldl_cons, List.foldl_nil, Registers.next, csr, writePattern]
  simp [hlength, hlength', hposition, hposition', nextPatternLength_of_quiet,
    nextPatternPosition_of_quiet, Csr.none]

theorem keepsStopped_programPattern (n : ℕ) :
    ∀ x ∈ programPattern n, KeepsStopped (some x) := by
  intro x hx
  simp only [programPattern, generatorSetPatternLength, checkerSetPatternLength,
    generatorSetPatternPosition, checkerSetPatternPosition, generatorPatternSettingsReg,
    generatorPatternLengthByteOffset, generatorPatternPositionByteOffset, checkerPatternSettingsReg,
    checkerPatternLengthByteOffset, checkerPatternPositionByteOffset, List.mem_cons,
    List.not_mem_nil, or_false] at hx
  rcases hx with rfl | rfl | rfl | rfl <;>
    simp [KeepsStopped, csr, loadStart, Csr.loadsLane, Csr.loads, toCsr_patternLength,
      toCsr_patternPosition, Csr.none]

theorem mem_storeByte (offset : ℕ) (data : BitVec 8) :
    ⟨.generatorPatternAccess, iowr8Direct offset data⟩ ∈ storeByte offset data := by
  simp [storeByte]

theorem mem_fill {lo hi offset : ℕ} (hlo : lo ≤ offset) (hhi : offset < hi) (data : BitVec 8) :
    ⟨.generatorPatternAccess, iowr8Direct offset data⟩ ∈ fill lo hi data :=
  List.mem_flatMap.mpr ⟨offset, by simp; omega, mem_storeByte offset data⟩

/-- A byte of each offset covers the words. -/
theorem covers_of_offsets {n : ℕ} {stores : List Store}
    (h : ∀ offset < n * m, ∃ data,
      ⟨.generatorPatternAccess, iowr8Direct offset data⟩ ∈ stores) : Covers m n stores := by
  intro k hk l hl
  have hword : (k + 1) * m ≤ n * m := Nat.mul_le_mul_right m hk
  rw [Nat.succ_mul] at hword
  have hlt : k * m + l < n * m := by omega
  exact h _ hlt

/-- A function that stores one byte into the first word and another one into the second word. -/
theorem covers_halves (x y : BitVec 8) : Covers m 2 (fill 0 m x ++ fill m (2 * m) y) := by
  refine covers_of_offsets fun offset h => ?_
  rcases Nat.lt_or_ge offset m with hlt | hge
  · exact ⟨x, List.mem_append_left _ (mem_fill (Nat.zero_le _) hlt x)⟩
  · exact ⟨y, List.mem_append_right _ (mem_fill hge h y)⟩

theorem covers_quarters (x y z w : BitVec 8) :
    Covers m 2 (fill 0 (m / 2) x ++ fill (m / 2) m y ++ fill m (3 * m / 2) z ++
      fill (3 * m / 2) (2 * m) w) := by
  refine covers_of_offsets fun offset h => ?_
  simp only [List.mem_append]
  rcases Nat.lt_or_ge offset (m / 2) with h1 | h1
  · exact ⟨x, .inl (.inl (.inl (mem_fill (Nat.zero_le _) h1 x)))⟩
  · rcases Nat.lt_or_ge offset m with h2 | h2
    · exact ⟨y, .inl (.inl (.inr (mem_fill h1 h2 y)))⟩
    · rcases Nat.lt_or_ge offset (3 * m / 2) with h3 | h3
      · exact ⟨z, .inl (.inr (mem_fill h2 h3 z))⟩
      · exact ⟨w, .inr (mem_fill h3 h w)⟩

/-- The loop over the symbols stores each of them. -/
theorem mem_storeTaps {n k l : ℕ} (hk : k < n) (hl : l < m) (symbolCounter : ℕ)
    (taps : BitVec 16) :
    ∃ data, ⟨.generatorPatternAccess, iowr8Direct ((symbolCounter + k) * m + l) data⟩ ∈
      storeTaps m n symbolCounter taps := by
  induction n generalizing k symbolCounter taps with
  | zero => omega
  | succ n ih =>
    simp only [storeTaps, List.mem_append]
    cases k with
    | zero =>
      refine ⟨taps.setWidth 8, .inl (List.mem_flatMap.mpr ⟨l, by simpa using hl, ?_⟩)⟩
      exact mem_storeByte _ _
    | succ k =>
      have hk' : k < n := by omega
      obtain ⟨data, hmem⟩ := ih hk' (symbolCounter + 1) (nextTaps taps)
      refine ⟨data, .inr ?_⟩
      rwa [show symbolCounter + 1 + k = symbolCounter + (k + 1) by omega] at hmem

/-- Each function stores the bytes of the pattern into both memories, and then programs it. -/
theorem Populate.stores_eq (f : Populate) (m : ℕ) :
    ∃ bytes, f.stores m = bytes ++ programPattern (f.length m) ∧ Paired bytes ∧
      Covers m (f.length m) bytes := by
  cases f with
  | walkingOnes invert =>
    refine ⟨_, rfl, .flatMap _ fun _ => .flatMap _ fun _ => .single _ _, fun k hk l hl => ?_⟩
    exact ⟨_, List.mem_flatMap.mpr ⟨k, List.mem_range.mpr hk,
      List.mem_flatMap.mpr ⟨l, List.mem_range.mpr hl, mem_storeByte _ _⟩⟩⟩
  | lowFrequency =>
    exact ⟨_, rfl, (Paired.fill _ _ _).append (.fill _ _ _), covers_halves _ _⟩
  | alternatingLowFrequency =>
    exact ⟨_, rfl, (((Paired.fill _ _ _).append (.fill _ _ _)).append (.fill _ _ _)).append
      (.fill _ _ _), covers_quarters _ _ _ _⟩
  | highFrequency =>
    exact ⟨_, rfl, (Paired.fill _ _ _).append (.fill _ _ _), covers_halves _ _⟩
  | alternatingHighFrequency =>
    exact ⟨_, rfl, (Paired.fill _ _ _).append (.fill _ _ _), covers_halves _ _⟩
  | syncPrbs =>
    refine ⟨_, rfl, .storeTaps _ _ _ _, fun k hk l hl => ?_⟩
    have := mem_storeTaps hk hl 0 0x55#16
    rwa [Nat.zero_add] at this

theorem Populate.keepsStopped (f : Populate) (m : ℕ) :
    ∀ x ∈ f.stores m, KeepsStopped (some x) := by
  obtain ⟨bytes, hbytes, hpaired, -⟩ := f.stores_eq m
  intro x hx
  rw [hbytes, List.mem_append] at hx
  rcases hx with hx | hx
  · exact hpaired.keepsStopped x hx
  · exact keepsStopped_programPattern _ x hx

section Run

variable (f : Populate) {s : State M} {is : List (Inputs m)}

theorem registers_run (h : Stopped s) (hstores : is.filterMap (·.store) = f.stores m) :
    registers (run step s is) = (registers s).nexts (f.stores m) := by
  rw [← hstores]
  exact run_registers h is (hstores ▸ f.keepsStopped m)

/-- No function writes the position of the checker. -/
theorem checkerPosition_run (h : Stopped s) (hstores : is.filterMap (·.store) = f.stores m) :
    (run step s is).checker.patternPositionCounter = s.checker.patternPositionCounter := by
  obtain ⟨bytes, hbytes, hpaired, -⟩ := f.stores_eq m
  have hrun := registers_run f h hstores
  rw [hbytes, nexts_append, nexts_programPattern] at hrun
  exact (congrArg Registers.checkerPosition hrun).trans (hpaired.registers (registers s))

/-- The generator and the checker are in step after a function if and only if the position of the
checker was 0 before: the call that should clear it clears that of the generator again. -/
theorem inStep_iff (h : Stopped s) (hstores : is.filterMap (·.store) = f.stores m) :
    InStep (f.length m) (run step s is) ↔ s.checker.patternPositionCounter = 0#_ := by
  have hposition := checkerPosition_run f h hstores
  constructor
  · intro hin
    rw [← hposition, hin.checkerPosition]
  · intro hzero
    obtain ⟨bytes, hbytes, hpaired, hcovers⟩ := f.stores_eq m
    have hrun := registers_run f h hstores
    rw [hbytes, nexts_append, nexts_programPattern] at hrun
    constructor
    case words =>
      intro k hk
      apply BitVec.eq_of_getLsbD_eq
      intro j hj
      have hl : j / 8 < m := by omega
      obtain ⟨data, hmem⟩ := hcovers k hk (j / 8) hl
      have hagree : Agree ((registers s).nexts bytes) (BitVec.ofNat a k) j := by
        refine hpaired.agree hj (.inr ⟨k * m + j / 8, data, hmem, ?_, ?_⟩)
        · rw [Nat.mul_comm, Nat.mul_add_div (by omega), Nat.div_eq_of_lt hl, Nat.add_zero]
        · rw [Nat.mul_comm, Nat.mul_add_mod, Nat.mod_eq_of_lt hl]
      have hg := congrArg Registers.generatorPattern hrun
      have hc := congrArg Registers.checkerPattern hrun
      simp only [registers] at hg hc
      rw [hg, hc]
      exact hagree
    case length =>
      exact (congrArg Registers.generatorLength hrun).trans
        (congrArg Registers.checkerLength hrun).symm
    case generatorPosition => exact congrArg Registers.generatorPosition hrun
    case checkerPosition => rw [hposition, hzero]

end Run

/-- A memory of words. -/
def wordMemory (a m : ℕ) : PatternMemory a m where
  Contents := BitVec a → BitVec (8 * m)
  word c := c
  write c address data byteena :=
    Function.update c address (loadLanes byteena data (c address))
  word_write c address data byteena address' := by simp [Function.update_apply]

/-- Two stopped cores with empty memories, of which the checker is at `position`. -/
def stopped (position : BitVec 16) : State (wordMemory 8 4) where
  generator := CustomPatternGenerator.reset
  checker := { CustomPatternChecker.reset with patternPositionCounter := position }
  generatorPattern := fun _ => 0#_
  checkerPattern := fun _ => 0#_

/-- The cycles of a function that makes a store in each of them. -/
def cycles (stores : List Store) : List (Inputs 4) :=
  stores.map fun x => ⟨some x, false, 0#_, false, 0#_, 0#_⟩

theorem cycles_store (stores : List Store) : (cycles stores).filterMap (·.store) = stores := by
  simp [cycles, List.filterMap_map]

/-- From position 1, which a test of an odd number of words has left, the checker compares with the
wrong words. -/
theorem not_inStep_lowFrequency :
    ¬ InStep 2 (run step (stopped 1#_) (cycles (Populate.lowFrequency.stores 4))) := by
  intro h
  have := checkerPosition_run (s := stopped 1#_) .lowFrequency ⟨rfl, rfl⟩ (cycles_store _)
  rw [h.checkerPosition] at this
  contradiction

theorem inStep_lowFrequency :
    InStep 2 (run step (stopped 0#_) (cycles (Populate.lowFrequency.stores 4))) :=
  (inStep_iff .lowFrequency (s := stopped 0#_) ⟨rfl, rfl⟩ (cycles_store _)).mpr rfl

end AvalonCores.MemoryTester.PopulatePattern
