import Mathlib.Tactic
import AvalonCores.MemoryTester.PatternContents
import AvalonCores.MemoryTester.ProgramPayload

/-! Faults of the data lines of the memory under test.  A line that is stuck is found in every test
with any of the patterns that the software loads, and two lines that are shorted are found with the
walking one.  The tests are those of a session after the load, in sequential mode and of whole
bursts, so that the generator and the checker may begin anywhere in the pattern. -/

namespace AvalonCores.MemoryTester.FaultDetection

open AvalonCores.Sync CustomPattern CustomPatternTest PopulatePattern

variable {a b : ℕ} {pw pr : MasterParams b} {M : PatternMemory a (2 ^ b)}

/-- The function `f` fits the pattern memory, and the checker, with which it leaves the position,
is within the pattern. -/
structure Loadable (f : Populate) (s : PopulatePattern.State M) : Prop where
  stopped : Stopped s
  memory : f.length (2 ^ b) ≤ 2 ^ a
  register : f.length (2 ^ b) < 2 ^ 16
  position : s.checker.patternPositionCounter.toNat < f.length (2 ^ b)

/-- A repeated pattern comes to each of its words, wherever it begins. -/
theorem exists_position {position length k : ℕ} (hp : position < length) (hk : k < length) :
    ∃ d < length, (position + d) % length = k := by
  rcases Nat.le_total position k with h | h
  · exact ⟨k - position, by omega, by rw [Nat.add_sub_cancel' h, Nat.mod_eq_of_lt hk]⟩
  · rcases Nat.eq_or_lt_of_le h with rfl | h
    · exact ⟨0, by omega, Nat.mod_eq_of_lt hp⟩
    · refine ⟨length - position + k, by omega, ?_⟩
      rw [show position + (length - position + k) = k + length by omega, Nat.add_mod_right,
        Nat.mod_eq_of_lt hk]

/-- The patterns that the software has loaded into the generator and the checker. -/
def patterns (s : PopulatePattern.State M) : Pattern a b × Pattern a b :=
  (generatorPattern s, checkerPattern s)

/-- The two cores are within their patterns, and that of the checker is the one of the
function `f`. -/
structure Repeats (f : Populate) (p : Pattern a b × Pattern a b) : Prop where
  generator : p.1.Fits
  checker : p.2.Fits
  length : p.2.length = f.length (2 ^ b)
  word : ∀ k < f.length (2 ^ b), ∀ j < 8 * 2 ^ b,
    (patternWord p.2.memory k).getLsbD j = f.bit (2 ^ b) k j

/-- A function leaves its pattern in the checker, whichever position that has. -/
theorem Loadable.repeats {f : Populate} {s : PopulatePattern.State M}
    {is : List (PopulatePattern.Inputs (2 ^ b))} (h : Loadable f s)
    (hstores : is.filterMap (·.store) = f.stores (2 ^ b)) :
    Repeats f (patterns (Sync.run PopulatePattern.step s is)) := by
  obtain ⟨hgenerator, hstart, hchecker⟩ := registers_populated f h.stopped hstores
  have hposition := h.position
  have hfits (n : ℕ) (hn : n = f.length (2 ^ b)) : (BitVec.ofNat 16 n).toNat = n := by
    rw [BitVec.toNat_ofNat, Nat.mod_eq_of_lt (hn ▸ h.register)]
  refine ⟨⟨?_, ?_⟩, ⟨?_, ?_⟩, ?_, fun k hk j hj => ?_⟩
  · simp only [patterns, generatorPattern, hgenerator, hstart, hfits _ rfl]
    exact Nat.zero_lt_of_lt hposition
  · simp only [patterns, generatorPattern, hgenerator, hfits _ rfl]
    exact h.memory
  · simp only [patterns, checkerPattern, hchecker, checkerPosition_run f h.stopped hstores,
      hfits _ rfl]
    exact hposition
  · simp only [patterns, checkerPattern, hchecker, hfits _ rfl]
    exact h.memory
  · simp only [patterns, checkerPattern, hchecker, hfits _ rfl]
  · exact (holds_run f h.stopped hstores h.memory hk hj).2

namespace Repeats

variable {f : Populate} {p q : Pattern a b × Pattern a b}

/-- The tests move the two cores within their patterns and leave the patterns alone. -/
theorem session (h : Repeats f p) (hp : Tester.BurstMasters pw pr) (hs : Session pw pr p q) :
    Repeats f q := by
  refine hs.invariant (I := Repeats f) h fun p n st i t h he hd => ?_
  obtain ⟨hgenerator, hchecker⟩ := left_fits hp h.generator h.checker he hd
  exact ⟨hgenerator, hchecker, h.length, h.word⟩

/-- The checker comes to each word of the pattern within as many words as the pattern has. -/
theorem exists_word (h : Repeats f p) {k : ℕ} (hk : k < f.length (2 ^ b)) :
    ∃ d < f.length (2 ^ b), ∀ j < 8 * 2 ^ b,
      (p.2.word d).getLsbD j = f.bit (2 ^ b) k j := by
  have hposition := h.checker.position
  rw [h.length] at hposition
  obtain ⟨d, hd, hmod⟩ := exists_position hposition hk
  refine ⟨d, hd, fun j hj => ?_⟩
  rw [Pattern.word, h.length, hmod]
  exact h.word k hk j hj

end Repeats

section Execution

variable {f : Populate} {s : PopulatePattern.State M} {is : List (PopulatePattern.Inputs (2 ^ b))}
  {p : Pattern a b × Pattern a b} {n t : ℕ} {st : ℕ → CustomPatternTest.State a pw pr}
  {i : ℕ → CustomPatternTest.Inputs b}

/-- A memory that returns a data line stuck at a value fails every test of at least one whole
pattern in a session after the load, whichever function has loaded the pattern. -/
theorem stuck_line_detected (hp : Tester.BurstMasters pw pr) (h : Loadable f s)
    (hstores : is.filterMap (·.store) = f.stores (2 ^ b))
    (hs : Session pw pr (patterns (Sync.run PopulatePattern.step s is)) p)
    (he : (circuit pw pr p.1 p.2 n).Execution st i) (hn : f.length (2 ^ b) ≤ n) {j : ℕ}
    (hj : j < 8 * 2 ^ b) {v : Bool}
    (hstuck : ∀ t, (i t).path.returns = true → (i t).path.readdata.getLsbD j = v)
    (hd : Drained (st t)) : (st t).checker.failureDetected = true := by
  have hrepeats := (h.repeats hstores).session hp hs
  obtain ⟨k, hk, hbit⟩ := f.exists_bit_eq hj !v
  obtain ⟨d, hlt, hword⟩ := hrepeats.exists_word hk
  refine failureDetected_of_restricted he hrepeats.generator hp hrepeats.checker
    (P := fun w => w.getLsbD j = v) hstuck (k := d) (by omega) ?_ hd
  rw [hword j hj, hbit]
  simp

/-- A memory that returns two data lines shorted fails every test of at least one whole walking
pattern in a session after the load. -/
theorem shorted_lines_detected (hp : Tester.BurstMasters pw pr) {invert : BitVec 8}
    (h : Loadable (.walkingOnes invert) s)
    (hstores : is.filterMap (·.store) = (Populate.walkingOnes invert).stores (2 ^ b))
    (hs : Session pw pr (patterns (Sync.run PopulatePattern.step s is)) p)
    (he : (circuit pw pr p.1 p.2 n).Execution st i) (hn : 2 ^ b * 8 ≤ n) {j l : ℕ}
    (hj : j < 8 * 2 ^ b) (hl : l < 8 * 2 ^ b) (hne : l ≠ j)
    (hshort : ∀ t, (i t).path.returns = true →
      (i t).path.readdata.getLsbD j = (i t).path.readdata.getLsbD l)
    (hd : Drained (st t)) : (st t).checker.failureDetected = true := by
  have hrepeats := (h.repeats hstores).session hp hs
  obtain ⟨k, hk, hbit⟩ := Populate.exists_bit_ne invert hj hne
  obtain ⟨d, hlt, hword⟩ := hrepeats.exists_word hk
  refine failureDetected_of_restricted he hrepeats.generator hp hrepeats.checker
    (P := fun w => w.getLsbD j = w.getLsbD l) hshort (k := d) (lt_of_lt_of_le hlt hn) ?_ hd
  rw [hword j hj, hword l hl]
  exact hbit

end Execution

/-- The cores after the function `f`. -/
abbrev loaded (f : Populate) : PopulatePattern.State (wordMemory 8 (2 ^ 2)) :=
  Sync.run PopulatePattern.step (stopped 0#_) (cycles (f.stores 4))

theorem loaded_idle (f : Populate) : Idle (loaded f) := by
  have hidle : Idle (stopped 0#_) := ⟨⟨rfl, rfl⟩, rfl, rfl, rfl, rfl, rfl, rfl, rfl, rfl, rfl⟩
  refine (hidle.run fun x hx => ?_).1
  rw [cycles_store] at hx
  exact f.keepsIdle x hx

/-- The two cores at `position` of their patterns. -/
def movedTo (s : PopulatePattern.State (wordMemory 8 (2 ^ 2))) (position : BitVec 16) :
    PopulatePattern.State (wordMemory 8 (2 ^ 2)) :=
  { s with
    generator := { s.generator with patternPositionCounter := position }
    checker := { s.checker with patternPositionCounter := position } }

theorem movedTo_idle {s : PopulatePattern.State (wordMemory 8 (2 ^ 2))} (h : Idle s)
    (position : BitVec 16) : Idle (movedTo s position) where
  stopped := ⟨h.stopped.generator, h.stopped.checker⟩
  infinite := h.infinite
  readMemoryD1 := h.readMemoryD1
  readMemoryD2 := h.readMemoryD2
  readMemoryD3 := h.readMemoryD3
  failureDetected := h.failureDetected
  validDataD1 := h.validDataD1
  validDataD2 := h.validDataD2
  validDataD3 := h.validDataD3
  validDataD4 := h.validDataD4

/-- The cycle in which the software starts the generator. -/
def startGenerator : PopulatePattern.Inputs (2 ^ 2) :=
  ⟨some (generatorEnableStart .generatorCsr), false, 0#_, false, 0#_, 0#_⟩

/-- The tester after the start of the generator with a payload of `bytes`, from the cores `s` on. -/
def State.programmed (s : PopulatePattern.State (wordMemory 8 (2 ^ 2))) (bytes : BitVec 32) :
    CustomPatternTest.State 8 (.shipped : MasterParams 2) .shipped :=
  testState (PopulatePattern.step (Sync.run PopulatePattern.step s
    (cycles (setPayloadLengths bytes))) startGenerator) (.reset false) ⟨0#_, 0#_⟩ ⟨0#_, 0#_⟩

/-- A test of `bytes` bytes, in which the memory returns `x n` in cycle `n`. -/
def returning (bytes : BitVec 24) (x : ℕ → Word 2) (n : ℕ) : CustomPatternTest.Inputs 2 where
  generatorCsr := .none
  checkerCsr := startChecker n
  adapterReady := true
  path :=
    match n with
    | 0 => .cycle (.store 2#3 (bytes.setWidth 32)) none
    | 1 => .cycle (.store 3#3 (0x01#8 ++ bytes)) none
    | 2 => .cycle (.store 4#3 0x01000000#32) none
    | n => .cycle .none (some (x n))

theorem returning_readdata (bytes : BitVec 24) (x : ℕ → Word 2) (n : ℕ)
    (h : (returning bytes x n).path.returns = true) :
    (returning bytes x n).path.readdata = x n := by
  rcases n with _ | _ | _ | n
  · contradiction
  · contradiction
  · contradiction
  · rfl

/-- A test of `bytes` bytes with the patterns of the cores `s`, in which the memory returns `x n` in
cycle `n`. -/
def testRun (s : PopulatePattern.State (wordMemory 8 (2 ^ 2))) (bytes : BitVec 24)
    (x : ℕ → Word 2) : ℕ → CustomPatternTest.State 8 (.shipped : MasterParams 2) .shipped :=
  trajectory (fun t i => CustomPatternTest.step t i (patterns s).1 (patterns s).2)
    (State.programmed s (bytes.setWidth 32)) (returning bytes x)

theorem testRun_execution {s : PopulatePattern.State (wordMemory 8 (2 ^ 2))} (hs : Idle s)
    (bytes : BitVec 24) (x : ℕ → Word 2) {n : ℕ} (hbytes : (bytes.setWidth 32).toNat = n * 2 ^ 2)
    (hsoftware : ∀ t < 3, TestPath.Software (testRun s bytes x t).path
      (CustomPatternTest.pathInputs (testRun s bytes x t) (returning bytes x t))) :
    (circuit .shipped .shipped (patterns s).1 (patterns s).2 n).Execution (testRun s bytes x)
      (returning bytes x) where
  init := started_of_programmed hs hbytes (cycles_store _) rfl (TestPath.reset_prepared false) _ _
  admits t := by
    refine ⟨?_, rfl, startChecker_quiet _ rfl⟩
    rcases Nat.lt_or_ge t 3 with ht | ht
    · exact hsoftware t ht
    · obtain ⟨t, rfl⟩ := Nat.exists_eq_add_of_le' ht
      exact TestPath.software_of_quiet rfl rfl rfl
  step _ := rfl

/-- The test after one that has left the two cores at `position`. -/
theorem session_movedTo {s : PopulatePattern.State (wordMemory 8 (2 ^ 2))} {bytes : BitVec 24}
    {x : ℕ → Word 2} {n t : ℕ} {position : BitVec 16}
    (he : (circuit .shipped .shipped (patterns s).1 (patterns s).2 n).Execution
      (testRun s bytes x) (returning bytes x))
    (hd : Drained (testRun s bytes x t))
    (hgenerator : (testRun s bytes x t).generator.patternPositionCounter = position)
    (hchecker : (testRun s bytes x t).checker.patternPositionCounter = position) :
    Session .shipped .shipped (patterns s) (patterns (movedTo s position)) := by
  have hleft : left (patterns s) (testRun s bytes x t) = patterns (movedTo s position) := by
    rw [left, hgenerator, hchecker]
    rfl
  rw [← hleft]
  exact .next .start he hd

/-- A memory of which line 0 is stuck at 0 and the other lines follow the pattern. -/
def lineStuck (n : ℕ) : Word 2 := if n % 2 = 0 then 0xFFFFFFFE#_ else 0#_

/-- The second test of two words with a pattern of two words. -/
theorem stuck_line_detected_second_test :
    (testRun (movedTo (loaded .lowFrequency) 0#_) 8#_ lineStuck
      28).checker.failureDetected = true := by
  have hp : Tester.BurstMasters (b := 2) .shipped .shipped := ⟨rfl, rfl, rfl, by decide⟩
  have hloadable : Loadable (b := 2) .lowFrequency (stopped 0#_) :=
    ⟨⟨rfl, rfl⟩, by decide, by decide, by decide⟩
  have hidle := loaded_idle .lowFrequency
  have hfirst := testRun_execution hidle 8#_ lineStuck (n := 2) (by decide) (by decide +kernel)
  have hsecond := testRun_execution (movedTo_idle hidle 0#_) 8#_ lineStuck (n := 2) (by decide)
    (by decide +kernel)
  have hsession : Session .shipped .shipped (patterns (loaded .lowFrequency))
      (patterns (movedTo (loaded .lowFrequency) 0#_)) :=
    session_movedTo (t := 28) hfirst (by decide +kernel) (by decide +kernel) (by decide +kernel)
  refine stuck_line_detected hp hloadable (cycles_store _) hsession hsecond (by decide) (j := 0)
    (v := false) (by decide) (fun t ht => ?_) (by decide +kernel)
  rw [returning_readdata _ _ _ ht, lineStuck]
  split <;> rfl

/-- A memory of which lines 0 and 1 are shorted, and which returns them high and low in turn. -/
def linesShorted (n : ℕ) : Word 2 := if n % 2 = 0 then 3#_ else 0#_

/-- A test of the whole walking pattern, after one of two words. -/
theorem shorted_lines_detected_second_test :
    (testRun (movedTo (loaded (.walkingOnes 0#_)) 2#_) 128#_ linesShorted
      100).checker.failureDetected = true := by
  have hp : Tester.BurstMasters (b := 2) .shipped .shipped := ⟨rfl, rfl, rfl, by decide⟩
  have hloadable : Loadable (b := 2) (.walkingOnes 0#_) (stopped 0#_) :=
    ⟨⟨rfl, rfl⟩, by decide, by decide, by decide⟩
  have hidle := loaded_idle (.walkingOnes 0#_)
  have hfirst := testRun_execution hidle 8#_ linesShorted (n := 2) (by decide) (by decide +kernel)
  have hsecond := testRun_execution (movedTo_idle hidle 2#_) 128#_ linesShorted (n := 32)
    (by decide) (by decide +kernel)
  have hsession : Session .shipped .shipped (patterns (loaded (.walkingOnes 0#_)))
      (patterns (movedTo (loaded (.walkingOnes 0#_)) 2#_)) :=
    session_movedTo (t := 28) hfirst (by decide +kernel) (by decide +kernel) (by decide +kernel)
  refine shorted_lines_detected hp hloadable (cycles_store _) hsession hsecond (by decide) (j := 0)
    (l := 1) (by decide) (by decide) (by decide) (fun t ht => ?_) (by decide +kernel)
  rw [returning_readdata _ _ _ ht, linesShorted]
  split <;> rfl

end AvalonCores.MemoryTester.FaultDetection
