import Mathlib.Tactic
import AvalonCores.MemoryTester.CustomPatternGenerator
import AvalonCores.MemoryTester.CustomPatternChecker
import AvalonCores.MemoryTester.TestPath

/-! A test with a custom pattern on the memory tester of `memory_tester_system.qsys`, in sequential
mode and of whole bursts, after any earlier tests: the generator, the path through input and
output A, the checker, and the pattern memories of the two. -/

namespace AvalonCores.MemoryTester.CustomPatternTest

open AvalonCores.Sync CustomPattern

variable {a b : ℕ} {pw pr : MasterParams b}

/-- A pattern of the first `length` words of a pattern memory, from `position` on. -/
structure Pattern (a b : ℕ) where
  memory : BitVec a → Word b
  position : ℕ
  length : ℕ

/-- Word `k` of a pattern that is repeated again and again. -/
def Pattern.word (p : Pattern a b) (k : ℕ) : Word b :=
  patternWord p.memory ((p.position + k) % p.length)

structure Pattern.Fits (p : Pattern a b) : Prop where
  position : p.position < p.length
  length : p.length ≤ 2 ^ a

/-- The words of the two patterns are the same. -/
def Pattern.InPhase (p q : Pattern a b) (n : ℕ) : Prop := ∀ k < n, p.word k = q.word k

structure State (a : ℕ) (pw pr : MasterParams b) where
  generator : CustomPatternGenerator.State a (2 ^ b)
  generatorPort : ReadPort a (2 ^ b)
  path : TestPath.State pw pr
  checker : CustomPatternChecker.State a (2 ^ b)
  checkerPort : ReadPort a (2 ^ b)

/-- The inputs of a cycle: the slave ports of the generator and the checker, whether the timing
adapter is ready, and the inputs of the path, of which those at A are not used. -/
structure Inputs (b : ℕ) where
  generatorCsr : CustomPattern.Csr
  checkerCsr : CustomPattern.Csr
  adapterReady : Bool
  path : TestPath.Inputs b

variable (s : State a pw pr) (i : Inputs b)

def generatorInputs : CustomPatternGenerator.Inputs (2 ^ b) where
  csr := i.generatorCsr
  srcReady := i.adapterReady
  memoryData := s.generatorPort.q

def pathInputs : TestPath.Inputs b :=
  { i.path with
    srcValidA := CustomPatternGenerator.srcValid s.generator
    srcDataA := CustomPatternGenerator.srcData s.generator
    snkReadyA := CustomPatternChecker.snkReady s.checker }

def checkerInputs : CustomPatternChecker.Inputs (2 ^ b) where
  csr := i.checkerCsr
  snkData := OneToTwoStDemux.srcData s.path.demux false
  snkValid := OneToTwoStDemux.srcValid s.path.demux false
  memoryData := s.checkerPort.q

variable (p q : Pattern a b)

def step : State a pw pr where
  generator := CustomPatternGenerator.step s.generator (generatorInputs s i)
  generatorPort :=
    s.generatorPort.step p.memory (CustomPatternGenerator.internalMemoryAddress s.generator)
  path := TestPath.step s.path (pathInputs s i)
  checker := CustomPatternChecker.step s.checker (checkerInputs s i)
  checkerPort :=
    s.checkerPort.step q.memory (CustomPatternChecker.internalMemoryAddress s.checker)

/-- The generator has just been started with a payload of `n` words, no word is on its way, and the
checker, which need not be running yet, is clear. -/
structure Started (n : ℕ) (s : State a pw pr) : Prop where
  generator : CustomPatternGenerator.Started n s.generator
  generatorPosition : s.generator.patternPositionCounter.toNat = p.position
  generatorLength : s.generator.patternLength.toNat = p.length
  readMemoryD1 : s.generator.readMemoryD1 = false
  readMemoryD2 : s.generator.readMemoryD2 = false
  readMemoryD3 : s.generator.readMemoryD3 = false
  path : TestPath.Prepared false s.path
  checker : CustomPatternChecker.Clear s.checker
  checkerPosition : s.checker.patternPositionCounter.toNat = q.position
  checkerLength : s.checker.patternLength.toNat = q.length

/-- Software carries out the tests, and writes no register of the generator and of the checker only
its payload length and its control register. -/
structure Software (s : State a pw pr) (i : Inputs b) : Prop where
  path : TestPath.Software s.path (pathInputs s i)
  generatorCsr : i.generatorCsr.write = false
  checkerCsr : CustomPatternChecker.Quiet (checkerInputs s i)

/-- The generator and the controller have stopped, no word is on its way, and no comparison is under
way in the checker. -/
structure Drained (s : State a pw pr) : Prop where
  generator : s.generator.start = false
  readMemoryD1 : s.generator.readMemoryD1 = false
  readMemoryD2 : s.generator.readMemoryD2 = false
  readMemoryD3 : s.generator.readMemoryD3 = false
  path : TestPath.Empty false s.path
  validDataD1 : s.checker.validDataD1 = false
  validDataD2 : s.checker.validDataD2 = false
  validDataD3 : s.checker.validDataD3 = false
  validDataD4 : s.checker.validDataD4 = false

instance (s : State a pw pr) : Decidable (Drained s) :=
  decidable_of_iff (_ ∧ _ ∧ _ ∧ _ ∧ _ ∧ _ ∧ _ ∧ _ ∧ _)
    ⟨fun ⟨h1, h2, h3, h4, h5, h6, h7, h8, h9⟩ => ⟨h1, h2, h3, h4, h5, h6, h7, h8, h9⟩,
      fun ⟨h1, h2, h3, h4, h5, h6, h7, h8, h9⟩ => ⟨h1, h2, h3, h4, h5, h6, h7, h8, h9⟩⟩

/-- A test of `n` words with the pattern `p` of the generator and the pattern `q` of the checker. -/
def circuit (pw pr : MasterParams b) (p q : Pattern a b) (n : ℕ) :
    Circuit (State a pw pr) (Inputs b) where
  init := Started p q n
  admits := Software
  step s i := step s i p q

section Execution

variable {p q} {n : ℕ} {st : ℕ → State a pw pr} {i : ℕ → Inputs b}

/-- The words that the checker has accepted before cycle `t`. -/
def accepted (st : ℕ → State a pw pr) (i : ℕ → Inputs b) (t : ℕ) : List (Word b) :=
  CustomPatternChecker.accepted (fun t => (st t).checker) (fun t => checkerInputs (st t) (i t)) t

/-- The words that the generator has read before cycle `t`. -/
def readCount (st : ℕ → State a pw pr) (i : ℕ → Inputs b) (t : ℕ) : ℕ :=
  CustomPatternGenerator.readCount (fun t => (st t).generator)
    (fun t => generatorInputs (st t) (i t)) t

/-- The words that have entered the path before cycle `t`. -/
def sent (st : ℕ → State a pw pr) (i : ℕ → Inputs b) (t : ℕ) : List (Word b) :=
  TestPath.sent (fun t => pathInputs (st t) (i t)) false t

/-- The checker accepts what the path delivers. -/
theorem accepted_eq (t : ℕ) : accepted st i t =
    TestPath.received (fun t => (st t).path) (fun t => pathInputs (st t) (i t)) false t := rfl

variable (he : (circuit pw pr p q n).Execution st i)

include he

theorem generator_execution : (CustomPatternGenerator.circuit a (2 ^ b) n).Execution
    (fun t => (st t).generator) (fun t => generatorInputs (st t) (i t)) where
  init := he.init.generator
  admits t := (he.admits t).generatorCsr
  step t := by
    rw [he.step]
    rfl

theorem generator_reads : CustomPatternGenerator.Reads p.memory (fun t => (st t).generator)
    (fun t => generatorInputs (st t) (i t)) := by
  intro t
  show (st (t + 2)).generatorPort.q = _
  rw [he.step, he.step]
  rfl

theorem checker_execution : (CustomPatternChecker.watching a (2 ^ b)).Execution
    (fun t => (st t).checker) (fun t => checkerInputs (st t) (i t)) where
  init := he.init.checker
  admits t := (he.admits t).checkerCsr
  step t := by
    rw [he.step]
    rfl

theorem checker_reads : CustomPatternChecker.Reads q.memory (fun t => (st t).checker)
    (fun t => checkerInputs (st t) (i t)) := by
  intro t
  show (st (t + 2)).checkerPort.q = _
  rw [he.step, he.step]
  rfl

theorem path_execution : (TestPath.circuit pw pr false).Execution (fun t => (st t).path)
    (fun t => pathInputs (st t) (i t)) where
  init := he.init.path
  admits t := (he.admits t).path
  step t := by
    rw [he.step]
    rfl

/-- A word that has been read has entered the path or is in one of the three stages before it. -/
theorem sent_length (t : ℕ) : (sent st i t).length + (st t).generator.readMemoryD1.toNat +
    (st t).generator.readMemoryD2.toNat + (st t).generator.readMemoryD3.toNat =
      readCount st i t := by
  induction t with
  | zero =>
    simp [sent, TestPath.sent, collected, readCount, CustomPatternGenerator.readCount,
      he.init.readMemoryD1, he.init.readMemoryD2, he.init.readMemoryD3]
  | succ t ih =>
    have hsent : (sent st i (t + 1)).length =
        (sent st i t).length + (st t).generator.readMemoryD3.toNat := collected_length_succ _ _ t
    have hcount : readCount st i (t + 1) = readCount st i t +
        (CustomPatternGenerator.readMemory (st t).generator
          (generatorInputs (st t) (i t))).toNat := count_add_toNat _ t
    rw [hsent, hcount, ← ih, he.step]
    simp only [circuit, step, CustomPatternGenerator.step]
    omega

/-- No word enters the path in the first three cycles. -/
theorem srcValid_early {t : ℕ} (ht : t < 3) :
    CustomPatternGenerator.srcValid (st t).generator = false := by
  interval_cases t
  · exact he.init.readMemoryD3
  · rw [he.step]
    exact he.init.readMemoryD2
  · rw [he.step, he.step]
    exact he.init.readMemoryD1

theorem srcValid_late (t : ℕ) : CustomPatternGenerator.srcValid (st (t + 3)).generator =
    CustomPatternGenerator.readMemory (st t).generator (generatorInputs (st t) (i t)) := by
  rw [he.step, he.step, he.step]
  rfl

/-- The words enter the path three cycles after they have been read. -/
theorem valid_count (t : ℕ) :
    Nat.count (fun t => CustomPatternGenerator.srcValid (st t).generator = true) (t + 3) =
      readCount st i t := by
  induction t with
  | zero =>
    simp [Nat.count_succ, srcValid_early he, readCount, CustomPatternGenerator.readCount]
  | succ t ih =>
    have hcount : readCount st i (t + 1) = readCount st i t +
        if CustomPatternGenerator.readMemory (st t).generator
          (generatorInputs (st t) (i t)) = true then 1 else 0 := Nat.count_succ _ t
    rw [Nat.count_succ, ih, srcValid_late he, hcount]

/-- When the checker has drained, it has accepted no word in the last four cycles. -/
theorem quiet_of_drained {t u : ℕ} (hd : Drained (st t)) (hu : u < t) (ht : t ≤ u + 4) :
    CustomPatternChecker.validData (st u).checker (checkerInputs (st u) (i u)) = false := by
  obtain rfl | rfl | rfl | rfl : t = u + 1 ∨ t = u + 2 ∨ t = u + 3 ∨ t = u + 4 := by omega
  · have hd1 := hd.validDataD1
    rw [he.step] at hd1
    exact hd1
  · have hd2 := hd.validDataD2
    rw [he.step, he.step] at hd2
    exact hd2
  · have hd3 := hd.validDataD3
    rw [he.step, he.step, he.step] at hd3
    exact hd3
  · have hd4 := hd.validDataD4
    rw [he.step, he.step, he.step, he.step] at hd4
    exact hd4

theorem failureDetected_iff_differs {t : ℕ} (hd : Drained (st t)) :
    (st t).checker.failureDetected = true ↔
      ∃ u < t, CustomPatternChecker.differs q.memory (fun t => (st t).checker)
        (fun t => checkerInputs (st t) (i t)) u = true := by
  have hquiet (u : ℕ) (hu : u < t) (ht : t ≤ u + 4) :
      CustomPatternChecker.differs q.memory (fun t => (st t).checker)
        (fun t => checkerInputs (st t) (i t)) u = false := by
    simp [CustomPatternChecker.differs, quiet_of_drained he hd hu ht]
  rcases Nat.lt_or_ge t 4 with ht | ht
  · rw [CustomPatternChecker.failure_early (checker_execution he) (by omega)]
    refine ⟨fun h => by contradiction, ?_⟩
    rintro ⟨u, hu, h⟩
    rw [hquiet u hu (by omega)] at h
    contradiction
  · obtain ⟨d, rfl⟩ := Nat.exists_eq_add_of_le' ht
    rw [CustomPatternChecker.failure_iff_differs (checker_execution he) (checker_reads he)]
    constructor
    · rintro ⟨u, hu, h⟩
      exact ⟨u, by omega, h⟩
    · rintro ⟨u, hu, h⟩
      refine ⟨u, ?_, h⟩
      by_contra hge
      rw [hquiet u hu (by omega)] at h
      contradiction

/-- The failure bit of a checker that has drained tells whether a word that it has accepted is not
that of its pattern. -/
theorem failureDetected_iff (hq : q.Fits) {t : ℕ} (hd : Drained (st t)) :
    (st t).checker.failureDetected = true ↔
      ∃ k w, (accepted st i t)[k]? = some w ∧ reverseSymbols w ≠ q.word k := by
  have hdiffers (u : ℕ) : CustomPatternChecker.differs q.memory (fun t => (st t).checker)
      (fun t => checkerInputs (st t) (i t)) u = true ↔
        CustomPatternChecker.validData (st u).checker (checkerInputs (st u) (i u)) = true ∧
          reverseSymbols (checkerInputs (st u) (i u)).snkData ≠
            q.word (accepted st i u).length :=
    CustomPatternChecker.differs_iff_of_position (CustomPatternChecker.tracking
      (checker_execution he) he.init.checkerPosition he.init.checkerLength hq.position hq.length
        u).position
  rw [failureDetected_iff_differs he hd]
  constructor
  · rintro ⟨u, hu, h⟩
    obtain ⟨hv, hne⟩ := (hdiffers u).mp h
    refine ⟨(accepted st i u).length, (checkerInputs (st u) (i u)).snkData, ?_, hne⟩
    exact collected_getElem?.mpr ⟨u, hu, hv, (collected_length _ _ _).symm, rfl⟩
  · rintro ⟨k, w, hw, hne⟩
    obtain ⟨u, hu, hv, hk, rfl⟩ := collected_getElem?.mp hw
    refine ⟨u, hu, (hdiffers u).mpr ⟨hv, ?_⟩⟩
    rwa [accepted, CustomPatternChecker.accepted, collected_length, hk]

variable (hfits : p.Fits)

include hfits

theorem replaying (t : ℕ) : CustomPatternGenerator.Replaying p.position p.length n
    (readCount st i t) (st t).generator :=
  CustomPatternGenerator.replaying (by positivity) (generator_execution he)
    he.init.generatorPosition he.init.generatorLength hfits.position hfits.length t

/-- The words that enter the path are those of the pattern. -/
theorem sent_eq (t : ℕ) : sent st i t =
    (List.range (sent st i t).length).map fun k => reverseSymbols (p.word k) := by
  have hlength : (sent st i t).length =
      Nat.count (fun t => CustomPatternGenerator.srcValid (st t).generator = true) t :=
    collected_length _ _ t
  rw [hlength]
  refine collected_eq_map fun u _ hvalid => ?_
  have hlate : 3 ≤ u := by
    by_contra hu
    have hearly := srcValid_early he (t := u) (by omega)
    rw [show CustomPatternGenerator.srcValid (st u).generator = true from hvalid] at hearly
    contradiction
  obtain ⟨v, rfl⟩ := Nat.exists_eq_add_of_le' hlate
  have hread : CustomPatternGenerator.readMemory (st v).generator
      (generatorInputs (st v) (i v)) = true := (srcValid_late he v).symm.trans hvalid
  have hdata := CustomPatternGenerator.srcData_eq (generator_execution he) (generator_reads he)
    hread
  have hcount : Nat.count (fun t => (pathInputs (st t) (i t)).srcValid false = true) (v + 3) =
      readCount st i v := valid_count he v
  refine hdata.trans ?_
  rw [hcount]
  have haddress : CustomPatternGenerator.internalMemoryAddress (st v).generator =
      BitVec.ofNat a ((p.position + readCount st i v) % p.length) := by
    apply BitVec.eq_of_toNat_eq
    rw [CustomPatternGenerator.internalMemoryAddress, BitVec.toNat_setWidth,
      (replaying he hfits v).position, BitVec.toNat_ofNat]
  rw [haddress]
  rfl

/-- When the generator has drained, it has sent the whole payload. -/
theorem sent_length_of_drained {t : ℕ} (hd : Drained (st t)) : (sent st i t).length = n := by
  have hlength := sent_length he t
  simp only [hd.readMemoryD1, hd.readMemoryD2, hd.readMemoryD3, Bool.toNat_false,
    Nat.add_zero] at hlength
  rw [hlength]
  exact (replaying he hfits t).stopped hd.generator

/-- Once a test with patterns in phase has drained, the checker has accepted the whole payload, and
its failure bit is set exactly when the memory has returned, in this test, a word that is not the
one last written to its address. -/
theorem verdict_of_inPhase (hp : Tester.BurstMasters pw pr) (hq : q.Fits)
    (hphase : p.InPhase q n) {t : ℕ} (hd : Drained (st t)) :
    (accepted st i t).length = n ∧ ((st t).checker.failureDetected = true ↔
      false ∈ TestPath.verdicts (fun t => (st t).path) t) := by
  have hsent : TestPath.sent (fun t => pathInputs (st t) (i t)) false t =
      (List.range n).map fun k => reverseSymbols (p.word k) := by
    rw [show TestPath.sent _ false t = _ from sent_eq he hfits t,
      sent_length_of_drained he hfits hd]
  obtain ⟨hlength, hfaulty⟩ := TestPath.verdict (path_execution he) hp hsent hd.path
  refine ⟨hlength, ?_⟩
  rw [failureDetected_iff he hq hd, hfaulty, ← accepted_eq]
  refine exists_congr fun k => exists_congr fun w => and_congr_right fun hw => not_congr ?_
  have hk : k < n := by
    rw [← hlength, ← accepted_eq]
    exact (List.getElem?_eq_some_iff.mp hw).choose
  rw [← hphase k hk]
  constructor
  · rintro heq
    rw [← heq]
    exact (byteReversal_byteReversal w).symm
  · rintro rfl
    exact byteReversal_byteReversal _

/-- Once a test has drained, the generator and the checker are at positions of their patterns that
are the payload further on. -/
theorem positions_of_drained (hp : Tester.BurstMasters pw pr) (hq : q.Fits) {t : ℕ}
    (hd : Drained (st t)) :
    (st t).generator.patternPositionCounter.toNat = (p.position + n) % p.length ∧
      (st t).checker.patternPositionCounter.toNat = (q.position + n) % q.length := by
  have hsent : TestPath.sent (fun t => pathInputs (st t) (i t)) false t =
      (List.range n).map fun k => reverseSymbols (p.word k) := by
    rw [show TestPath.sent _ false t = _ from sent_eq he hfits t,
      sent_length_of_drained he hfits hd]
  have haccepted : (CustomPatternChecker.accepted (fun t => (st t).checker)
      (fun t => checkerInputs (st t) (i t)) t).length = n :=
    (TestPath.verdict (path_execution he) hp hsent hd.path).1
  have hread := replaying he hfits t
  have hchecked := CustomPatternChecker.tracking (checker_execution he) he.init.checkerPosition
    he.init.checkerLength hq.position hq.length t
  rw [haccepted] at hchecked
  refine ⟨?_, hchecked.position⟩
  rw [hread.position, hread.stopped hd.generator]

/-- A memory that returns only words of a kind to which a word of the pattern does not belong is
found faulty. -/
theorem failureDetected_of_restricted (hp : Tester.BurstMasters pw pr) (hq : q.Fits)
    {P : Word b → Prop} (hreturns : ∀ t, (i t).path.returns = true → P (i t).path.readdata)
    {k : ℕ} (hk : k < n) (hword : ¬ P (q.word k)) {t : ℕ} (hd : Drained (st t)) :
    (st t).checker.failureDetected = true := by
  have hsent : TestPath.sent (fun t => pathInputs (st t) (i t)) false t =
      (List.range n).map fun k => reverseSymbols (p.word k) := by
    rw [show TestPath.sent _ false t = _ from sent_eq he hfits t,
      sent_length_of_drained he hfits hd]
  have hlength := (TestPath.verdict (path_execution he) hp hsent hd.path).1
  obtain ⟨w, hw⟩ : ∃ w, (TestPath.received (fun t => (st t).path)
      (fun t => pathInputs (st t) (i t)) false t)[k]? = some w :=
    ⟨_, List.getElem?_eq_getElem (hlength.symm ▸ hk)⟩
  obtain ⟨u, -, hvalid, rfl⟩ := TestPath.exists_returned (path_execution he) hw
  refine (failureDetected_iff he hq hd).mpr ⟨k, _, hw, fun heq => hword ?_⟩
  rw [← heq, show reverseSymbols (byteReversal (pathInputs (st u) (i u)).readdata) = _ from
    byteReversal_byteReversal _]
  exact hreturns u hvalid

end Execution

/-- The two patterns repeat the same words, and the cores are at the same position. -/
structure Pattern.InStep (p q : Pattern a b) : Prop where
  fits : p.Fits
  fits' : q.Fits
  position : q.position = p.position
  length : q.length = p.length
  word : ∀ k < p.length, patternWord p.memory k = patternWord q.memory k

theorem Pattern.InStep.inPhase {p q : Pattern a b} (h : p.InStep q) (n : ℕ) : p.InPhase q n := by
  intro k _
  have hpos := h.fits.position
  rw [Pattern.word, Pattern.word, h.position, h.length, h.word _ (Nat.mod_lt _ (by omega))]

/-- The patterns from the positions on at which a test has left the generator and the checker. -/
def left (p : Pattern a b × Pattern a b) (s : State a pw pr) : Pattern a b × Pattern a b :=
  ({ p.1 with position := s.generator.patternPositionCounter.toNat },
    { p.2 with position := s.checker.patternPositionCounter.toNat })

/-- The patterns of the generator and the checker with which the next test begins, after any number
of tests between which the software has not written the pattern registers. -/
abbrev Session (pw pr : MasterParams b) :
    Pattern a b × Pattern a b → Pattern a b × Pattern a b → Prop :=
  Sync.Session (fun p n => circuit pw pr p.1 p.2 n) Drained left

section Session

variable {p : Pattern a b × Pattern a b} {n t : ℕ} {st : ℕ → State a pw pr} {i : ℕ → Inputs b}

/-- A test leaves the generator and the checker within their patterns. -/
theorem left_fits (hp : Tester.BurstMasters pw pr) (hgenerator : p.1.Fits) (hchecker : p.2.Fits)
    (he : (circuit pw pr p.1 p.2 n).Execution st i) (hd : Drained (st t)) :
    (left p (st t)).1.Fits ∧ (left p (st t)).2.Fits := by
  obtain ⟨hread, hchecked⟩ := positions_of_drained he hgenerator hp hchecker hd
  refine ⟨⟨?_, hgenerator.length⟩, ⟨?_, hchecker.length⟩⟩
  · simp only [left, hread]
    exact Nat.mod_lt _ (Nat.zero_lt_of_lt hgenerator.position)
  · simp only [left, hchecked]
    exact Nat.mod_lt _ (Nat.zero_lt_of_lt hchecker.position)

/-- A test leaves the generator and the checker in step. -/
theorem Pattern.InStep.left (hp : Tester.BurstMasters pw pr) (h : p.1.InStep p.2)
    (he : (circuit pw pr p.1 p.2 n).Execution st i) (hd : Drained (st t)) :
    (left p (st t)).1.InStep (left p (st t)).2 := by
  obtain ⟨hfits, hfits'⟩ := left_fits hp h.fits h.fits' he hd
  obtain ⟨hread, hchecked⟩ := positions_of_drained he h.fits hp h.fits' hd
  refine ⟨hfits, hfits', ?_, h.length, h.word⟩
  simp only [CustomPatternTest.left, hread, hchecked, h.position, h.length]

/-- In a session that begins in step, each test begins in step and leaves the cores in step.  Once
it has drained, the checker has accepted the whole payload, and its failure bit is set exactly when
the memory has returned, in this test, a word that is not the one last written to its address. -/
theorem custom_pattern_verdict (hp : Tester.BurstMasters pw pr) {first : Pattern a b × Pattern a b}
    (hfirst : first.1.InStep first.2) (hs : Session pw pr first p)
    (he : (circuit pw pr p.1 p.2 n).Execution st i) (hd : Drained (st t)) :
    p.1.InStep p.2 ∧ (left p (st t)).1.InStep (left p (st t)).2 ∧ (accepted st i t).length = n ∧
      ((st t).checker.failureDetected = true ↔
        false ∈ TestPath.verdicts (fun t => (st t).path) t) := by
  have hstep : p.1.InStep p.2 := hs.invariant (I := fun p => p.1.InStep p.2) hfirst
    fun _ _ _ _ _ h he hd => h.left hp he hd
  exact ⟨hstep, hstep.left hp he hd,
    verdict_of_inPhase he hstep.fits hp hstep.fits' (hstep.inPhase n) hd⟩

end Session

/-- A pattern of two words. -/
def twoWords : Pattern 1 2 := ⟨fun k => if k = 0#_ then 1#_ else 2#_, 0, 2⟩

/-- The write of the run bit. -/
def run : CustomPattern.Csr := ⟨2#_, false, true, 0x01000000#_, 0b1000#_⟩

/-- A generator that has been started with the pattern and a payload of two words, and a checker
that is to be started. -/
def State.started : State 1 (.shipped : MasterParams 2) .shipped where
  generator := CustomPatternGenerator.step { CustomPatternGenerator.reset with
    payloadLengthCounter := 8#_, patternLength := 2#_ } ⟨run, false, 0#_⟩
  generatorPort := ⟨0#_, 0#_⟩
  path := .reset false
  checker := { CustomPatternChecker.reset with payloadLengthCounter := 8#_, patternLength := 2#_ }
  checkerPort := ⟨0#_, 0#_⟩

theorem started : Started twoWords twoWords 2 State.started where
  generator := ⟨⟨_, _, rfl, rfl, rfl, rfl⟩, rfl, rfl⟩
  generatorPosition := rfl
  generatorLength := rfl
  readMemoryD1 := rfl
  readMemoryD2 := rfl
  readMemoryD3 := rfl
  path := TestPath.reset_prepared false
  checker := ⟨fun h => by contradiction, rfl, rfl, rfl, rfl, rfl⟩
  checkerPosition := rfl
  checkerLength := rfl

/-- The checker is started in the first cycle. -/
def startChecker : ℕ → CustomPattern.Csr
  | 0 => run
  | _ => .none

theorem startChecker_quiet {a b : ℕ} {pw pr : MasterParams b} (s : State a pw pr) {i : Inputs b}
    {n : ℕ} (hi : i.checkerCsr = startChecker n) :
    CustomPatternChecker.Quiet (checkerInputs s i) := by
  cases n <;> constructor <;>
    simp [checkerInputs, hi, CustomPatternChecker.clearFailureDetected, loadPatternLength,
      loadPatternPositionCounter, startChecker, run, CustomPattern.Csr.loads,
      CustomPattern.Csr.loadsLane, CustomPattern.Csr.none]

/-- A test of two words, of which the memory returns the second one wrong. -/
def wrongWord (n : ℕ) : Inputs 2 :=
  ⟨.none, startChecker n, true, TestPath.Inputs.twoWords 1#_ 3#_ n⟩

def wrongRun : ℕ → State 1 (.shipped : MasterParams 2) .shipped :=
  trajectory (fun s i => step s i twoWords twoWords) .started wrongWord

theorem wrongRun_execution :
    (circuit .shipped .shipped twoWords twoWords 2).Execution wrongRun wrongWord where
  init := started
  admits n := by
    refine ⟨?_, rfl, startChecker_quiet _ rfl⟩
    rcases Nat.lt_or_ge n 3 with hn | hn
    · interval_cases n <;> decide +kernel
    · have hselect := TestPath.twoWords_quiet_select 1#_ 3#_ n
      exact TestPath.software_of_quiet (TestPath.twoWords_quiet 1#_ 3#_ hn)
        (congrArg StreamSelect.Csr.write hselect.1) (congrArg StreamSelect.Csr.write hselect.2)
  step _ := rfl

theorem wrongRun_drained : Drained (wrongRun 28) := by decide +kernel

/-- The second test begins where the first one has left the cores. -/
theorem custom_pattern_verdict_wrong_word :
    (accepted wrongRun wrongWord 28).length = 2 ∧
      (wrongRun 28).checker.failureDetected = true := by
  have hp : Tester.BurstMasters (b := 2) .shipped .shipped := ⟨rfl, rfl, rfl, by decide⟩
  have hfirst : twoWords.InStep twoWords :=
    ⟨⟨by decide, by decide⟩, ⟨by decide, by decide⟩, rfl, rfl, fun _ _ => rfl⟩
  have hleft : left (twoWords, twoWords) (wrongRun 28) = (twoWords, twoWords) := by
    have hgenerator : (wrongRun 28).generator.patternPositionCounter = 0#_ := by decide +kernel
    have hchecker : (wrongRun 28).checker.patternPositionCounter = 0#_ := by decide +kernel
    rw [left, hgenerator, hchecker]
    rfl
  have hsecond : Session .shipped .shipped (twoWords, twoWords) (twoWords, twoWords) := by
    have hnext : Session .shipped .shipped (twoWords, twoWords)
        (left (twoWords, twoWords) (wrongRun 28)) :=
      .next (n := 2) .start wrongRun_execution wrongRun_drained
    rwa [hleft] at hnext
  obtain ⟨-, -, hlength, hverdict⟩ :=
    custom_pattern_verdict hp hfirst hsecond wrongRun_execution wrongRun_drained
  exact ⟨hlength, hverdict.mpr (by decide +kernel)⟩

end AvalonCores.MemoryTester.CustomPatternTest
