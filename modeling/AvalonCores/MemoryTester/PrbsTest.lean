import Mathlib.Tactic
import AvalonCores.MemoryTester.PrbsPatternGenerator
import AvalonCores.MemoryTester.PrbsPatternChecker
import AvalonCores.MemoryTester.TestPath

/-! A test with the pseudo-random pattern on the memory tester of `memory_tester_system.qsys`, in
sequential mode and of whole bursts, after any earlier tests: the generator, the path through input
and output B, and the checker. -/

namespace AvalonCores.MemoryTester.PrbsTest

open AvalonCores.Sync Prbs

variable {b : ℕ} {pw pr : MasterParams b}

/-- The polynomial of a core and the content of its shift register. -/
structure Register (b : ℕ) where
  polynomial : BitVec 128
  pipeline : Word b

structure State (pw pr : MasterParams b) where
  generator : PrbsPatternGenerator.State (8 * 2 ^ b)
  path : TestPath.State pw pr
  checker : PrbsPatternChecker.State (8 * 2 ^ b)

/-- The inputs of a cycle: the slave ports of the generator and the checker, whether the timing
adapter is ready, and the inputs of the path, of which those at B are not used. -/
structure Inputs (b : ℕ) where
  generatorCsr : CsrAccess
  checkerCsr : CsrAccess
  adapterReady : Bool
  path : TestPath.Inputs b

variable (s : State pw pr) (i : Inputs b)

def generatorInputs : PrbsPatternGenerator.Inputs := ⟨i.generatorCsr, i.adapterReady⟩

def pathInputs : TestPath.Inputs b :=
  { i.path with
    srcValidB := PrbsPatternGenerator.srcValid s.generator
    srcDataB := PrbsPatternGenerator.srcData s.generator
    snkReadyB := PrbsPatternChecker.snkReady s.checker }

def checkerInputs : PrbsPatternChecker.Inputs (8 * 2 ^ b) where
  csr := i.checkerCsr
  snkData := OneToTwoStDemux.srcData s.path.demux true
  snkValid := OneToTwoStDemux.srcValid s.path.demux true

def step : State pw pr where
  generator := PrbsPatternGenerator.step s.generator (generatorInputs i)
  path := TestPath.step s.path (pathInputs s i)
  checker := PrbsPatternChecker.step s.checker (checkerInputs s i)

/-- The generator has just been started with a payload of `n` words and the register `g`, no word is
on its way, and the checker, which may be running, is clear and has the register `c`. -/
structure Started (g c : Register b) (n : ℕ) (s : State pw pr) : Prop where
  words : 0 < n
  generator : ∃ length : BitVec 32, length.toNat = n * 2 ^ b ∧
    PrbsPatternGenerator.Started length g.polynomial g.pipeline s.generator
  path : TestPath.Prepared true s.path
  checker : PrbsPatternChecker.Clear c.polynomial c.pipeline s.checker

/-- Software carries out the tests, writes no register of the generator, and may start the
checker. -/
structure Software (s : State pw pr) (i : Inputs b) : Prop where
  path : TestPath.Software s.path (pathInputs s i)
  generatorCsr : i.generatorCsr.write = false
  checkerCsr : PrbsPatternChecker.Quiet (checkerInputs s i)

/-- The generator and the controller have stopped, no word is on its way, and no comparison is under
way in the checker. -/
structure Drained (s : State pw pr) : Prop where
  generator : s.generator.start = false
  emitted : s.generator.pipelineEnableD1 = false
  path : TestPath.Empty true s.path
  checkerD1 : s.checker.pipelineEnableD1 = false
  checkerD2 : s.checker.pipelineEnableD2 = false

instance (s : State pw pr) : Decidable (Drained s) :=
  decidable_of_iff (_ ∧ _ ∧ _ ∧ _ ∧ _)
    ⟨fun ⟨h1, h2, h3, h4, h5⟩ => ⟨h1, h2, h3, h4, h5⟩,
      fun ⟨h1, h2, h3, h4, h5⟩ => ⟨h1, h2, h3, h4, h5⟩⟩

/-- A test of `n` words with the register `g` of the generator and the register `c` of the
checker. -/
def circuit (pw pr : MasterParams b) (g c : Register b) (n : ℕ) :
    Circuit (State pw pr) (Inputs b) where
  init := Started g c n
  admits := Software
  step := step

section Execution

variable {g c : Register b} {n : ℕ} {st : ℕ → State pw pr} {i : ℕ → Inputs b}

/-- The words that the checker has accepted before cycle `t`. -/
def accepted (st : ℕ → State pw pr) (i : ℕ → Inputs b) (t : ℕ) : List (Word b) :=
  PrbsPatternChecker.accepted (fun t => (st t).checker) (fun t => checkerInputs (st t) (i t)) t

def enableCount (st : ℕ → State pw pr) (i : ℕ → Inputs b) (t : ℕ) : ℕ :=
  PrbsPatternGenerator.enableCount (fun t => (st t).generator)
    (fun t => generatorInputs (i t)) t

/-- The words that have entered the path before cycle `t`. -/
def sent (st : ℕ → State pw pr) (i : ℕ → Inputs b) (t : ℕ) : List (Word b) :=
  TestPath.sent (fun t => pathInputs (st t) (i t)) true t

/-- The checker accepts what the path delivers. -/
theorem accepted_eq (t : ℕ) : accepted st i t =
    TestPath.received (fun t => (st t).path) (fun t => pathInputs (st t) (i t)) true t := by
  rw [accepted, PrbsPatternChecker.accepted, TestPath.received, OneToTwoStDemux.delivered]
  congr 1
  funext t
  exact Bool.and_comm _ _

variable (he : (circuit pw pr g c n).Execution st i)

include he

theorem generator_execution : (PrbsPatternGenerator.circuit g.polynomial g.pipeline n).Execution
    (fun t => (st t).generator) (fun t => generatorInputs (i t)) where
  init := he.init.generator
  admits t := (he.admits t).generatorCsr
  step t := by
    rw [he.step]
    rfl

theorem checker_execution : (PrbsPatternChecker.circuit c.polynomial c.pipeline).Execution
    (fun t => (st t).checker) (fun t => checkerInputs (st t) (i t)) where
  init := he.init.checker
  admits t := (he.admits t).checkerCsr
  step t := by
    rw [he.step]
    rfl

theorem path_execution : (TestPath.circuit pw pr true).Execution (fun t => (st t).path)
    (fun t => pathInputs (st t) (i t)) where
  init := he.init.path
  admits t := (he.admits t).path
  step t := by
    rw [he.step]
    rfl

/-- A word whose cycle has been enabled has entered the path or is in the stage before it. -/
theorem sent_length (t : ℕ) :
    (sent st i t).length + (st t).generator.pipelineEnableD1.toNat = enableCount st i t := by
  induction t with
  | zero =>
    obtain ⟨length, -, hstarted⟩ := he.init.generator
    simp [sent, TestPath.sent, collected, enableCount, PrbsPatternGenerator.enableCount,
      hstarted.pipelineEnableD1]
  | succ t ih =>
    have hsent : (sent st i (t + 1)).length =
        (sent st i t).length + (st t).generator.pipelineEnableD1.toNat :=
      collected_length_succ _ _ t
    have hcount : enableCount st i (t + 1) = enableCount st i t +
        (PrbsPatternGenerator.pipelineEnable (st t).generator (generatorInputs (i t))).toNat :=
      count_add_toNat _ t
    rw [hsent, hcount, ← ih, he.step]
    rfl

theorem emitting (t : ℕ) : PrbsPatternGenerator.Emitting g.polynomial g.pipeline n
    (st t).generator (enableCount st i t) :=
  (PrbsPatternGenerator.emitting he.init.words (generator_execution he) t).2

/-- The words that enter the path are those of the pattern. -/
theorem sent_eq (t : ℕ) : sent st i t = (List.range (sent st i t).length).map fun k =>
    byteReversal (iterate g.polynomial g.pipeline k) := by
  have hlength (t : ℕ) : (sent st i t).length =
      Nat.count (fun t => (pathInputs (st t) (i t)).srcValid true = true) t :=
    collected_length _ _ t
  rw [hlength]
  refine collected_eq_map fun u _ hvalid => ?_
  obtain ⟨hpos, hdata⟩ := (emitting he u).srcData_eq hvalid
  have hcount := sent_length he u
  rw [show (st u).generator.pipelineEnableD1 = true from hvalid, Bool.toNat_true] at hcount
  refine hdata.trans ?_
  rw [← hlength, ← hcount, Nat.add_sub_cancel]

/-- When the generator has drained, its pipeline has been enabled for the whole payload. -/
theorem enableCount_of_drained {t : ℕ} (hd : Drained (st t)) : enableCount st i t = n := by
  have hstart := (emitting he t).start
  have hle := (emitting he t).le
  rw [hd.generator, eq_comm, decide_eq_false_iff_not] at hstart
  omega

/-- When the generator has drained, it has sent the whole payload. -/
theorem sent_of_drained {t : ℕ} (hd : Drained (st t)) :
    TestPath.sent (fun t => pathInputs (st t) (i t)) true t =
      (List.range n).map fun k => byteReversal (iterate g.polynomial g.pipeline k) := by
  have hlength := sent_length he t
  rw [enableCount_of_drained he hd, hd.emitted, Bool.toNat_false, Nat.add_zero] at hlength
  rw [show TestPath.sent _ true t = _ from sent_eq he t, hlength]

/-- Once a test has drained, the checker has accepted the whole payload. -/
theorem accepted_length (hp : Tester.BurstMasters pw pr) {t : ℕ} (hd : Drained (st t)) :
    (accepted st i t).length = n := by
  rw [accepted_eq]
  exact (TestPath.verdict (path_execution he) hp (sent_of_drained he hd) hd.path).1

/-- Once a test with equal registers has drained, the failure bit of the checker is set exactly when
the memory has returned, in this test, a word that is not the one last written to its address. -/
theorem failureDetected_iff (hp : Tester.BurstMasters pw pr) (heq : g = c) {t : ℕ}
    (hd : Drained (st t)) : (st t).checker.failureDetected = true ↔
      false ∈ TestPath.verdicts (fun t => (st t).path) t := by
  subst heq
  have hfaulty := (TestPath.verdict (path_execution he) hp (sent_of_drained he hd) hd.path).2
  rw [← accepted_eq] at hfaulty
  have hchecking := PrbsPatternChecker.checking (checker_execution he) t
  rw [hchecking.failureDetected_iff hd.checkerD1 hd.checkerD2, hfaulty]
  refine exists_congr fun k => exists_congr fun w => and_congr_right fun _ => not_congr ?_
  constructor
  · rintro heq
    rw [← heq, byteReversal_byteReversal]
  · rintro rfl
    exact byteReversal_byteReversal _

end Execution

/-- The register `r` after `n` words. -/
def Register.after (r : Register b) (n : ℕ) : Register b :=
  ⟨r.polynomial, iterate r.polynomial r.pipeline n⟩

/-- The registers in which a test has left the generator and the checker. -/
def left (s : State pw pr) : Register b × Register b :=
  (⟨s.generator.polynomial, s.generator.pipeline⟩, ⟨s.checker.polynomial, s.checker.pipeline⟩)

/-- The registers of the generator and the checker with which the next test begins, after any number
of tests between which the software has written neither polynomial and neither seed bit. -/
abbrev Session (pw pr : MasterParams b) :
    Register b × Register b → Register b × Register b → Prop :=
  Sync.Session (fun p n => circuit pw pr p.1 p.2 n) Drained fun _ => left

section Session

variable {p : Register b × Register b} {n t : ℕ} {st : ℕ → State pw pr} {i : ℕ → Inputs b}

/-- A test of `n` words takes both registers `n` words further on. -/
theorem left_eq (hp : Tester.BurstMasters pw pr) (he : (circuit pw pr p.1 p.2 n).Execution st i)
    (hd : Drained (st t)) : left (st t) = (p.1.after n, p.2.after n) := by
  have hgenerator := emitting he t
  have hchecker := PrbsPatternChecker.checking (checker_execution he) t
  have hlength : (PrbsPatternChecker.accepted (fun t => (st t).checker)
      (fun t => checkerInputs (st t) (i t)) t).length = n := accepted_length he hp hd
  rw [enableCount_of_drained he hd] at hgenerator
  rw [left, hgenerator.polynomial_eq, hgenerator.pipeline, hchecker.polynomial_eq,
    hchecker.pipeline, hlength]
  rfl

/-- In a session that begins with equal registers, each test begins with equal registers and leaves
equal registers.  Once it has drained, the checker has accepted the whole payload, and its failure
bit is set exactly when the memory has returned, in this test, a word that is not the one last
written to its address. -/
theorem prbs_verdict (hp : Tester.BurstMasters pw pr) {r : Register b}
    (hs : Session pw pr (r, r) p) (he : (circuit pw pr p.1 p.2 n).Execution st i)
    (hd : Drained (st t)) :
    p.1 = p.2 ∧ (left (st t)).1 = (left (st t)).2 ∧ (accepted st i t).length = n ∧
      ((st t).checker.failureDetected = true ↔
        false ∈ TestPath.verdicts (fun t => (st t).path) t) := by
  have hequal : p.1 = p.2 := by
    refine hs.invariant (I := fun p => p.1 = p.2) rfl fun p n st i t heq he hd => ?_
    rw [left_eq hp he hd, heq]
  refine ⟨hequal, ?_, accepted_length he hp hd, failureDetected_iff he hp hequal hd⟩
  rw [left_eq hp he hd, hequal]

end Session

/-- A generator that has been started with a payload of two words and the content `x` of its shift
register, and a checker with the same content that is to be started. -/
def State.started (x : Word 2) : State (.shipped : MasterParams 2) .shipped where
  generator := { PrbsPatternGenerator.reset with
    start := true, payloadLengthCounter := 8#_, pipeline := x }
  path := .reset true
  checker := { PrbsPatternChecker.reset with payloadLengthCounter := 8#_, pipeline := x }

/-- The reset value of the polynomial, with the content `x` of the shift register. -/
def Register.reset (x : Word 2) : Register 2 := ⟨polynomialResetValue 32, x⟩

theorem started (x : Word 2) : Started (.reset x) (.reset x) 2 (.started x) where
  words := by decide
  generator := ⟨8#_, rfl, rfl, rfl, rfl, rfl, rfl, rfl, rfl⟩
  path := TestPath.reset_prepared true
  checker := ⟨rfl, rfl, rfl, rfl, rfl, rfl⟩

/-- The checker is started in the first cycle. -/
def startChecker : ℕ → CsrAccess
  | 0 => ⟨2#_, false, true, 0x01000000#_, 0b1000#_⟩
  | _ => .none

theorem startChecker_quiet {b : ℕ} {pw pr : MasterParams b} (s : State pw pr) {i : Inputs b}
    {n : ℕ} (hi : i.checkerCsr = startChecker n) :
    PrbsPatternChecker.Quiet (checkerInputs s i) := by
  cases n <;> constructor <;>
    simp [checkerInputs, hi, PrbsPatternChecker.clearFailureDetected,
      PrbsPatternChecker.loadSeedChecker, loadPolynomial, startChecker, CsrAccess.loads,
      CsrAccess.loadsLane, CsrAccess.none]

/-- A test of two words, of which the memory returns the second one wrong. -/
def wrongWord (n : ℕ) : Inputs 2 :=
  ⟨.none, startChecker n, true, TestPath.Inputs.twoWords 0xDEADBEEF#_ 1#_ n⟩

def wrongRun (x : Word 2) : ℕ → State (.shipped : MasterParams 2) .shipped :=
  trajectory step (.started x) wrongWord

theorem wrongRun_execution (x : Word 2)
    (hsoftware : ∀ n < 3, TestPath.Software (wrongRun x n).path
      (pathInputs (wrongRun x n) (wrongWord n))) :
    (circuit .shipped .shipped (.reset x) (.reset x) 2).Execution (wrongRun x) wrongWord where
  init := started x
  admits n := by
    refine ⟨?_, rfl, startChecker_quiet _ rfl⟩
    rcases Nat.lt_or_ge n 3 with hn | hn
    · exact hsoftware n hn
    · have hselect := TestPath.twoWords_quiet_select 0xDEADBEEF#_ 1#_ n
      exact TestPath.software_of_quiet (TestPath.twoWords_quiet _ _ hn)
        (congrArg StreamSelect.Csr.write hselect.1) (congrArg StreamSelect.Csr.write hselect.2)
  step _ := rfl

/-- The second test begins with the third word of the sequence. -/
theorem prbs_verdict_wrong_word :
    let x := iterate (polynomialResetValue 32) (seedValue 32) 2
    (accepted (wrongRun x) wrongWord 28).length = 2 ∧
      (wrongRun x 28).checker.failureDetected = true := by
  intro x
  have hp : Tester.BurstMasters (b := 2) .shipped .shipped := ⟨rfl, rfl, rfl, by decide⟩
  have hfirst := wrongRun_execution (seedValue 32) (by decide +kernel)
  have hsecond := wrongRun_execution x (by decide +kernel)
  have hdrained : Drained (wrongRun (seedValue 32) 28) ∧ Drained (wrongRun x 28) := by
    decide +kernel
  have hsession : Session .shipped .shipped (.reset (seedValue 32), .reset (seedValue 32))
      (left (wrongRun (seedValue 32) 28)) := .next (n := 2) .start hfirst hdrained.1
  rw [left_eq (p := (.reset (seedValue 32), .reset (seedValue 32))) hp hfirst hdrained.1]
    at hsession
  obtain ⟨-, -, hlength, hverdict⟩ := prbs_verdict hp hsession hsecond hdrained.2
  exact ⟨hlength, hverdict.mpr (by decide +kernel)⟩

end AvalonCores.MemoryTester.PrbsTest
