import Mathlib.Tactic
import AvalonCores.MemoryTester.CustomPatternTest
import AvalonCores.MemoryTester.PopulatePattern

/-! `program_custom_pattern_payload_length` of `main.c`.  Its first three stores take two idle cores
to the beginning of a test, in which the fourth one starts the checker. -/

namespace AvalonCores.MemoryTester.PopulatePattern

open Sync CustomPattern

def generatorPayloadLengthReg : ℕ := 0x0

def checkerPayloadLengthReg : ℕ := 0x0

def generatorControlReg : ℕ := 0x8

def checkerControlReg : ℕ := 0x8

def generatorRunByteOffset : ℕ := 3

def checkerRunByteOffset : ℕ := 3

def generatorSetPayloadLength (base : Base) (length : BitVec 32) : Store :=
  ⟨base, iowr32Direct generatorPayloadLengthReg length⟩

def checkerSetPayloadLength (base : Base) (length : BitVec 32) : Store :=
  ⟨base, iowr32Direct checkerPayloadLengthReg length⟩

def generatorEnableStart (base : Base) : Store :=
  ⟨base, iowr8Direct (generatorControlReg + generatorRunByteOffset) 1#8⟩

def checkerEnableStart (base : Base) : Store :=
  ⟨base, iowr8Direct (checkerControlReg + checkerRunByteOffset) 1#8⟩

def programCustomPatternPayloadLength (patternLength : BitVec 32) : List Store :=
  [generatorSetPayloadLength .generatorCsr patternLength,
    checkerSetPayloadLength .checkerCsr patternLength,
    generatorEnableStart .generatorCsr,
    checkerEnableStart .checkerCsr]

variable {a m : ℕ} {M : PatternMemory a m}

/-- The two cores are stopped in finite mode, without a failure, and no word is on its way in
them. -/
structure Idle (s : State M) : Prop where
  stopped : Stopped s
  infinite : s.generator.infinitePayloadLength = false
  readMemoryD1 : s.generator.readMemoryD1 = false
  readMemoryD2 : s.generator.readMemoryD2 = false
  readMemoryD3 : s.generator.readMemoryD3 = false
  failureDetected : s.checker.failureDetected = false
  validDataD1 : s.checker.validDataD1 = false
  validDataD2 : s.checker.validDataD2 = false
  validDataD3 : s.checker.validDataD3 = false
  validDataD4 : s.checker.validDataD4 = false

/-- The store leaves the run bits alone and does not write the mode of the generator. -/
structure KeepsIdle (store : Option Store) : Prop where
  stopped : KeepsStopped store
  infinite : loadInfinitePayloadLength (csr .generatorCsr store) = false

theorem keepsIdle_none : KeepsIdle none := ⟨⟨rfl, rfl⟩, rfl⟩

section Step

variable {s : State M} {i : Inputs m}

/-- The registers that are written while the start bit of the generator is clear. -/
theorem Idle.step (h : Idle s) (hi : KeepsIdle i.store) : Idle (PopulatePattern.step s i) where
  stopped := h.stopped.step hi.stopped
  infinite := by
    simp [PopulatePattern.step, CustomPatternGenerator.step, hi.infinite, h.infinite]
  readMemoryD1 := by
    simp [PopulatePattern.step, CustomPatternGenerator.step, CustomPatternGenerator.readMemory,
      h.stopped.generator]
  readMemoryD2 := h.readMemoryD1
  readMemoryD3 := h.readMemoryD2
  failureDetected := by
    simp [PopulatePattern.step, CustomPatternChecker.step, CustomPatternChecker.setFailureDetected,
      h.validDataD4, h.failureDetected]
  validDataD1 := by
    simp [PopulatePattern.step, CustomPatternChecker.step, CustomPatternChecker.validData,
      CustomPatternChecker.snkReady, h.stopped.checker]
  validDataD2 := h.validDataD1
  validDataD3 := h.validDataD2
  validDataD4 := h.validDataD3

/-- The payload lengths of the generator and the checker. -/
def payloads (s : State M) : BitVec 32 × BitVec 32 :=
  (s.generator.payloadLengthCounter, s.checker.payloadLengthCounter)

/-- The payload lengths after a store to stopped cores. -/
def nextPayloads (m : ℕ) (p : BitVec 32 × BitVec 32) (store : Option Store) :
    BitVec 32 × BitVec 32 :=
  (nextPayloadLength (csr .generatorCsr store) m false p.1,
    nextPayloadLength (csr .checkerCsr store) m false p.2)

theorem step_payloads (h : Stopped s) (i : Inputs m) :
    payloads (step s i) = nextPayloads m (payloads s) i.store := by
  simp [payloads, step, nextPayloads, CustomPatternGenerator.step, CustomPatternChecker.step,
    CustomPatternGenerator.decrementPayloadLengthCounter,
    CustomPatternChecker.decrementPayloadLengthCounter, h.generator, h.checker]

/-- A run of two idle cores carries out the stores of the payload lengths in their order. -/
theorem Idle.run (h : Idle s) {is : List (Inputs m)}
    (hkeeps : ∀ x ∈ is.filterMap (·.store), KeepsIdle (some x)) :
    Idle (Sync.run PopulatePattern.step s is) ∧ payloads (Sync.run PopulatePattern.step s is) =
      (is.filterMap (·.store)).foldl (fun p x => nextPayloads m p (some x)) (payloads s) := by
  refine run_events ?_ ?_ h hkeeps
  · intro s i hs hi
    refine ⟨hs.step (hi ▸ keepsIdle_none), ?_⟩
    rw [step_payloads hs.stopped, hi]
    rfl
  · intro s i x hs hi hx
    exact ⟨hs.step (hi ▸ hx), hi ▸ step_payloads hs.stopped i⟩

end Step

theorem toCsr_payloadLength (length : BitVec 32) :
    (iowr32Direct 0 length).toCsr = ⟨0#2, false, true, length, 0b1111#4⟩ := by
  simp [DirectStore.toCsr, DirectStore.writedata, DirectStore.byteenable, DirectStore.lane,
    DirectStore.word, iowr32Direct]

theorem toCsr_run :
    (iowr8Direct 11 1#8).toCsr = ⟨2#2, false, true, 0x01000000#32, 0b1000#4⟩ := by
  decide

theorem Paired.keepsIdle {stores : List Store} (h : Paired stores) :
    ∀ x ∈ stores, KeepsIdle (some x) := by
  induction h with
  | nil => simp
  | storeByte offset data _ ih =>
    intro x hx
    simp only [PopulatePattern.storeByte, List.cons_append, List.nil_append, List.mem_cons] at hx
    rcases hx with rfl | rfl | hx
    · exact ⟨⟨rfl, rfl⟩, rfl⟩
    · exact ⟨⟨rfl, rfl⟩, rfl⟩
    · exact ih x hx

theorem keepsIdle_programPattern (n : ℕ) : ∀ x ∈ programPattern n, KeepsIdle (some x) := by
  intro x hx
  refine ⟨keepsStopped_programPattern n x hx, ?_⟩
  simp only [programPattern, generatorSetPatternLength, checkerSetPatternLength,
    generatorSetPatternPosition, checkerSetPatternPosition, generatorPatternSettingsReg,
    generatorPatternLengthByteOffset, generatorPatternPositionByteOffset, checkerPatternSettingsReg,
    checkerPatternLengthByteOffset, checkerPatternPositionByteOffset, List.mem_cons,
    List.not_mem_nil, or_false] at hx
  rcases hx with rfl | rfl | rfl | rfl <;>
    simp [csr, loadInfinitePayloadLength, Csr.loadsLane, Csr.loads, toCsr_patternLength,
      toCsr_patternPosition, Csr.none]

/-- The stores of a pattern are to the pattern memories and the pattern registers. -/
theorem Populate.keepsIdle (f : Populate) : ∀ x ∈ f.stores m, KeepsIdle (some x) := by
  obtain ⟨bytes, hbytes, hpaired, -⟩ := f.stores_eq m
  intro x hx
  rw [hbytes, List.mem_append] at hx
  rcases hx with hx | hx
  · exact hpaired.keepsIdle x hx
  · exact keepsIdle_programPattern _ x hx

/-- The stores of the payload lengths. -/
def setPayloadLengths (length : BitVec 32) : List Store :=
  [generatorSetPayloadLength .generatorCsr length, checkerSetPayloadLength .checkerCsr length]

theorem setPayloadLengths_keepsIdle (length : BitVec 32) :
    ∀ x ∈ setPayloadLengths length, KeepsIdle (some x) := by
  intro x hx
  simp only [setPayloadLengths, List.mem_cons, List.not_mem_nil, or_false] at hx
  rcases hx with rfl | rfl <;> constructor <;>
    simp [KeepsStopped, csr, generatorSetPayloadLength, checkerSetPayloadLength,
      generatorPayloadLengthReg, checkerPayloadLengthReg, toCsr_payloadLength, loadStart,
      loadInfinitePayloadLength, Csr.loadsLane, Csr.loads, Csr.none]

theorem nexts_setPayloadLengths (r : Registers M) (length : BitVec 32) :
    r.nexts (setPayloadLengths length) = r := by
  simp [setPayloadLengths, Registers.nexts, Registers.next, generatorSetPayloadLength,
    checkerSetPayloadLength, generatorPayloadLengthReg, checkerPayloadLengthReg, csr,
    toCsr_payloadLength, writePattern, nextPatternLength, nextPatternPosition, loadPatternLength,
    loadPatternPositionCounter, Csr.loads, Csr.none]

theorem payloads_setPayloadLengths (p : BitVec 32 × BitVec 32) (length : BitVec 32) :
    (setPayloadLengths length).foldl (fun p x => nextPayloads m p (some x)) p =
      (length, length) := by
  have hall (old : BitVec 32) : loadLanes 0b1111#4 length old = length := by
    refine loadLanes_of_all (fun k hk => ?_) length old
    have : k / 8 < 4 := by omega
    interval_cases k / 8 <;> rfl
  simp [setPayloadLengths, nextPayloads, generatorSetPayloadLength, checkerSetPayloadLength,
    generatorPayloadLengthReg, checkerPayloadLengthReg, csr, toCsr_payloadLength,
    nextPayloadLength, loadPayloadLengthCounter, Csr.loads, Csr.none, hall]

/-- The store of the run bit of the generator. -/
theorem csr_generatorEnableStart :
    csr .generatorCsr (some (generatorEnableStart .generatorCsr)) =
      ⟨2#2, false, true, 0x01000000#32, 0b1000#4⟩ := toCsr_run

section Start

variable {s : State M} {i : Inputs m}

/-- The start of the generator leaves the pattern and the checker alone. -/
theorem started_of_idle (h : Idle s) {n : ℕ}
    (hpayload : s.generator.payloadLengthCounter.toNat = n * m)
    (hi : i.store = some (generatorEnableStart .generatorCsr)) :
    CustomPatternGenerator.Started n (step s i).generator ∧
      CustomPatternChecker.Clear (step s i).checker ∧ registers (step s i) = registers s := by
  have hcsr : csr .generatorCsr i.store = ⟨2#2, false, true, 0x01000000#32, 0b1000#4⟩ := by
    rw [hi, csr_generatorEnableStart]
  have hchecker : csr .checkerCsr i.store = .none := by
    rw [hi]
    rfl
  refine ⟨?_, ?_, ?_⟩
  · refine ⟨⟨s.generator, ⟨csr .generatorCsr i.store, i.srcReady, i.generatorMemoryData⟩,
      h.stopped.generator, ?_, ?_, rfl⟩, ?_, ?_⟩
    · simp [hcsr, loadStart, Csr.loadsLane, Csr.loads]
    · simp [hcsr]
    · simp [step, CustomPatternGenerator.step, hcsr, loadInfinitePayloadLength, Csr.loadsLane,
        h.infinite]
    · simp [step, CustomPatternGenerator.step, hcsr, nextPayloadLength, loadPayloadLengthCounter,
        Csr.loads, CustomPatternGenerator.decrementPayloadLengthCounter, h.stopped.generator,
        hpayload]
  · have hstart : (step s i).checker.start = false := by
      simp [step, CustomPatternChecker.step, hchecker, loadStart, Csr.loadsLane, Csr.loads,
        Csr.none, h.stopped.checker]
    refine ⟨fun hrun => ?_, ?_, ?_, h.validDataD1, h.validDataD2, h.validDataD3⟩
    · rw [hstart] at hrun
      contradiction
    · simp [step, CustomPatternChecker.step, CustomPatternChecker.setFailureDetected,
        h.validDataD4, h.failureDetected]
    · simp [step, CustomPatternChecker.step, CustomPatternChecker.validData,
        CustomPatternChecker.snkReady, h.stopped.checker]
  · rw [step_registers h.stopped, hi]
    simp [Registers.next, csr, generatorEnableStart, writePattern,
      nextPatternLength, nextPatternPosition, loadPatternLength, loadPatternPositionCounter,
      generatorControlReg, generatorRunByteOffset, toCsr_run, Csr.loads, Csr.none]

end Start

section Test

variable {a b : ℕ} {pw pr : MasterParams b} {M : PatternMemory a (2 ^ b)}

/-- The pattern that the software has loaded into the generator. -/
def generatorPattern (s : State M) : CustomPatternTest.Pattern a b where
  memory := M.word s.generatorPattern
  position := s.generator.patternPositionCounter.toNat
  length := s.generator.patternLength.toNat

def checkerPattern (s : State M) : CustomPatternTest.Pattern a b where
  memory := M.word s.checkerPattern
  position := s.checker.patternPositionCounter.toNat
  length := s.checker.patternLength.toNat

/-- The two cores with the path of the tester between them. -/
def testState (s : State M) (path : TestPath.State pw pr) (generatorPort checkerPort :
    ReadPort a (2 ^ b)) : CustomPatternTest.State a pw pr :=
  ⟨s.generator, generatorPort, path, s.checker, checkerPort⟩

/-- Once the payload lengths of idle cores have been programmed and the generator has been started,
a test of their patterns begins, whatever cycles lie between the stores. -/
theorem started_of_programmed {s : State M} (h : Idle s) {length : BitVec 32} {n : ℕ}
    (hlength : length.toNat = n * 2 ^ b) {program : List (Inputs (2 ^ b))}
    {start : Inputs (2 ^ b)} (hprogram : program.filterMap (·.store) = setPayloadLengths length)
    (hstart : start.store = some (generatorEnableStart .generatorCsr)) {path : TestPath.State pw pr}
    (hpath : TestPath.Prepared false path) (generatorPort checkerPort : ReadPort a (2 ^ b)) :
    CustomPatternTest.Started (generatorPattern s) (checkerPattern s) n
      (testState (step (run step s program) start) path generatorPort checkerPort) := by
  obtain ⟨hidle, hpayloads⟩ := h.run (hprogram ▸ setPayloadLengths_keepsIdle length)
  have hregisters := run_registers h.stopped program
    fun x hx => (setPayloadLengths_keepsIdle length x (hprogram ▸ hx)).stopped
  rw [hprogram] at hpayloads hregisters
  rw [payloads_setPayloadLengths] at hpayloads
  have hprogrammed : registers (run step s program) = registers s :=
    hregisters.trans (nexts_setPayloadLengths _ length)
  generalize run step s program = t at *
  have hpayload : t.generator.payloadLengthCounter = length := congrArg Prod.fst hpayloads
  obtain ⟨hgenerator, hclear, hstarted⟩ := started_of_idle hidle (hpayload ▸ hlength) hstart
  rw [hprogrammed] at hstarted
  have hread : CustomPatternGenerator.readMemory t.generator
      ⟨csr .generatorCsr start.store, start.srcReady, start.generatorMemoryData⟩ = false := by
    simp [CustomPatternGenerator.readMemory, hidle.stopped.generator]
  exact
    { generator := hgenerator
      generatorPosition := congrArg (BitVec.toNat ∘ Registers.generatorPosition) hstarted
      generatorLength := congrArg (BitVec.toNat ∘ Registers.generatorLength) hstarted
      readMemoryD1 := hread
      readMemoryD2 := hidle.readMemoryD1
      readMemoryD3 := hidle.readMemoryD2
      path := hpath
      checker := hclear
      checkerPosition := congrArg (BitVec.toNat ∘ Registers.checkerPosition) hstarted
      checkerLength := congrArg (BitVec.toNat ∘ Registers.checkerLength) hstarted }

/-- The stores of `programCustomPatternPayloadLength` to idle cores, whatever cycles lie between
them, take the cores to the beginning of a test of their patterns, after which only the start of
the checker is left. -/
theorem programmed_started {s : State M} (h : Idle s) {length : BitVec 32} {n : ℕ}
    (hlength : length.toNat = n * 2 ^ b) {is : List (Inputs (2 ^ b))}
    (hstores : is.filterMap (·.store) = programCustomPatternPayloadLength length)
    {path : TestPath.State pw pr} (hpath : TestPath.Prepared false path)
    (generatorPort checkerPort : ReadPort a (2 ^ b)) :
    ∃ before after, is = before ++ after ∧
      after.filterMap (·.store) = [checkerEnableStart .checkerCsr] ∧
      CustomPatternTest.Started (generatorPattern s) (checkerPattern s) n
        (testState (run step s before) path generatorPort checkerPort) := by
  have hsplit : is.filterMap (·.store) = setPayloadLengths length ++
      [generatorEnableStart .generatorCsr, checkerEnableStart .checkerCsr] := hstores
  obtain ⟨program, rest, rfl, hprogram, hrest⟩ := List.filterMap_eq_append_iff.mp hsplit
  obtain ⟨idle, start, after, rfl, hidle, hstart, hafter⟩ := List.filterMap_eq_cons_iff.mp hrest
  refine ⟨program ++ idle ++ [start], after, by simp, hafter, ?_⟩
  have hnone : idle.filterMap (·.store) = [] := List.filterMap_eq_nil_iff.mpr hidle
  rw [run, List.foldl_append]
  refine started_of_programmed h hlength ?_ hstart hpath generatorPort checkerPort
  rw [List.filterMap_append, hprogram, hnone, List.append_nil]

/-- The store that is left keeps to the rules of the test, and starts a checker that is stopped. -/
theorem checkerEnableStart_starts {s : CustomPatternTest.State a pw pr}
    {i : CustomPatternTest.Inputs b} (hs : s.checker.start = false)
    (hgenerator : i.generatorCsr = csr .generatorCsr (some (checkerEnableStart .checkerCsr)))
    (hchecker : i.checkerCsr = csr .checkerCsr (some (checkerEnableStart .checkerCsr))) :
    i.generatorCsr.write = false ∧
      CustomPatternChecker.Quiet (CustomPatternTest.checkerInputs s i) ∧
      ∀ p q, (CustomPatternTest.step s i p q).checker.start = true := by
  have hrun : i.checkerCsr = CustomPatternTest.startChecker 0 := hchecker.trans toCsr_run
  refine ⟨congrArg Csr.write hgenerator, CustomPatternTest.startChecker_quiet s hrun,
    fun p q => ?_⟩
  simp [CustomPatternTest.step, CustomPatternChecker.step, CustomPatternChecker.clearStart, hs,
    CustomPatternTest.checkerInputs, hrun, CustomPatternTest.startChecker, CustomPatternTest.run,
    loadStart, Csr.loadsLane, Csr.loads]

end Test

end AvalonCores.MemoryTester.PopulatePattern
