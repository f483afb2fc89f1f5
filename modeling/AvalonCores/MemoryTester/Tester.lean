import Mathlib.Tactic
import AvalonCores.Sync.JobLog
import AvalonCores.MemoryTester.CommandSchedule
import AvalonCores.MemoryTester.PatternWriter
import AvalonCores.MemoryTester.PatternReader

/-! The controller connected to the two masters, as in `memory_tester_system.qsys`, with a record of
the words that the memory port has accepted and that the reader has posted of each block. -/

namespace AvalonCores.MemoryTester.Tester

open AvalonCores.Sync

variable {b : ℕ} {pw pr : MasterParams b}

/-- The composition.  `written` and `posted` list, for the write and the read commands accepted in
the current run, the words accepted by the memory port and the words posted. -/
structure State (pw pr : MasterParams b) where
  controller : RamTestController.Monitored
  writer : PatternWriter.Monitored pw
  reader : PatternReader.Monitored pr
  written : List ℕ
  posted : List ℕ

/-- The inputs of a cycle: the slave port, the two memory ports, the two streams, and what the four
FIFOs show while they are empty. -/
structure Inputs (b : ℕ) where
  csrAddress : BitVec 3
  csrRead : Bool
  csrWrite : Bool
  csrWritedata : BitVec 32
  csrByteenable : BitVec 4
  writeWaitrequest : Bool
  snkData : Word b
  snkValid : Bool
  readWaitrequest : Bool
  readdata : Word b
  readdatavalid : Bool
  srcReady : Bool
  writeFifoIdle : Block
  readFifoIdle : Block
  writerFifoIdle : Word b
  readerFifoIdle : Word b

variable (s : State pw pr) (i : Inputs b)

def controllerInputs : RamTestController.Inputs where
  csrAddress := i.csrAddress
  csrRead := i.csrRead
  csrWrite := i.csrWrite
  csrWritedata := i.csrWritedata
  csrByteenable := i.csrByteenable
  srcWriteCommandReady := PatternWriter.snkCommandReady s.writer.hw
  srcReadCommandReady := PatternReader.snkCommandReady s.reader.hw
  writeFifoIdle := i.writeFifoIdle
  readFifoIdle := i.readFifoIdle

def writerInputs : PatternWriter.Inputs b where
  masterWaitrequest := i.writeWaitrequest
  snkData := i.snkData
  snkValid := i.snkValid
  snkCommandData :=
    RamTestController.srcWriteCommandData s.controller.hw (controllerInputs s i)
  snkCommandValid := RamTestController.srcWriteCommandValid s.controller.hw
  fifoIdle := i.writerFifoIdle

def readerInputs : PatternReader.Inputs b where
  masterWaitrequest := i.readWaitrequest
  masterReaddata := i.readdata
  masterReaddatavalid := i.readdatavalid
  srcReady := i.srcReady
  snkCommandData :=
    RamTestController.srcReadCommandData s.controller.hw (controllerInputs s i)
  snkCommandValid := RamTestController.srcReadCommandValid s.controller.hw
  fifoIdle := i.readerFifoIdle

/-- The cycle sets the start bit. -/
def begins : Bool := RamTestController.begins s.controller.hw (controllerInputs s i)

/-- The memory port accepts a word. -/
def writes : Bool := PatternWriter.transferComplete s.writer.hw (writerInputs s i)

/-- The memory port accepts a read burst. -/
def reads : Bool := PatternReader.transferComplete s.reader.hw (readerInputs s i)

/-- The writer accepts a command. -/
def loadsWrite : Bool := PatternWriter.loadCommand s.writer.hw (writerInputs s i)

/-- The reader accepts a command. -/
def loadsRead : Bool := PatternReader.loadCommand s.reader.hw (readerInputs s i)

def step : State pw pr where
  controller := RamTestController.controller.step s.controller (controllerInputs s i)
  writer := (PatternWriter.writer pw).step s.writer (writerInputs s i)
  reader := (PatternReader.reader pr).step s.reader (readerInputs s i)
  written :=
    if begins s i then []
    else (if writes s i then addLast 1 s.written else s.written) ++
      if loadsWrite s i then [0] else []
  posted :=
    if begins s i then []
    else (if reads s i then addLast s.reader.hw.burstCountD1.toNat s.posted else s.posted) ++
      if loadsRead s i then [0] else []

/-- The composition between software, the streams, and the memory ports. -/
def tester (pw pr : MasterParams b) : Circuit (State pw pr) (Inputs b) where
  init s := RamTestController.controller.init s.controller ∧ s.writer = .reset ∧
    s.reader = .reset ∧ s.written = [] ∧ s.posted = []
  admits s i := RamTestController.controller.admits s.controller (controllerInputs s i)
  step := step

/-- Software starts the test with concurrent accesses disabled. -/
def Sequential : Prop :=
  begins s i = true →
    (RamTestController.step s.controller.hw (controllerInputs s i)).concurrentAccessEnable = false

/-- Software starts the test with concurrent accesses enabled. -/
def Concurrent : Prop :=
  begins s i = true →
    (RamTestController.step s.controller.hw (controllerInputs s i)).concurrentAccessEnable = true

/-- Software starts the test with a transfer whose blocks all fit the master's length counter. -/
def BlocksFit (p : MasterParams b) : Prop :=
  begins s i = true → ∀ k < (RamTestController.csrTransfer s.controller.hw).blockCount,
    Fits p ((RamTestController.csrTransfer s.controller.hw).block k).writeCommand

/-- Software starts the test with a transfer whose blocks all have a word. -/
def BlocksNonempty : Prop :=
  begins s i = true → ∀ k < (RamTestController.csrTransfer s.controller.hw).blockCount,
    0 < words b ((RamTestController.csrTransfer s.controller.hw).block k).writeCommand

/-- The memory returns a word only for a read that it has accepted in an earlier cycle. -/
def ReturnsPosted : Prop := i.readdatavalid = true → 0 < s.reader.ledger.outstanding

variable {s i}

/-- A master accepts a command exactly when the controller takes it from the command FIFO. -/
theorem loadsWrite_eq :
    loadsWrite s i = RamTestController.writeFifoPop s.controller.hw (controllerInputs s i) := rfl

theorem loadsRead_eq :
    loadsRead s i = RamTestController.readFifoPop s.controller.hw (controllerInputs s i) := rfl

theorem controlled (h : (tester pw pr).Reachable s) :
    RamTestController.Controlled s.controller :=
  RamTestController.controlled <| h.map (D := RamTestController.controller)
    (f := State.controller) (g := controllerInputs)
    (fun s (hs : (tester pw pr).init s) => hs.1) (fun _ _ _ ha => ha) fun _ _ _ _ => rfl

section Environment

variable {ok : State pw pr → Inputs b → Prop}

/-- What holds of the registers and the trace when the start bit is set, and depends only on what a
run does not change, holds throughout the run. -/
theorem start_invariant {P : RamTestController.Monitored → Prop}
    (hBegin : ∀ s i, (tester pw pr).Reachable s → begins s i = true → ok s i →
      P (RamTestController.controller.step s.controller (controllerInputs s i)))
    (hNext : ∀ (s : State pw pr) i w r,
      RamTestController.Conducting s.controller.hw s.controller.trace w r → P s.controller →
      P (RamTestController.controller.step s.controller (controllerInputs s i)))
    (h : ((tester pw pr).restrict ok).Reachable s) :
    s.controller.hw.start = true → P s.controller := by
  refine h.invariant (I := fun s => s.controller.hw.start = true → P s.controller) ?_ ?_
  · rintro s ⟨⟨hq, -⟩, -⟩ hs
    rw [hq.start] at hs
    contradiction
  · rintro s i hr ih ⟨-, hok⟩ hs
    obtain ⟨q, hb⟩ | ⟨w, r, hc, -⟩ := (controlled hr.of_restrict).start_step hs
    · exact hBegin s i hr.of_restrict hb hok
    · exact hNext s i w r hc (ih hc.start)

theorem sequential_mode (hok : ∀ s i, ok s i → Sequential s i)
    (h : ((tester pw pr).restrict ok).Reachable s) (hs : s.controller.hw.start = true) :
    s.controller.hw.concurrentAccessEnable = false := by
  refine start_invariant (P := fun c => c.hw.concurrentAccessEnable = false) ?_ ?_ h hs
  · intro s i _ hb hi
    exact hok s i hi hb
  · intro s i w r hc hmode
    exact hc.concurrentAccessEnable_step.trans hmode

theorem blocks_fit {p : MasterParams b} (hok : ∀ s i, ok s i → BlocksFit s i p)
    (h : ((tester pw pr).restrict ok).Reachable s) (hs : s.controller.hw.start = true) :
    ∀ k < s.controller.trace.transfer.blockCount,
      Fits p (s.controller.trace.transfer.block k).writeCommand := by
  refine start_invariant (P := fun c => ∀ k < c.trace.transfer.blockCount,
    Fits p (c.trace.transfer.block k).writeCommand) ?_ ?_ h hs
  · intro s i _ hb hi
    have htransfer : (s.controller.trace.next s.controller.hw (controllerInputs s i)).transfer =
        RamTestController.csrTransfer s.controller.hw := by
      simp [RamTestController.Trace.next_eq, show RamTestController.begins _ _ = true from hb]
    show ∀ k < (s.controller.trace.next _ _).transfer.blockCount,
      Fits p ((s.controller.trace.next _ _).transfer.block k).writeCommand
    rw [htransfer]
    exact hok s i hi hb
  · intro s i w r hc hfits
    show ∀ k < (s.controller.trace.next _ _).transfer.blockCount,
      Fits p ((s.controller.trace.next _ _).transfer.block k).writeCommand
    rw [hc.next_trace.1]
    exact hfits

/-- A command that the writer accepts is the next block of the transfer. -/
theorem writeCommand_eq (h : (tester pw pr).Reachable s) (hl : loadsWrite s i = true) :
    s.controller.hw.start = true ∧
      s.controller.trace.writes.length < s.controller.trace.transfer.blockCount ∧
      (writerInputs s i).snkCommandData =
        (s.controller.trace.transfer.block s.controller.trace.writes.length).writeCommand := by
  obtain ⟨q, -⟩ | ⟨w, r, hc⟩ := controlled h
  · rw [loadsWrite_eq, q.writeFifoPop] at hl
    contradiction
  · have hne := (hc.writeFifoPop (i := controllerInputs s i) hl).1
    have hw : s.controller.trace.writes.length = w := by rw [hc.writes]; simp
    rw [hw]
    refine ⟨hc.start, hc.writeSide.lt hne, ?_⟩
    exact congrArg Block.writeCommand (hc.srcWriteCommandData_eq hne)

theorem readCommand_eq (h : (tester pw pr).Reachable s) (hl : loadsRead s i = true) :
    s.controller.hw.start = true ∧
      s.controller.trace.reads.length < s.controller.trace.writes.length ∧
      s.controller.trace.writes.length ≤ s.controller.trace.transfer.blockCount ∧
      (readerInputs s i).snkCommandData =
        (s.controller.trace.transfer.block s.controller.trace.reads.length).readCommand := by
  obtain ⟨q, -⟩ | ⟨w, r, hc⟩ := controlled h
  · rw [loadsRead_eq, q.readFifoPop] at hl
    contradiction
  · obtain ⟨hne, hdue⟩ := hc.readFifoPop (i := controllerInputs s i) hl
    have hr : s.controller.trace.reads.length = r := by rw [hc.reads]; simp
    have hw : s.controller.trace.writes.length = w := by rw [hc.writes]; simp
    have := hc.readSide.lt hne
    have := hc.trail_pos
    rw [hr, hw]
    refine ⟨hc.start, by omega, hc.writeSide.le, ?_⟩
    exact congrArg Block.readCommand (hc.srcReadCommandData_eq hne)

theorem counting (hok : ∀ s i, ok s i → BlocksFit s i pw)
    (h : ((tester pw pr).restrict ok).Reachable s) :
    PatternWriter.Counting s.writer.hw s.writer.ledger := by
  refine PatternWriter.counting <| h.map (C := (tester pw pr).restrict ok)
    (D := PatternWriter.writer pw) (f := State.writer) (g := writerInputs)
    (fun s (hs : (tester pw pr).init s) => hs.2.1) ?_ fun _ _ _ _ => rfl
  intro s i hr _ hl
  obtain ⟨hs, hlt, hcommand⟩ := writeCommand_eq hr.of_restrict hl
  rw [hcommand]
  exact blocks_fit hok hr hs _ hlt

theorem posting (hok : ∀ s i, ok s i → BlocksFit s i pr)
    (h : ((tester pw pr).restrict ok).Reachable s) :
    PatternReader.Posting s.reader.hw s.reader.ledger := by
  refine PatternReader.posting <| h.map (C := (tester pw pr).restrict ok)
    (D := PatternReader.poster pr) (f := State.reader) (g := readerInputs)
    (fun s (hs : (tester pw pr).init s) => hs.2.2.1) ?_ fun _ _ _ _ => rfl
  intro s i hr _ hl
  obtain ⟨hs, hlt, hle, hcommand⟩ := readCommand_eq hr.of_restrict hl
  rw [hcommand]
  exact blocks_fit hok hr hs _ (by omega)

theorem flow (hok : ∀ s i, ok s i → ReturnsPosted s i)
    (h : ((tester pw pr).restrict ok).Reachable s) :
    PatternReader.Flow s.reader.hw s.reader.ledger := by
  refine PatternReader.flow <| h.map (C := (tester pw pr).restrict ok)
    (D := PatternReader.reader pr) (f := State.reader) (g := readerInputs)
    (fun s (hs : (tester pw pr).init s) => hs.2.2.1) ?_ fun _ _ _ _ => rfl
  intro s i _ ha
  exact hok s i ha.2

/-- The commands and the words of a cycle that begins a run: there are none. -/
theorem logs_begin (hb : begins s i = true) :
    (step s i).controller.trace.writes = [] ∧ (step s i).controller.trace.reads = [] ∧
      (step s i).written = [] ∧ (step s i).posted = [] := by
  have hb' : RamTestController.begins s.controller.hw (controllerInputs s i) = true := hb
  simp [step, hb, RamTestController.controller, RamTestController.Trace.next_eq, hb']

theorem write_logs_step (hb : begins s i = false) :
    (step s i).controller.trace.writes = s.controller.trace.writes ++
        (if loadsWrite s i then [(writerInputs s i).snkCommandData] else []) ∧
      (step s i).written = (if writes s i then addLast 1 s.written else s.written) ++
        if loadsWrite s i then [0] else [] := by
  have hb' : RamTestController.begins s.controller.hw (controllerInputs s i) = false := hb
  simp only [step, hb, RamTestController.controller, RamTestController.Trace.next_eq, hb',
    loadsWrite_eq]
  exact ⟨rfl, rfl⟩

theorem read_logs_step (hb : begins s i = false) :
    (step s i).controller.trace.reads = s.controller.trace.reads ++
        (if loadsRead s i then [(readerInputs s i).snkCommandData] else []) ∧
      (step s i).posted =
        (if reads s i then addLast s.reader.hw.burstCountD1.toNat s.posted else s.posted) ++
          if loadsRead s i then [0] else [] := by
  have hb' : RamTestController.begins s.controller.hw (controllerInputs s i) = false := hb
  simp only [step, hb, RamTestController.controller, RamTestController.Trace.next_eq, hb',
    loadsRead_eq]
  exact ⟨rfl, rfl⟩

theorem writer_ledger_step :
    (step s i).writer.ledger.command =
        (if loadsWrite s i then (writerInputs s i).snkCommandData else s.writer.ledger.command) ∧
      (step s i).writer.ledger.accepted =
        if loadsWrite s i then 0
        else if writes s i then s.writer.ledger.accepted + 1
        else s.writer.ledger.accepted := ⟨rfl, rfl⟩

theorem reader_ledger_step :
    (step s i).reader.ledger.command =
        (if loadsRead s i then (readerInputs s i).snkCommandData else s.reader.ledger.command) ∧
      (step s i).reader.ledger.posted =
        if loadsRead s i then 0
        else if reads s i then s.reader.ledger.posted + s.reader.hw.burstCountD1.toNat
        else s.reader.ledger.posted := ⟨rfl, rfl⟩

theorem idle_of_loadsWrite (hl : loadsWrite s i = true) : s.writer.hw.masterActive = false := by
  simp_all [loadsWrite, PatternWriter.loadCommand, PatternWriter.snkCommandReady]

theorem idle_of_readerReady (hr : PatternReader.snkCommandReady s.reader.hw = true) :
    s.reader.hw.masterActive = false := by
  cases ha : s.reader.hw.masterActive <;> simp [PatternReader.snkCommandReady, ha] at hr ⊢

theorem idle_of_loadsRead (hl : loadsRead s i = true) : s.reader.hw.masterActive = false := by
  apply idle_of_readerReady
  simp only [loadsRead, PatternReader.loadCommand, Bool.and_eq_true] at hl
  exact hl.2

/-- The words accepted of each block: all of them, but for the block that is being written. -/
theorem written_log (hok : ∀ s i, ok s i → BlocksFit s i pw)
    (h : ((tester pw pr).restrict ok).Reachable s) :
    Logged (fun c n => n = words b c) s.controller.trace.writes s.written
      s.writer.ledger.command s.writer.ledger.accepted := by
  refine h.invariant (I := fun s => Logged _ s.controller.trace.writes s.written
    s.writer.ledger.command s.writer.ledger.accepted) ?_ ?_
  · rintro s ⟨⟨-, he⟩, -, -, hw, -⟩
    exact .inl ⟨he.writes, hw⟩
  · rintro s i hr hlog -
    have hc := counting hok hr
    show Logged _ (step s i).controller.trace.writes (step s i).written
      (step s i).writer.ledger.command (step s i).writer.ledger.accepted
    cases hb : begins s i with
    | true =>
      obtain ⟨hcommands, -, hwords, -⟩ := logs_begin hb
      exact .inl ⟨hcommands, hwords⟩
    | false =>
      rw [(write_logs_step hb).1, (write_logs_step hb).2, writer_ledger_step.1,
        writer_ledger_step.2]
      cases hl : loadsWrite s i with
      | true =>
        have hidle := idle_of_loadsWrite hl
        have htc : writes s i = false := by
          simp [writes, PatternWriter.transferComplete, hc.write_eq_false hidle]
        simpa [htc] using hlog.load (hc.accepted_eq hidle) (writerInputs s i).snkCommandData
      | false =>
        cases htc : writes s i with
        | true => simpa using hlog.add 1
        | false => simpa using hlog

theorem masterActive_of_reads (h : (tester pw pr).Reachable s) (hr : reads s i = true) :
    s.reader.hw.masterActive = true := by
  have hread : s.reader.hw.read = true := by
    simp_all [reads, PatternReader.transferComplete]
  refine h.invariant
    (I := fun s => s.reader.hw.read = true → s.reader.hw.masterActive = true) ?_ ?_ hread
  · rintro s ⟨-, -, hreset, -⟩ hread
    rw [hreset] at hread
    contradiction
  · intro s i _ hactive _
    exact PatternReader.step_read hactive

theorem start_next {w r : ℕ}
    (hc : RamTestController.Conducting s.controller.hw s.controller.trace w r)
    (hclear : RamTestController.clearStart s.controller.hw (controllerInputs s i) = false) :
    (step s i).controller.hw.start = true := (hc.next hclear).start

/-- While the reader is active, the controller is running and has issued a read command. -/
theorem running_of_active (h : (tester pw pr).Reachable s)
    (ha : s.reader.hw.masterActive = true) :
    s.controller.hw.start = true ∧ 0 < s.controller.trace.reads.length := by
  refine h.invariant (I := fun s => s.reader.hw.masterActive = true →
    s.controller.hw.start = true ∧ 0 < s.controller.trace.reads.length) ?_ ?_ ha
  · rintro s ⟨-, -, hreset, -⟩ ha
    rw [hreset] at ha
    contradiction
  · intro s i hr ih _ ha
    -- Either the reader accepts a command in this cycle, or it was active before.
    have hactive : loadsRead s i = true ∨ s.reader.hw.masterActive = true := by
      by_contra hnone
      simp only [not_or, Bool.not_eq_true] at hnone
      have := PatternReader.step_masterActive hnone.2 hnone.1
      rw [show ((tester pw pr).step s i).reader.hw.masterActive = _ from this] at ha
      contradiction
    have hstart : s.controller.hw.start = true :=
      hactive.elim (fun hl => (readCommand_eq hr hl).1) fun ha => (ih ha).1
    obtain ⟨w, r, hc⟩ := (controlled hr).conducting hstart
    have hclear : RamTestController.clearStart s.controller.hw (controllerInputs s i) = false := by
      by_contra hclear
      rcases hactive with hl | ha
      · rw [loadsRead_eq, (hc.finish_pops (by simpa using hclear)).2] at hl
        contradiction
      · simp only [RamTestController.clearStart, Bool.not_eq_false, Bool.and_eq_true] at hclear
        rw [idle_of_readerReady hclear.2] at ha
        contradiction
    have hreads := (hc.next (i := controllerInputs s i) hclear).reads
    refine ⟨start_next hc hclear, ?_⟩
    show 0 < (s.controller.trace.next _ _).reads.length
    rw [hreads, List.length_map, List.length_range, ← loadsRead_eq]
    rcases hactive with hl | ha
    · simp [hl]
    · have := (ih ha).2
      rw [hc.reads, List.length_map, List.length_range] at this
      omega

theorem begins_eq_false (hs : s.controller.hw.start = true) : begins s i = false := by
  cases hw : i.csrWrite <;>
    simp [begins, RamTestController.begins, RamTestController.loadStart, RamTestController.load,
      RamTestController.csrWaitrequest, controllerInputs, hs, hw]

/-- The words posted of each block, of which an idle reader has posted what `complete` asks. -/
theorem posted_logged {complete : ReadCommand → ℕ → Prop}
    (hdone : ∀ s : State pw pr, ((tester pw pr).restrict ok).Reachable s →
      s.reader.hw.masterActive = false → complete s.reader.ledger.command s.reader.ledger.posted)
    (h : ((tester pw pr).restrict ok).Reachable s) :
    Logged complete s.controller.trace.reads s.posted s.reader.ledger.command
      s.reader.ledger.posted := by
  refine h.invariant (I := fun s => Logged complete s.controller.trace.reads s.posted
    s.reader.ledger.command s.reader.ledger.posted) ?_ ?_
  · rintro s ⟨⟨-, he⟩, -, -, -, hp⟩
    exact .inl ⟨he.reads, hp⟩
  · rintro s i hr hlog -
    show Logged _ (step s i).controller.trace.reads (step s i).posted
      (step s i).reader.ledger.command (step s i).reader.ledger.posted
    cases hb : begins s i with
    | true =>
      obtain ⟨-, hcommands, -, hwords⟩ := logs_begin hb
      exact .inl ⟨hcommands, hwords⟩
    | false =>
      rw [(read_logs_step hb).1, (read_logs_step hb).2, reader_ledger_step.1,
        reader_ledger_step.2]
      cases hl : loadsRead s i with
      | true =>
        have hidle := idle_of_loadsRead hl
        have htc : reads s i = false := by
          by_contra hreads
          rw [masterActive_of_reads hr.of_restrict (by simpa using hreads)] at hidle
          contradiction
        simpa [htc] using hlog.load (hdone s hr hidle) (readerInputs s i).snkCommandData
      | false =>
        cases htc : reads s i with
        | true => simpa using hlog.add _
        | false => simpa using hlog

/-- At least all words are posted of each block, but for the block that is being read. -/
theorem posted_log (hok : ∀ s i, ok s i → BlocksFit s i pr)
    (h : ((tester pw pr).restrict ok).Reachable s) :
    Logged (fun c n => words b c.toCommand ≤ n) s.controller.trace.reads s.posted
      s.reader.ledger.command s.reader.ledger.posted :=
  posted_logged (fun _ hs => (posting hok hs).done) h

/-- In sequential mode a command is issued, and offered, only while the other master is idle; and
after the last read command the writer stays idle. -/
structure Exclusive (s : State pw pr) : Prop where
  masters : s.writer.hw.masterActive = false ∨ s.reader.hw.masterActive = false
  writeD1 : s.controller.hw.state = 0b100#3 → s.controller.hw.issueWriteCommandD1 = true →
    s.reader.hw.masterActive = false
  readD1 : s.controller.hw.state = 0b100#3 → s.controller.hw.issueReadCommandD1 = true →
    s.writer.hw.masterActive = false
  writeD2 : s.controller.hw.issueWriteCommandD2 = true → s.reader.hw.masterActive = false
  readD2 : s.controller.hw.issueReadCommandD2 = true → s.writer.hw.masterActive = false
  rest : s.controller.hw.start = false →
    s.writer.hw.masterActive = false ∧ s.reader.hw.masterActive = false
  last : s.controller.hw.lastReadComplete = true → s.writer.hw.masterActive = false

theorem Exclusive.next_rest (x : Exclusive s) (q : RamTestController.Quiescent s.controller.hw) :
    Exclusive (step s i) := by
  obtain ⟨hw, hr⟩ := x.rest q.start
  have hw' : (step s i).writer.hw.masterActive = false :=
    PatternWriter.step_masterActive hw (q.writeFifoPop (i := controllerInputs s i))
  have hr' : (step s i).reader.hw.masterActive = false :=
    PatternReader.step_masterActive hr (q.readFifoPop (i := controllerInputs s i))
  exact ⟨.inl hw', fun _ _ => hr', fun _ _ => hw', fun _ => hr', fun _ => hw',
    fun _ => ⟨hw', hr'⟩, fun _ => hw'⟩

variable {w r : ℕ}

/-- A cycle of a run in which no command is accepted. -/
theorem Exclusive.next_still (x : Exclusive s)
    (hc : RamTestController.Conducting s.controller.hw s.controller.trace w r)
    (hmode : s.controller.hw.concurrentAccessEnable = false)
    (hclear : RamTestController.clearStart s.controller.hw (controllerInputs s i) = false)
    (hlw : loadsWrite s i = false) (hlr : loadsRead s i = false) : Exclusive (step s i) := by
  have hwriter (ha : s.writer.hw.masterActive = false) :
      (step s i).writer.hw.masterActive = false := PatternWriter.step_masterActive ha hlw
  have hreader (ha : s.reader.hw.masterActive = false) :
      (step s i).reader.hw.masterActive = false := PatternReader.step_masterActive ha hlr
  refine ⟨x.masters.imp hwriter hreader, ?_, ?_, ?_, ?_, ?_, ?_⟩
  · intro _ hd1
    apply hreader
    apply idle_of_readerReady
    have hd1' : RamTestController.issueWriteCommand s.controller.hw (controllerInputs s i) = true :=
      hd1
    simp only [RamTestController.issueWriteCommand, hmode, Bool.and_eq_true,
      Bool.or_eq_true] at hd1'
    tauto
  · intro _ hd1
    apply hwriter
    have hd1' : RamTestController.issueReadCommand s.controller.hw (controllerInputs s i) = true :=
      hd1
    have hready : PatternWriter.snkCommandReady s.writer.hw = true := by
      simp only [RamTestController.issueReadCommand, hmode, Bool.and_eq_true,
        Bool.or_eq_true] at hd1'
      tauto
    simpa [PatternWriter.snkCommandReady] using hready
  · intro hd2
    apply hreader
    obtain hd2 | ⟨hs, hd1⟩ := hc.issueWriteCommandD2_step (i := controllerInputs s i) hd2
    · exact x.writeD2 hd2
    · exact x.writeD1 hs hd1
  · intro hd2
    apply hwriter
    obtain hd2 | ⟨hs, hd1⟩ := hc.issueReadCommandD2_step (i := controllerInputs s i) hd2
    · exact x.readD2 hd2
    · exact x.readD1 hs hd1
  · intro hs
    rw [start_next hc hclear] at hs
    contradiction
  · intro hlast
    apply hwriter
    apply x.last
    have := hc.lastRead_step (i := controllerInputs s i) hclear
    rw [show (step s i).controller.hw.lastReadComplete = _ from this, ← loadsRead_eq, hlr] at hlast
    rw [hc.lastRead]
    exact hlast

/-- After a command has been accepted the ring starts anew, and no command is offered. -/
theorem popped_step (hc : RamTestController.Conducting s.controller.hw s.controller.trace w r)
    (hclear : RamTestController.clearStart s.controller.hw (controllerInputs s i) = false)
    (hl : loadsWrite s i = true ∨ loadsRead s i = true) :
    (step s i).controller.hw.state = 0b001#3 ∧
      (step s i).controller.hw.issueWriteCommandD2 = false ∧
      (step s i).controller.hw.issueReadCommandD2 = false := by
  have hpop : RamTestController.initializing s.controller.hw (controllerInputs s i) = true := by
    rw [hc.initializing_eq, ← loadsWrite_eq, ← loadsRead_eq]
    simpa using hl
  exact hc.popped_step hclear hpop

theorem Exclusive.next_write (x : Exclusive s)
    (hc : RamTestController.Conducting s.controller.hw s.controller.trace w r)
    (hclear : RamTestController.clearStart s.controller.hw (controllerInputs s i) = false)
    (hlw : loadsWrite s i = true) (hlr : loadsRead s i = false) : Exclusive (step s i) := by
  obtain ⟨hstate, hw2, hr2⟩ := popped_step hc hclear (.inl hlw)
  have hreader : (step s i).reader.hw.masterActive = false := by
    apply PatternReader.step_masterActive _ hlr
    apply x.writeD2
    simp_all [loadsWrite_eq, RamTestController.writeFifoPop]
  refine ⟨.inr hreader, by simp [hstate], by simp [hstate], by simp [hw2], by simp [hr2], ?_, ?_⟩
  · intro hs
    rw [start_next hc hclear] at hs
    contradiction
  · intro hlast
    have hread := hc.lastRead_step (i := controllerInputs s i) hclear
    rw [show (step s i).controller.hw.lastReadComplete = _ from hread, ← loadsRead_eq, hlr] at hlast
    have := of_decide_eq_true hlast
    have := hc.read_le
    have := hc.writeSide.lt (hc.writeFifoPop (i := controllerInputs s i) hlw).1
    simp at *
    omega

theorem Exclusive.next_read (x : Exclusive s)
    (hc : RamTestController.Conducting s.controller.hw s.controller.trace w r)
    (hclear : RamTestController.clearStart s.controller.hw (controllerInputs s i) = false)
    (hlw : loadsWrite s i = false) (hlr : loadsRead s i = true) : Exclusive (step s i) := by
  obtain ⟨hstate, hw2, hr2⟩ := popped_step hc hclear (.inr hlr)
  have hwriter : (step s i).writer.hw.masterActive = false := by
    apply PatternWriter.step_masterActive _ hlw
    apply x.readD2
    simp_all [loadsRead_eq, RamTestController.readFifoPop]
  refine ⟨.inl hwriter, by simp [hstate], by simp [hstate], by simp [hw2], by simp [hr2], ?_,
    fun _ => hwriter⟩
  intro hs
  rw [start_next hc hclear] at hs
  contradiction

/-- The cycle that clears the start bit, with both masters idle. -/
theorem Exclusive.next_clear (x : Exclusive s)
    (hc : RamTestController.Conducting s.controller.hw s.controller.trace w r)
    (hclear : RamTestController.clearStart s.controller.hw (controllerInputs s i) = true) :
    Exclusive (step s i) := by
  obtain ⟨hlast, hready⟩ : s.controller.hw.lastReadComplete = true ∧
      PatternReader.snkCommandReady s.reader.hw = true := by
    simpa [RamTestController.clearStart, controllerInputs] using hclear
  obtain ⟨hlw, hlr⟩ := hc.finish_pops hclear
  have hwriter : (step s i).writer.hw.masterActive = false :=
    PatternWriter.step_masterActive (x.last hlast) hlw
  have hreader : (step s i).reader.hw.masterActive = false :=
    PatternReader.step_masterActive (idle_of_readerReady hready) hlr
  exact ⟨.inl hwriter, fun _ _ => hreader, fun _ _ => hwriter, fun _ => hreader,
    fun _ => hwriter, fun _ => ⟨hwriter, hreader⟩, fun _ => hwriter⟩

theorem exclusive (hok : ∀ s i, ok s i → Sequential s i)
    (h : ((tester pw pr).restrict ok).Reachable s) : Exclusive s := by
  refine h.invariant (I := Exclusive) ?_ ?_
  · rintro s ⟨⟨hq, -⟩, hw, hr, -⟩
    have hwriter : s.writer.hw.masterActive = false := by rw [hw]; rfl
    have hreader : s.reader.hw.masterActive = false := by rw [hr]; rfl
    exact ⟨.inl hwriter, fun _ _ => hreader, fun _ _ => hwriter, fun _ => hreader,
      fun _ => hwriter, fun _ => ⟨hwriter, hreader⟩, fun _ => hwriter⟩
  · rintro s i hr x -
    obtain ⟨q, -⟩ | ⟨w, r, hc⟩ := controlled hr.of_restrict
    · exact x.next_rest q
    · cases hclear : RamTestController.clearStart s.controller.hw (controllerInputs s i) with
      | true => exact x.next_clear hc hclear
      | false =>
        obtain ⟨hlw, hlr⟩ | ⟨hlw, hlr⟩ | ⟨hlw, hlr⟩ := hc.pops (i := controllerInputs s i)
        · exact x.next_still hc (sequential_mode hok hr hc.start) hclear hlw hlr
        · exact x.next_write hc hclear hlw hlr
        · exact x.next_read hc hclear hlw hlr

/-- With the writer idle, every word of every block handed to it has been accepted. -/
theorem written_of_idle (hok : ∀ s i, ok s i → BlocksFit s i pw)
    (h : ((tester pw pr).restrict ok).Reachable s) (hidle : s.writer.hw.masterActive = false) :
    s.written = s.controller.trace.writes.map (words b) := by
  have hall := (written_log hok h).all ((counting hok h).accepted_eq hidle)
  have hmap : List.Forall₂ Eq (s.controller.trace.writes.map (words b)) s.written :=
    List.forall₂_map_left_iff.mpr (hall.imp fun _ _ hn => hn.symm)
  rw [List.forall₂_eq_eq_eq] at hmap
  exact hmap.symm

/-- In sequential mode, with blocks that fit the writer's length counter, the masters are never
active at once; and when the reader accepts the command of a block, the memory port has accepted
every word of this block. -/
theorem sequential_access
    (h : ((tester pw pr).restrict fun s i => Sequential s i ∧ BlocksFit s i pw).Reachable s)
    (i : Inputs b) :
    ¬(s.writer.hw.masterActive = true ∧ s.reader.hw.masterActive = true) ∧
      (loadsRead s i = true →
        s.written[s.controller.trace.reads.length]? =
          some (words b (s.controller.trace.transfer.block
            s.controller.trace.reads.length).writeCommand)) := by
  have x := exclusive (fun _ _ hi => hi.1) h
  refine ⟨fun ⟨hw, hr⟩ => ?_, fun hl => ?_⟩
  · rcases x.masters with hm | hm
    · simp [hw] at hm
    · simp [hr] at hm
  · have hidle : s.writer.hw.masterActive = false := by
      apply x.readD2
      simp_all [loadsRead_eq, RamTestController.readFifoPop]
    obtain ⟨-, hlt, -⟩ := readCommand_eq h.of_restrict hl
    rw [written_of_idle (fun _ _ hi => hi.2) h hidle, (controlled h.of_restrict).writes_eq]
    simp [hlt]

end Environment

section Runs

instance (s : State pw pr) (i : Inputs b) : Decidable ((tester pw pr).admits s i) :=
  inferInstanceAs (Decidable (begins s i = true → _))

instance (s : State pw pr) (i : Inputs b) : Decidable (Sequential s i) :=
  inferInstanceAs (Decidable (_ → _))

instance (s : State pw pr) (i : Inputs b) : Decidable (Concurrent s i) :=
  inferInstanceAs (Decidable (_ → _))

instance (s : State pw pr) (i : Inputs b) (p : MasterParams b) : Decidable (BlocksFit s i p) :=
  inferInstanceAs (Decidable (_ → _))

instance (s : State pw pr) (i : Inputs b) : Decidable (BlocksNonempty s i) :=
  inferInstanceAs (Decidable (_ → _))

instance (s : State pw pr) (i : Inputs b) : Decidable (ReturnsPosted s i) :=
  inferInstanceAs (Decidable (_ → _))

instance {ok : State pw pr → Inputs b → Prop} [∀ s i, Decidable (ok s i)] (s : State pw pr)
    (i : Inputs b) : Decidable (((tester pw pr).restrict ok).admits s i) :=
  inferInstanceAs (Decidable ((tester pw pr).admits s i ∧ ok s i))

/-- The composition after a reset, with the default parameters of the controller. -/
def State.reset : State pw pr :=
  ⟨⟨RamTestController.reset 10#16 1024#24 1#8, .none⟩, .reset, .reset, [], []⟩

theorem reset_init : (tester pw pr).init .reset :=
  ⟨⟨RamTestController.reset_quiescent 10#16 1024#24 1#8, rfl, rfl, rfl⟩, rfl, rfl, rfl, rfl⟩

/-- A cycle without an access to the slave port, in which the stream to the writer shows a word
when `valid`, and the memory returns a word when `returned`. -/
def Inputs.cycle (valid returned : Bool) : Inputs 2 :=
  ⟨0#3, false, false, 0#32, 0#4, false, 5#32, valid, false, 5#32, returned, true,
    ⟨true, 0#24, 0#64⟩, ⟨true, 0#24, 0#64⟩, 0#32, 0#32⟩

/-- A write of `data` to the register at word address `a`. -/
def Inputs.csr (a : BitVec 3) (data : BitVec 32) : Inputs 2 :=
  { Inputs.cycle false false with
      csrAddress := a, csrWrite := true, csrWritedata := data, csrByteenable := 0xF#4 }

/-- Software starts a test of `length` bytes, in blocks of `blockSize` bytes with a trail of one
block. -/
def Inputs.software (length : BitVec 32) (blockSize : BitVec 24) (concurrent : Bool) :
    List (Inputs 2) :=
  [.csr 2#3 length, .csr 3#3 (1#8 ++ blockSize),
    .csr 4#3 (0#7 ++ 1#1 ++ 0#23 ++ BitVec.ofBool concurrent)]

theorem sequential_access_two_words :
    let inputs := Inputs.software 8#32 8#24 false ++ List.replicate 13 (.cycle true false)
    let s := run (tester .shipped .shipped).step .reset inputs
    loadsRead s (.cycle true false) = true ∧ s.controller.trace.reads.length = 0 ∧
      s.written[s.controller.trace.reads.length]? =
        some (words 2 (s.controller.trace.transfer.block
          s.controller.trace.reads.length).writeCommand) := by
  refine ⟨by decide +kernel, by decide +kernel, ?_⟩
  have hrun := (Circuit.Reachable.init
    (C := (tester .shipped .shipped).restrict fun s i => Sequential s i ∧ BlocksFit s i .shipped)
      reset_init).run
    (Inputs.software 8#32 8#24 false ++ List.replicate 13 (.cycle true false)) (by decide +kernel)
  exact (sequential_access hrun (.cycle true false)).2 (by decide +kernel)

/-- A block of `2 ^ 21` bytes and one word more overflows the length counters of the masters that
`memory_tester_system.qsys` configures: the writer is done after one word of it, and the read
command follows. -/
theorem long_block_breaks_order :
    let inputs := Inputs.software 0x200004#32 0x200004#24 false ++
      List.replicate 13 (.cycle true false)
    let s := run (tester .shipped .shipped).step .reset inputs
    ((tester .shipped .shipped).restrict fun s i => Sequential s i ∧ BlocksNonempty s i).Reachable
        s ∧
      loadsRead s (.cycle true false) = true ∧ s.controller.trace.reads.length = 0 ∧
        s.written = [1] ∧ words 2 (s.controller.trace.transfer.block 0).writeCommand = 0x80001 := by
  refine ⟨?_, by decide +kernel, by decide +kernel, by decide +kernel, by decide +kernel⟩
  exact (Circuit.Reachable.init (C := (tester .shipped .shipped).restrict fun s i =>
    Sequential s i ∧ BlocksNonempty s i) reset_init).run _ (by decide +kernel)

end Runs

end AvalonCores.MemoryTester.Tester
