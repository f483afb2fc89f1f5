import Mathlib.Tactic
import AvalonCores.MemoryTester.PrbsPatternGenerator
import AvalonCores.MemoryTester.PrbsPatternChecker
import AvalonCores.MemoryTester.SingleTest
import AvalonCores.MemoryTester.Memory

/-! The memory tester of `memory_tester_system.qsys` with the pseudo-random pattern: the generator,
the controller with the two masters, the memory, and the checker.  The multiplexer, the
demultiplexer and the timing adapters are two channels that keep the words in order. -/

namespace AvalonCores.MemoryTester.MemoryTesterSystem

open AvalonCores.Sync Prbs

variable {b : ℕ} {pw pr : MasterParams b}

/-- The cores, the memory, the words in the two channels, and the words that the checker has
accepted. -/
structure State (pw pr : MasterParams b) where
  tester : Tester.State pw pr
  generator : PrbsPatternGenerator.State (8 * 2 ^ b)
  checker : PrbsPatternChecker.State (8 * 2 ^ b)
  memory : Memory b
  writeChannel : List (Word b)
  readChannel : List (Word b)
  accepted : List (Word b)

/-- The inputs of a cycle: the slave ports, the waitrequest of the two memory ports, whether the
memory returns a word and which, whether a channel takes in a word and offers one, and what the
FIFOs and channels show while they are empty. -/
structure Inputs (b : ℕ) where
  controllerCsr : CsrAccess
  generatorCsr : CsrAccess
  checkerCsr : CsrAccess
  writeWaitrequest : Bool
  readWaitrequest : Bool
  returns : Bool
  readdata : Word b
  writeChannelReady : Bool
  writeChannelOffers : Bool
  readChannelReady : Bool
  readChannelOffers : Bool
  writeCommandIdle : Block
  readCommandIdle : Block
  writerFifoIdle : Word b
  readerFifoIdle : Word b
  writeChannelIdle : Word b
  readChannelIdle : Word b

variable (s : State pw pr) (i : Inputs b)

/-- The memory returns a word only while one that has been read is pending. -/
def readdatavalid : Bool := i.returns && !s.memory.pending.isEmpty

def testerInputs : Tester.Inputs b where
  csrAddress := i.controllerCsr.address
  csrRead := i.controllerCsr.read
  csrWrite := i.controllerCsr.write
  csrWritedata := i.controllerCsr.writedata
  csrByteenable := i.controllerCsr.byteenable
  writeWaitrequest := i.writeWaitrequest
  snkData := ShowAhead.front s.writeChannel i.writeChannelIdle
  snkValid := i.writeChannelOffers && !s.writeChannel.isEmpty
  readWaitrequest := i.readWaitrequest
  readdata := i.readdata
  readdatavalid := readdatavalid s i
  srcReady := i.readChannelReady
  writeFifoIdle := i.writeCommandIdle
  readFifoIdle := i.readCommandIdle
  writerFifoIdle := i.writerFifoIdle
  readerFifoIdle := i.readerFifoIdle

def writerInputs : PatternWriter.Inputs b := Tester.writerInputs s.tester (testerInputs s i)

def readerInputs : PatternReader.Inputs b := Tester.readerInputs s.tester (testerInputs s i)

def generatorInputs : PrbsPatternGenerator.Inputs := ⟨i.generatorCsr, i.writeChannelReady⟩

def checkerInputs : PrbsPatternChecker.Inputs (8 * 2 ^ b) where
  csr := i.checkerCsr
  snkData := ShowAhead.front s.readChannel i.readChannelIdle
  snkValid := i.readChannelOffers && !s.readChannel.isEmpty

def memoryInputs : Memory.Inputs b where
  write := Tester.writes s.tester (testerInputs s i)
  writeAddress := s.tester.writer.hw.transferAddress.toNat
  writeBurstcount := s.tester.writer.hw.burstCountD1.toNat
  writedata := PatternWriter.masterWritedata s.tester.writer.hw (writerInputs s i)
  read := Tester.reads s.tester (testerInputs s i)
  readAddress := s.tester.reader.hw.transferAddress.toNat
  readBurstcount := s.tester.reader.hw.burstCountD1.toNat
  readdatavalid := readdatavalid s i
  readdata := i.readdata

def step : State pw pr where
  tester := (Tester.tester pw pr).step s.tester (testerInputs s i)
  generator := PrbsPatternGenerator.step s.generator (generatorInputs i)
  checker := PrbsPatternChecker.step s.checker (checkerInputs s i)
  memory := Memory.step s.memory (memoryInputs s i)
  writeChannel :=
    ShowAhead.next s.writeChannel (PatternWriter.accepts s.tester.writer.hw (writerInputs s i))
      (PrbsPatternGenerator.srcValid s.generator) (PrbsPatternGenerator.srcData s.generator)
  readChannel :=
    ShowAhead.next s.readChannel (PrbsPatternChecker.accepts s.checker (checkerInputs s i))
      (PatternReader.delivers s.tester.reader.hw (readerInputs s i))
      (PatternReader.srcData s.tester.reader.hw (readerInputs s i))
  accepted := PrbsPatternChecker.nextAccepted s.checker (checkerInputs s i) s.accepted

/-- The generator and the checker have been started in finite mode with the payload length
`length`, the polynomial `polynomial` and the pipeline `x`, and all else is as after a reset.  The
memory may hold any words. -/
structure Started (length : BitVec 32) (polynomial : BitVec 128) (x : Word b)
    (s : State pw pr) : Prop where
  tester : (Tester.tester pw pr).init s.tester
  generator : PrbsPatternGenerator.Started length polynomial x s.generator
  checker : PrbsPatternChecker.Started length polynomial x s.checker
  writeBurst : s.memory.left = 0
  pending : s.memory.pending = []
  faulty : s.memory.faulty = false
  writeChannel : s.writeChannel = []
  readChannel : s.readChannel = []
  accepted : s.accepted = []

/-- Software starts a test of `t` in sequential mode, once, with a trail of at least a block, and
writes no register of the generator or the checker. -/
structure Software (t : Transfer) (s : State pw pr) (i : Inputs b) : Prop where
  trail : (Tester.tester pw pr).admits s.tester (testerInputs s i)
  sequential : Tester.Sequential s.tester (testerInputs s i)
  transfer : Tester.begins s.tester (testerInputs s i) = true →
    RamTestController.csrTransfer s.tester.controller.hw = t
  once : Tester.begins s.tester (testerInputs s i) = true →
    s.tester.controller.trace.writes = []
  generatorCsr : i.generatorCsr.write = false
  checkerCsr : i.checkerCsr.write = false

/-- The generator and the controller have stopped, no word is in a channel or a FIFO, and no
comparison is under way in the checker. -/
structure Drained (s : State pw pr) : Prop where
  generator : s.generator.start = false
  emitted : s.generator.pipelineEnableD1 = false
  writeChannel : s.writeChannel = []
  writerFifo : s.tester.writer.hw.fifo = []
  controller : s.tester.controller.hw.start = false
  readerFifo : s.tester.reader.hw.fifo = []
  readChannel : s.readChannel = []
  checkerD1 : s.checker.pipelineEnableD1 = false
  checkerD2 : s.checker.pipelineEnableD2 = false

/-- The system during a test of `t`. -/
def system (pw pr : MasterParams b) (t : Transfer) (polynomial : BitVec 128) (x : Word b) :
    Circuit (State pw pr) (Inputs b) where
  init := Started t.transferLength polynomial x
  admits := Software t
  step := step

variable {s : State pw pr} {i : Inputs b} {t : Transfer} {polynomial : BitVec 128} {x : Word b}

theorem pending_ne_nil (hv : readdatavalid s i = true) : s.memory.pending ≠ [] := by
  simp only [readdatavalid, Bool.and_eq_true, Bool.not_eq_true', List.isEmpty_eq_false_iff] at hv
  exact hv.2

theorem pending_step : (step s i).memory.pending =
    (if readdatavalid s i then s.memory.pending.tail else s.memory.pending) ++
      if Tester.reads s.tester (testerInputs s i) then
        Memory.burstAddresses b s.tester.reader.hw.transferAddress.toNat
          s.tester.reader.hw.burstCountD1.toNat
      else [] := rfl

theorem outstanding_step : (step s i).tester.reader.ledger.outstanding =
    (if Tester.reads s.tester (testerInputs s i) then
        s.tester.reader.ledger.outstanding + s.tester.reader.hw.burstCountD1.toNat
      else s.tester.reader.ledger.outstanding) - (readdatavalid s i).toNat := rfl

theorem returned_step : (step s i).tester.reader.ledger.returned =
    s.tester.reader.ledger.returned ++ if readdatavalid s i then [i.readdata] else [] := rfl

theorem faulty_step : (step s i).memory.faulty = (s.memory.faulty ||
    readdatavalid s i && Memory.differs s.memory (memoryInputs s i)) := rfl

theorem outstanding_eq (h : (system pw pr t polynomial x).Reachable s) :
    s.tester.reader.ledger.outstanding = s.memory.pending.length := by
  refine h.invariant
    (I := fun s => s.tester.reader.ledger.outstanding = s.memory.pending.length) ?_ ?_
  · intro s hs
    rw [hs.pending, hs.tester.2.2.1]
    rfl
  · intro s i _ ih _
    show (step s i).tester.reader.ledger.outstanding = (step s i).memory.pending.length
    rw [outstanding_step, pending_step, ih, List.length_append]
    have hpos : readdatavalid s i = true → 0 < s.memory.pending.length := fun hv =>
      List.length_pos_iff.mpr (pending_ne_nil hv)
    cases hv : readdatavalid s i with
    | false => split <;> simp [Memory.burstAddresses]
    | true =>
      have := hpos hv
      split
      · simp [Memory.burstAddresses]
        omega
      · simp

theorem Software.single (hi : Software t s i) (h : (system pw pr t polynomial x).Reachable s) :
    Tester.SingleTest t s.tester (testerInputs s i) := by
  refine ⟨hi.sequential, hi.transfer, hi.once, fun hvalid => ?_⟩
  rw [outstanding_eq h]
  exact List.length_pos_iff.mpr (pending_ne_nil hvalid)

theorem tester_reachable (h : (system pw pr t polynomial x).Reachable s) :
    ((Tester.tester pw pr).restrict (Tester.SingleTest t)).Reachable s.tester :=
  h.map (C := system pw pr t polynomial x)
    (D := (Tester.tester pw pr).restrict (Tester.SingleTest t)) (f := State.tester)
    (g := testerInputs) (fun _ (hs : Started _ _ _ _) => hs.tester)
    (fun _ _ hr (hi : Software _ _ _) => ⟨hi.trail, hi.single hr⟩) fun _ _ _ _ => rfl

theorem writeChannel_ne_nil
    (hw : PatternWriter.accepts s.tester.writer.hw (writerInputs s i) = true) :
    s.writeChannel ≠ [] := by
  have hvalid : (i.writeChannelOffers && !s.writeChannel.isEmpty) = true := by
    simp only [PatternWriter.accepts, Bool.and_eq_true] at hw
    exact hw.2
  simp only [Bool.and_eq_true, Bool.not_eq_true', List.isEmpty_eq_false_iff] at hvalid
  exact hvalid.2

/-- Word `j` of the pattern, as the stream from the generator shows it. -/
def streamWord (polynomial : BitVec 128) (x : Word b) (j : ℕ) : Word b :=
  byteReversal (iterate polynomial x j)

/-- Of the first words of the pattern, the generator has emitted `emitted`, the writer has taken in
`taken`, and the memory port has accepted those written. -/
structure Streaming (t : Transfer) (polynomial : BitVec 128) (x : Word b) (s : State pw pr)
    (enabled emitted taken : ℕ) : Prop where
  emitting : PrbsPatternGenerator.Emitting polynomial x (t.transferLength.toNat / 2 ^ b)
    s.generator enabled
  emitted_eq : emitted + (PrbsPatternGenerator.srcValid s.generator).toNat = enabled
  channel : ShowAhead.Window (streamWord polynomial x) taken emitted s.writeChannel
  fifo : ShowAhead.Window (streamWord polynomial x) s.tester.written.sum taken
    s.tester.writer.hw.fifo

section Test

variable (ht : Tester.Settings pw pr t) (h : (system pw pr t polynomial x).Reachable s)

include ht h

theorem testing : ((Tester.tester pw pr).restrict Tester.Testing).Reachable s.tester :=
  Tester.testing_reachable ht (tester_reachable h)

theorem Streaming.next {enabled emitted taken : ℕ}
    (hs : Streaming t polynomial x s enabled emitted taken) (hi : Software t s i) :
    Streaming t polynomial x (step s i)
      (enabled + (PrbsPatternGenerator.pipelineEnable s.generator (generatorInputs i)).toNat)
      (emitted + (PrbsPatternGenerator.srcValid s.generator).toNat)
      (taken + (PatternWriter.accepts s.tester.writer.hw (writerInputs s i)).toNat) := by
  have hr := tester_reachable h
  constructor
  case emitting =>
    refine hs.emitting.next ?_ hi.generatorCsr
    rw [ht.writer.length_mul]
    exact t.transferLength.isLt
  case emitted_eq =>
    rw [hs.emitted_eq]
    rfl
  case channel =>
    refine hs.channel.next ?_ ?_
    · exact writeChannel_ne_nil
    · intro hv
      obtain ⟨hpos, hdata⟩ := hs.emitting.srcData_eq hv
      have := hs.emitted_eq
      rw [hv, Bool.toNat_true] at this
      rw [hdata, streamWord, ← this, Nat.add_sub_cancel]
  case fifo =>
    have hwritten := Tester.written_step ht hr (hi.single h)
    show ShowAhead.Window _ (Tester.step s.tester (testerInputs s i)).written.sum _ _
    rw [hwritten]
    have hread : Tester.writes s.tester (testerInputs s i) =
        PatternWriter.fifoRead s.tester.writer.hw (writerInputs s i) :=
      (PatternWriter.fifoRead_eq _ _).symm
    rw [hread]
    refine hs.fifo.next ?_ ?_
    · have hw := Tester.Tests.writing (testing ht h) ht.masters
      exact hw.stocked.fifo_ne_nil hw.counting hw.bursting
    · exact fun htaken => hs.channel.front_eq (writeChannel_ne_nil htaken)

theorem streaming : ∃ enabled emitted taken, Streaming t polynomial x s enabled emitted taken := by
  refine h.invariant (I := fun s => ∃ enabled emitted taken,
    Streaming t polynomial x s enabled emitted taken) ?_ ?_
  · intro s hs
    obtain ⟨-, hwriter, -, hwritten, -⟩ := hs.tester
    refine ⟨0, 0, 0, hs.generator.emitting ht.writer.length_div_pos ht.writer.length_mul.symm,
      ?_, ?_, ?_⟩
    · simp [PrbsPatternGenerator.srcValid, hs.generator.pipelineEnableD1]
    · rw [hs.writeChannel]
      exact .nil _ 0
    · rw [hwritten, hwriter]
      exact .nil _ 0
  · rintro s i hr ⟨enabled, emitted, taken, hs⟩ hi
    exact ⟨_, _, _, hs.next ht hr hi⟩

/-- The memory holds the first words of the pattern, those written, from the base address on. -/
structure Stored (t : Transfer) (polynomial : BitVec 128) (x : Word b) (s : State pw pr) :
    Prop where
  left : s.memory.left = s.tester.writer.ledger.left
  next : s.memory.left ≠ 0 →
    s.memory.next = t.baseAddress.toNat + s.tester.written.sum * 2 ^ b
  cells : ∀ j < s.tester.written.sum,
    s.memory.cells (t.baseAddress.toNat + j * 2 ^ b) = iterate polynomial x j

/-- The word accepted in a cycle is the next one of the pattern. -/
theorem writedata_eq (hw : Tester.writes s.tester (testerInputs s i) = true) :
    PatternWriter.masterWritedata s.tester.writer.hw (writerInputs s i) =
      iterate polynomial x s.tester.written.sum := by
  obtain ⟨enabled, emitted, taken, hs⟩ := streaming ht h
  have hwriting := Tester.Tests.writing (testing ht h) ht.masters
  have hread : PatternWriter.fifoRead s.tester.writer.hw (writerInputs s i) = true :=
    (PatternWriter.fifoRead_eq _ _).trans hw
  have hne := hwriting.stocked.fifo_ne_nil hwriting.counting hwriting.bursting hread
  rw [PatternWriter.masterWritedata, hs.fifo.front_eq hne, streamWord, byteReversal_byteReversal]

theorem Stored.next_step (hs : Stored t polynomial x s) (hi : Software t s i) :
    Stored t polynomial x (step s i) := by
  have hr := tester_reachable h
  have hwritten : (step s i).tester.written.sum = s.tester.written.sum +
      (Tester.writes s.tester (testerInputs s i)).toNat := Tester.written_step ht hr (hi.single h)
  have hleft : (step s i).memory.left = (step s i).tester.writer.ledger.left := by
    show (Memory.step s.memory (memoryInputs s i)).left =
      (s.tester.writer.ledger.next s.tester.writer.hw (writerInputs s i)).left
    simp only [Memory.step, memoryInputs, PatternWriter.Ledger.next, hs.left]
    rfl
  cases hw : Tester.writes s.tester (testerInputs s i) with
  | false =>
    have hmemory : (step s i).memory.left = s.memory.left ∧
        (step s i).memory.next = s.memory.next ∧ (step s i).memory.cells = s.memory.cells := by
      simp [step, Memory.step, memoryInputs, hw]
    obtain ⟨hl, hn, hc⟩ := hmemory
    rw [hw, Bool.toNat_false, Nat.add_zero] at hwritten
    refine ⟨hleft, ?_, ?_⟩
    · rw [hl, hn, hwritten]
      exact hs.next
    · rw [hc, hwritten]
      exact hs.cells
  | true =>
    have haddress : Memory.beatAddress s.memory (memoryInputs s i) =
        t.baseAddress.toNat + s.tester.written.sum * 2 ^ b := by
      rw [Memory.beatAddress]
      split
      · rename_i hzero
        have haddress :=
          Tester.Tests.write_address (testing ht h) ht.masters hw (hs.left ▸ hzero)
        rw [Tester.transfer_of_writing hr ht hw] at haddress
        exact haddress
      · rename_i hne
        exact hs.next hne
    have hcells : (step s i).memory.cells = Function.update s.memory.cells
        (t.baseAddress.toNat + s.tester.written.sum * 2 ^ b)
        (iterate polynomial x s.tester.written.sum) := by
      rw [← haddress, ← writedata_eq ht h hw]
      simp [step, Memory.step, memoryInputs, hw]
    rw [hw, Bool.toNat_true] at hwritten
    refine ⟨hleft, fun _ => ?_, fun j hj => ?_⟩
    · have hnext : (step s i).memory.next =
          Memory.beatAddress s.memory (memoryInputs s i) + 2 ^ b := by
        simp [step, Memory.step, memoryInputs, hw]
      rw [hnext, haddress, hwritten, Nat.add_mul, one_mul, Nat.add_assoc]
    · rw [hwritten] at hj
      rw [hcells]
      obtain hlt | rfl := Nat.lt_succ_iff_lt_or_eq.mp hj
      · have hne : t.baseAddress.toNat + j * 2 ^ b ≠
            t.baseAddress.toNat + s.tester.written.sum * 2 ^ b := by
          intro heq
          have := Nat.eq_of_mul_eq_mul_right (by positivity) (Nat.add_left_cancel heq)
          omega
        rw [Function.update_of_ne hne]
        exact hs.cells j hlt
      · rw [Function.update_self]

theorem stored : Stored t polynomial x s := by
  refine h.invariant (I := Stored t polynomial x) ?_ ?_
  · intro s hs
    obtain ⟨-, hwriter, -, hwritten, -⟩ := hs.tester
    refine ⟨?_, fun hne => absurd hs.writeBurst hne, ?_⟩
    · rw [hs.writeBurst, hwriter]
      rfl
    · simp [hwritten]
  · intro s i hr hs hi
    exact hs.next_step ht hr hi

/-- For each of the words that the memory has returned, whether it is that of the pattern. -/
def returnVerdicts (polynomial : BitVec 128) (x : Word b) (returned : List (Word b)) : List Bool :=
  returned.mapIdx fun k w => w == iterate polynomial x k

/-- The words on their way are those posted and not returned, and the memory is faulty when one
that it has returned is not that of the pattern. -/
structure Returned (t : Transfer) (polynomial : BitVec 128) (x : Word b) (s : State pw pr) :
    Prop where
  pending : ShowAhead.Window (fun j => t.baseAddress.toNat + j * 2 ^ b)
    s.tester.reader.ledger.returned.length s.tester.posted.sum s.memory.pending
  faulty : s.memory.faulty =
    (returnVerdicts polynomial x s.tester.reader.ledger.returned).any not

omit ht h in
theorem returnVerdicts_append (polynomial : BitVec 128) (x w : Word b)
    (returned : List (Word b)) : returnVerdicts polynomial x (returned ++ [w]) =
      returnVerdicts polynomial x returned ++ [w == iterate polynomial x returned.length] := by
  simp [returnVerdicts, List.mapIdx_append]

omit ht h in
/-- A read burst from word `k` on. -/
theorem burstAddresses_eq (base k n : ℕ) : Memory.burstAddresses b (base + k * 2 ^ b) n =
    (List.range' k n).map fun j => base + j * 2 ^ b := by
  rw [Memory.burstAddresses, List.range'_eq_map_range, List.map_map]
  refine List.map_congr_left fun j _ => ?_
  rw [Function.comp_apply, Nat.add_mul, Nat.add_assoc]

/-- The word returned in a cycle is compared with that of the pattern. -/
theorem differs_eq (hs : Returned t polynomial x s) (hv : readdatavalid s i = true) :
    Memory.differs s.memory (memoryInputs s i) =
      (i.readdata != iterate polynomial x s.tester.reader.ledger.returned.length) := by
  have hne := pending_ne_nil hv
  have hlt := hs.pending.ne_nil_iff.mp hne
  have hwritten := Tester.Tests.posted_le (testing ht h) ht.masters
  have hfront : ShowAhead.front s.memory.pending 0 = _ := hs.pending.front_eq hne
  obtain ⟨address, rest, hpending⟩ := List.exists_cons_of_ne_nil hne
  rw [hpending] at hfront
  simp only [Memory.differs, hpending]
  rw [show address = _ from hfront, (stored ht h).cells _ (by omega)]
  rfl

theorem Returned.next_step (hs : Returned t polynomial x s) (hi : Software t s i) :
    Returned t polynomial x (step s i) := by
  have hr := tester_reachable h
  have hposted : (step s i).tester.posted.sum = _ := Tester.posted_step ht hr (hi.single h)
  constructor
  case pending =>
    have hpop := hs.pending.next_pop (pending_ne_nil (i := i))
    have hlength : (step s i).tester.reader.ledger.returned.length =
        s.tester.reader.ledger.returned.length + (readdatavalid s i).toNat := by
      rw [returned_step, List.length_append]
      cases readdatavalid s i <;> rfl
    rw [hlength, hposted, pending_step]
    by_cases hread : Tester.reads s.tester (testerInputs s i) = true
    · rw [if_pos hread, if_pos hread, Tester.Tests.read_address (testing ht h) ht.masters hread,
        Tester.transfer_of_reading hr ht hread, burstAddresses_eq]
      exact hpop.append _
    · rw [if_neg hread, if_neg hread, List.append_nil]
      exact hpop
  case faulty =>
    rw [faulty_step, returned_step, hs.faulty]
    cases hv : readdatavalid s i with
    | false => simp
    | true =>
      rw [if_pos rfl, returnVerdicts_append, List.any_append, Bool.true_and,
        differs_eq ht h hs hv]
      simp [bne]

theorem returned : Returned t polynomial x s := by
  refine h.invariant (I := Returned t polynomial x) ?_ ?_
  · intro s hs
    obtain ⟨-, -, hreader, -, hposted⟩ := hs.tester
    have hnone : s.tester.reader.ledger.returned = [] := by rw [hreader]; rfl
    refine ⟨?_, ?_⟩
    · rw [hnone, hposted, hs.pending]
      exact .nil _ 0
    · rw [hnone, hs.faulty]
      rfl
  · intro s i hr hs hi
    exact hs.next_step ht hr hi

omit ht in
/-- The words accepted by the checker and those on their way to it are the ones delivered. -/
theorem delivered_eq : s.accepted ++ s.readChannel = s.tester.reader.ledger.delivered := by
  refine h.invariant
    (I := fun s => s.accepted ++ s.readChannel = s.tester.reader.ledger.delivered) ?_ ?_
  · intro s hs
    rw [hs.accepted, hs.readChannel, hs.tester.2.2.1]
    rfl
  · intro s i _ hs _
    refine ShowAhead.next_history hs ?_ _ _ i.readChannelIdle
    intro he
    have hvalid : (i.readChannelOffers && !s.readChannel.isEmpty) = true := by
      simp only [PrbsPatternChecker.accepts, Bool.and_eq_true] at he
      exact he.2
    simp only [Bool.and_eq_true, Bool.not_eq_true', List.isEmpty_eq_false_iff] at hvalid
    exact hvalid.2

omit ht in
theorem checking : PrbsPatternChecker.Checking polynomial x s.checker s.accepted := by
  refine h.invariant
    (I := fun s => PrbsPatternChecker.Checking polynomial x s.checker s.accepted) ?_ ?_
  · intro s hs
    rw [hs.accepted]
    exact hs.checker.checking
  · intro s i _ hs hi
    exact hs.next hi.checkerCsr

/-- Once all that the generator emits has been written and the controller has stopped, the memory
has returned every word of the transfer. -/
theorem returned_length (hd : Drained s) :
    s.tester.reader.ledger.returned.length = t.transferLength.toNat / 2 ^ b := by
  have hr := tester_reachable h
  obtain ⟨enabled, emitted, taken, hs⟩ := streaming ht h
  have henabled : enabled = t.transferLength.toNat / 2 ^ b := by
    have hstart := hs.emitting.start
    have hle := hs.emitting.le
    rw [hd.generator, eq_comm, decide_eq_false_iff_not] at hstart
    omega
  have hemitted := hs.emitted_eq
  rw [show PrbsPatternGenerator.srcValid s.generator = false from hd.emitted, Bool.toNat_false,
    Nat.add_zero] at hemitted
  have htaken := hs.channel.length
  have hwritten := hs.fifo.length
  rw [hd.writeChannel, List.length_nil] at htaken
  rw [hd.writerFifo, List.length_nil] at hwritten
  have hall : s.tester.written.sum = t.transferLength.toNat / 2 ^ b := by
    have := hs.channel.le
    have := hs.fifo.le
    omega
  have hwrites : s.tester.controller.trace.writes ≠ [] := by
    have hpos := ht.writer.length_div_pos
    obtain ⟨-, hnone⟩ | ⟨k, -, hlen, -⟩ := Tester.Tests.written_eq (testing ht h)
    · rw [← hall, hnone, List.sum_nil] at hpos
      contradiction
    · rw [← List.length_pos_iff]
      omega
  have hpending := (returned ht h).pending.length
  have hle := (returned ht h).pending.le
  have hzero := Tester.outstanding_at_rest (fun _ _ hi => hi.orderly ht) hr hd.controller
  rw [outstanding_eq h] at hzero
  have htested := Tester.Tests.tested (testing ht h) ht.masters hd.controller hwrites
  rw [Tester.transfer_of_writes hr hwrites] at htested
  omega

/-- Once the system has drained, the checker has accepted every word of the transfer, and its
failure bit is set exactly when the memory has returned a word that is not the one last written to
its address. -/
theorem drained_verdict (hd : Drained s) :
    s.accepted.length = t.transferLength.toNat / 2 ^ b ∧
      (s.checker.failureDetected = true ↔ s.memory.faulty = true) := by
  have hflow := Tester.flow (fun _ _ hi => hi.returns) (tester_reachable h)
  have hwords := hflow.words
  have hdelivered := delivered_eq h
  rw [hd.readChannel, List.append_nil] at hdelivered
  rw [hd.readerFifo, List.append_nil, ← hdelivered] at hwords
  have hlength := returned_length ht h hd
  refine ⟨by rw [hwords, List.length_map, hlength], ?_⟩
  rw [(checking h).failureDetected_iff hd.checkerD1 hd.checkerD2, (returned ht h).faulty, hwords,
    List.any_eq_true]
  simp only [returnVerdicts, List.mem_iff_getElem?, List.getElem?_mapIdx, List.getElem?_map,
    Option.map_eq_some_iff]
  constructor
  · rintro ⟨k, -, ⟨w, hw, rfl⟩, hne⟩
    rw [byteReversal_byteReversal] at hne
    exact ⟨_, ⟨k, w, hw, rfl⟩, by simpa using hne⟩
  · rintro ⟨v, ⟨k, w, hw, rfl⟩, hne⟩
    refine ⟨k, _, ⟨w, hw, rfl⟩, ?_⟩
    rw [byteReversal_byteReversal]
    simpa using hne

end Test

section Run

set_option synthInstance.maxSize 512 in
instance (t : Transfer) (s : State pw pr) (i : Inputs b) : Decidable (Software t s i) :=
  decidable_of_iff (_ ∧ _ ∧ _ ∧ _ ∧ _ ∧ _)
    ⟨fun ⟨h1, h2, h3, h4, h5, h6⟩ => ⟨h1, h2, h3, h4, h5, h6⟩,
      fun ⟨h1, h2, h3, h4, h5, h6⟩ => ⟨h1, h2, h3, h4, h5, h6⟩⟩

instance (t : Transfer) (s : State pw pr) (i : Inputs b) :
    Decidable ((system pw pr t polynomial x).admits s i) :=
  inferInstanceAs (Decidable (Software t s i))

/-- The system after a reset, and after software has started the generator and the checker. -/
def State.started (length : BitVec 32) : State pw pr where
  tester := .reset
  generator := { PrbsPatternGenerator.reset with start := true, payloadLengthCounter := length }
  checker := { PrbsPatternChecker.reset with start := true, payloadLengthCounter := length }
  memory := ⟨fun _ => 0#_, 0, 0, [], false⟩
  writeChannel := []
  readChannel := []
  accepted := []

theorem started (length : BitVec 32) : Started length (polynomialResetValue (8 * 2 ^ b))
    (seedValue (8 * 2 ^ b)) (State.started length : State pw pr) where
  tester := Tester.reset_init
  generator := ⟨rfl, rfl, rfl, rfl, rfl, rfl, rfl⟩
  checker := ⟨rfl, rfl, rfl, rfl, rfl, rfl, rfl, rfl, rfl⟩
  writeBurst := rfl
  pending := rfl
  faulty := rfl
  writeChannel := rfl
  readChannel := rfl
  accepted := rfl

/-- A cycle without stalls in which the slave port of the controller sees `csr`, and the memory may
return a word. -/
def Inputs.cycle (csr : CsrAccess) (returned : Option (Word 2)) : Inputs 2 where
  controllerCsr := csr
  generatorCsr := .none
  checkerCsr := .none
  writeWaitrequest := false
  readWaitrequest := false
  returns := returned.isSome
  readdata := returned.getD 0#_
  writeChannelReady := true
  writeChannelOffers := true
  readChannelReady := true
  readChannelOffers := true
  writeCommandIdle := ⟨true, 0#24, 0#64⟩
  readCommandIdle := ⟨true, 0#24, 0#64⟩
  writerFifoIdle := 0#_
  readerFifoIdle := 0#_
  writeChannelIdle := 0#_
  readChannelIdle := 0#_

/-- A test of two words, of which the memory returns the second one wrong. -/
def Inputs.twoWords : List (Inputs 2) :=
  [.cycle (.store 2#3 8#32) none, .cycle (.store 3#3 0x01000008#32) none,
    .cycle (.store 4#3 0x01000000#32) none] ++ List.replicate 16 (.cycle .none none) ++
  [.cycle .none (some 0xDEADBEEF#32), .cycle .none (some 1#32)] ++
    List.replicate 4 (.cycle .none none)

theorem drained_verdict_two_words :
    let s := run step (State.started 8#32 : State .shipped .shipped) Inputs.twoWords
    s.accepted.length = 2 ∧ s.checker.failureDetected = true := by
  have ht : Tester.Settings .shipped .shipped ⟨0#64, 8#32, 8#24⟩ :=
    ⟨⟨by decide, by decide, by decide, by decide, by decide, by decide, by decide⟩,
      ⟨by decide, by decide, by decide, by decide, by decide, by decide, by decide⟩,
      rfl, rfl, rfl, by decide⟩
  have hrun := (Circuit.Reachable.init (C := system .shipped .shipped ⟨0#64, 8#32, 8#24⟩
    (polynomialResetValue 32) (seedValue 32)) (started 8#32)).run Inputs.twoWords
      (by decide +kernel)
  have hverdict := drained_verdict ht hrun
    ⟨by decide +kernel, by decide +kernel, by decide +kernel, by decide +kernel, by decide +kernel,
      by decide +kernel, by decide +kernel, by decide +kernel, by decide +kernel⟩
  exact ⟨hverdict.1, hverdict.2.mpr (by decide +kernel)⟩

end Run

end AvalonCores.MemoryTester.MemoryTesterSystem
