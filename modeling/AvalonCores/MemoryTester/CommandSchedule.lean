import Mathlib.Tactic
import AvalonCores.MemoryTester.AccessSchedule
import AvalonCores.MemoryTester.RamTestController

/-! The order in which `mtm_ram_test_controller` issues its commands.  `Conducting` ties the
registers of a running controller to the commands issued so far, which follow the schedule. -/

namespace AvalonCores.MemoryTester.RamTestController

open AvalonCores.Sync ShowAhead

/-- The commands that a run of the controller has issued: the transfer and the trail in its
registers when the start bit was set, the accepted write and read commands, and their order. -/
structure Trace where
  transfer : Transfer
  trail : ℕ
  writes : List Command
  reads : List ReadCommand
  order : List Access

def Trace.none : Trace := ⟨⟨0#64, 0#32, 0#24⟩, 0, [], [], []⟩

structure Monitored where
  hw : State
  trace : Trace

def csrTransfer (s : State) : Transfer := ⟨s.baseAddress, s.length, s.blockSize⟩

/-- The cycle sets the start bit. -/
def begins (s : State) (i : Inputs) : Bool := loadStart s i && i.csrWritedata.getLsbD 24

/-- The port of the write commands transfers a command. -/
def sendsWriteCommand (s : State) (i : Inputs) : Bool :=
  srcWriteCommandValid s && i.srcWriteCommandReady

def sendsReadCommand (s : State) (i : Inputs) : Bool :=
  srcReadCommandValid s && i.srcReadCommandReady

def Trace.next (h : Trace) (s : State) (i : Inputs) : Trace :=
  if begins s i then ⟨csrTransfer s, s.blockTrail.toNat, [], [], []⟩
  else
    { h with
      writes := h.writes ++ if sendsWriteCommand s i then [srcWriteCommandData s i] else []
      reads := h.reads ++ if sendsReadCommand s i then [srcReadCommandData s i] else []
      order := h.order ++ ((if sendsWriteCommand s i then [.write] else []) ++
        if sendsReadCommand s i then [.read] else []) }

/-- A command leaves its FIFO when its port transfers it. -/
theorem Trace.next_eq (h : Trace) (s : State) (i : Inputs) : h.next s i =
    if begins s i then ⟨csrTransfer s, s.blockTrail.toNat, [], [], []⟩
    else
      { h with
        writes := h.writes ++ if writeFifoPop s i then [srcWriteCommandData s i] else []
        reads := h.reads ++ if readFifoPop s i then [srcReadCommandData s i] else []
        order := h.order ++ ((if writeFifoPop s i then [.write] else []) ++
          if readFifoPop s i then [.read] else []) } := rfl

/-- No command has been issued. -/
structure Trace.Empty (h : Trace) : Prop where
  writes : h.writes = []
  reads : h.reads = []
  order : h.order = []

/-- Every block has been written and read, in the order of the schedule. -/
structure Trace.Complete (h : Trace) : Prop where
  writes : h.writes = h.transfer.blocks.map Block.writeCommand
  reads : h.reads = h.transfer.blocks.map Block.readCommand
  order : h.order = schedule h.trail h.transfer.blockCount

/-- The registers between two runs.  The ring and the pipeline behind it may have any value. -/
structure Quiescent (s : State) : Prop where
  start : s.start = false
  writeFifo : s.writeFifo = []
  readFifo : s.readFifo = []
  writeFsm : s.writeFsm.state = 0b0000#4
  readFsm : s.readFsm.state = 0b0000#4
  blockTrailDistance : s.blockTrailDistance = 0#8
  lastWriteComplete : s.lastWriteComplete = false
  lastReadComplete : s.lastReadComplete = false
  issueWriteCommandD2 : s.issueWriteCommandD2 = false
  issueReadCommandD2 : s.issueReadCommandD2 = false

theorem reset_quiescent (timerResolution : BitVec 16) (blockSize : BitVec 24)
    (trailDistance : BitVec 8) : Quiescent (reset timerResolution blockSize trailDistance) :=
  ⟨rfl, rfl, rfl, rfl, rfl, rfl, rfl, rfl, rfl, rfl⟩

/-- The controller between masters that are ready in any cycles.  Software sets the start bit only
with a positive block size and a positive trail in the registers. -/
def controller : Circuit Monitored Inputs where
  init c := Quiescent c.hw ∧ c.trace.Empty
  admits c i := begins c.hw i = true → 0 < c.hw.blockSize.toNat ∧ 0 < c.hw.blockTrail.toNat
  step c i := ⟨step c.hw i, c.trace.next c.hw i⟩

/-- A chopper that has queued some first blocks of `t`, of which `w` have left the FIFO. -/
def Supplying (t : Transfer) (w : ℕ) (fsm : ChopperFsm.State) (fifo : List Block) : Prop :=
  ∃ k, ChopperFsm.Filling t k fsm ∧ Window t.block w k fifo

namespace Supplying

variable {t : Transfer} {w : ℕ} {fsm : ChopperFsm.State} {fifo : List Block}

theorem start (hd1 : fsm.enableD1 = false) (hs : fsm.state = 0b0000#4) :
    Supplying t 0 fsm [] := ⟨0, .inr ⟨rfl, hd1, hs⟩, .nil _ 0⟩

theorem le (h : Supplying t w fsm fifo) : w ≤ t.blockCount := by
  obtain ⟨k, hf, hw⟩ := h
  exact hw.le.trans hf.le

theorem lt (h : Supplying t w fsm fifo) (hne : fifo ≠ []) : w < t.blockCount := by
  obtain ⟨k, hf, hw⟩ := h
  exact (hw.ne_nil_iff.mp hne).trans_le hf.le

theorem front_eq (h : Supplying t w fsm fifo) (hne : fifo ≠ []) (idle : Block) :
    front fifo idle = t.block w := by
  obtain ⟨k, -, hw⟩ := h
  exact hw.front_eq hne

/-- After the last block the FIFO is empty and the chopper has stopped. -/
theorem done (h : Supplying t w fsm fifo) (hw : w = t.blockCount) :
    fifo = [] ∧ fsm.enableD1 = true ∧ fsm.state = 0b0000#4 := by
  obtain ⟨k, hf, hq⟩ := h
  have := hq.le
  exact ⟨hq.eq_nil (by have := hf.le; omega), hf.stopped (by omega)⟩

theorem next {i : ChopperFsm.Inputs} {pop : Bool} (hB : 0 < t.blockSize.toNat)
    (h : Supplying t w fsm fifo) (hi : i.enable = true) (ht : i.toTransfer = t)
    (hpop : pop = true → fifo ≠ []) :
    Supplying t (w + pop.toNat) (ChopperFsm.step fsm i)
      (ShowAhead.next fifo pop (ChopperFsm.fifoWrite fsm i) (ChopperFsm.fifoCommand fsm)) := by
  obtain ⟨k, hf, hq⟩ := h
  exact ⟨_, hf.next hB hi ht, hq.next hpop fun hw => hf.fifoCommand hw⟩

end Supplying

theorem next_ne_nil {fifo : List Block} {push : Bool} {x : Block} (h : fifo ≠ []) :
    ShowAhead.next fifo false push x ≠ [] := by
  simp [ShowAhead.next, h]

/-- The controller is running, and has issued `w` write and `r` read commands.  A command that the
ring is about to issue (`D1` in the last stage of the ring) or offers (`D2`) is at the head of its
FIFO and is the one that the rule asks for. -/
structure Conducting (s : State) (h : Trace) (w r : ℕ) : Prop where
  start : s.start = true
  transfer_eq : csrTransfer s = h.transfer
  trail_eq : s.blockTrail.toNat = h.trail
  blockSize_pos : 0 < h.transfer.blockSize.toNat
  trail_pos : 0 < h.trail
  writeSide : Supplying h.transfer w s.writeFsm s.writeFifo
  readSide : Supplying h.transfer r s.readFsm s.readFifo
  writes : h.writes = (List.range w).map fun k => (h.transfer.block k).writeCommand
  reads : h.reads = (List.range r).map fun k => (h.transfer.block k).readCommand
  order : Greedy h.trail h.transfer.blockCount w r h.order
  distance : s.blockTrailDistance.toNat + r = w
  within : w ≤ r + h.trail
  lastWrite : s.lastWriteComplete = decide (w = h.transfer.blockCount)
  lastRead : s.lastReadComplete = decide (r = h.transfer.blockCount)
  ring : s.state = 0b001#3 ∨ s.state = 0b010#3 ∨ s.state = 0b100#3
  compared : s.state = 0b010#3 → s.compareD1 = compare s
  writeD1 : s.state = 0b100#3 → s.issueWriteCommandD1 = true →
    s.writeFifo ≠ [] ∧ w < r + h.trail
  readD1 : s.state = 0b100#3 → s.issueReadCommandD1 = true →
    s.readFifo ≠ [] ∧ (w = r + h.trail ∨ w = h.transfer.blockCount)
  writeD2 : s.issueWriteCommandD2 = true → s.writeFifo ≠ [] ∧ w < r + h.trail
  readD2 : s.issueReadCommandD2 = true →
    s.readFifo ≠ [] ∧ (w = r + h.trail ∨ w = h.transfer.blockCount)

namespace Conducting

variable {s : State} {h : Trace} {w r : ℕ} {i : Inputs}

theorem read_le (c : Conducting s h w r) : r ≤ w := by have := c.distance; omega

theorem compare_eq (c : Conducting s h w r) : compare s = decide (w < r + h.trail) := by
  have := c.distance
  have := c.trail_eq
  simp only [compare, decide_eq_decide]
  omega

theorem loadStart_eq (c : Conducting s h w r) : loadStart s i = false := by
  cases hw : i.csrWrite <;> simp [loadStart, load, csrWaitrequest, c.start, hw]

theorem writeFifoPop (c : Conducting s h w r) (hp : writeFifoPop s i = true) :
    s.writeFifo ≠ [] ∧ w < r + h.trail := c.writeD2 (by simp_all [RamTestController.writeFifoPop])

theorem readFifoPop (c : Conducting s h w r) (hp : readFifoPop s i = true) :
    s.readFifo ≠ [] ∧ (w = r + h.trail ∨ w = h.transfer.blockCount) :=
  c.readD2 (by simp_all [RamTestController.readFifoPop])

/-- The two command ports are never valid at once. -/
theorem not_both (c : Conducting s h w r) :
    ¬(s.issueWriteCommandD2 = true ∧ s.issueReadCommandD2 = true) := by
  rintro ⟨hw, hr⟩
  obtain ⟨hne, hlt⟩ := c.writeD2 hw
  have := c.writeSide.lt hne
  have := (c.readD2 hr).2
  omega

/-- What the ring is about to issue as a write command is the next one. -/
theorem issueWriteCommand (c : Conducting s h w r) (hi : issueWriteCommand s i = true) :
    s.writeFifo ≠ [] ∧ w < r + h.trail := by
  simp only [RamTestController.issueWriteCommand, Bool.and_eq_true, Bool.not_eq_true',
    List.isEmpty_eq_false_iff] at hi
  obtain ⟨⟨hne, hstage⟩, hcompare⟩ := hi
  have hring : s.state = 0b010#3 := by
    rcases c.ring with hs | hs | hs <;> simp [hs] at hstage ⊢
  have hd1 : s.compareD1 = true := by
    cases hd : s.compareD1 <;> simp [hd] at hcompare ⊢
  rw [c.compared hring, c.compare_eq] at hd1
  exact ⟨hne, of_decide_eq_true hd1⟩

theorem issueReadCommand (c : Conducting s h w r) (hi : issueReadCommand s i = true) :
    s.readFifo ≠ [] ∧ (w = r + h.trail ∨ w = h.transfer.blockCount) := by
  simp only [RamTestController.issueReadCommand, Bool.and_eq_true, Bool.not_eq_true',
    List.isEmpty_eq_false_iff] at hi
  obtain ⟨⟨hne, hstage⟩, hcompare⟩ := hi
  have hring : s.state = 0b010#3 := by
    rcases c.ring with hs | hs | hs <;> simp [hs] at hstage ⊢
  refine ⟨hne, ?_⟩
  cases hlast : s.lastWriteComplete with
  | true =>
    rw [c.lastWrite] at hlast
    exact .inr (of_decide_eq_true hlast)
  | false =>
    have hd1 : s.compareD1 = false := by
      cases hd : s.compareD1 <;> simp [hd, hlast] at hcompare ⊢
    rw [c.compared hring, c.compare_eq] at hd1
    have := c.within
    have := of_decide_eq_false hd1
    omega

theorem load_eq (c : Conducting s h w r) (a : BitVec 3) : load s i a = false := by
  cases hw : i.csrWrite <;> simp [load, csrWaitrequest, c.start, hw]

theorem initializing_eq (c : Conducting s h w r) :
    initializing s i =
      (RamTestController.writeFifoPop s i || RamTestController.readFifoPop s i) := by
  simp [initializing, c.loadStart_eq]

theorem csrTransfer_step (c : Conducting s h w r) : csrTransfer (step s i) = h.transfer := by
  rw [← c.transfer_eq]
  simp [csrTransfer, step, c.load_eq]

theorem blockTrail_step (c : Conducting s h w r) : (step s i).blockTrail = s.blockTrail := by
  simp [step, c.load_eq]

theorem concurrentAccessEnable_step (c : Conducting s h w r) :
    (step s i).concurrentAccessEnable = s.concurrentAccessEnable := by
  simp [step, c.load_eq]

theorem next_trace (c : Conducting s h w r) :
    (h.next s i).transfer = h.transfer ∧ (h.next s i).trail = h.trail := by
  simp [Trace.next_eq, begins, c.loadStart_eq]

/-- A command that a pop takes is the next block of its side. -/
theorem srcWriteCommandData_eq (c : Conducting s h w r) (hne : s.writeFifo ≠ []) :
    writeFifoDataout s i = h.transfer.block w := c.writeSide.front_eq hne _

theorem srcReadCommandData_eq (c : Conducting s h w r) (hne : s.readFifo ≠ []) :
    readFifoDataout s i = h.transfer.block r := c.readSide.front_eq hne _

theorem writeSide_step (c : Conducting s h w r) :
    Supplying h.transfer (w + (RamTestController.writeFifoPop s i).toNat) (step s i).writeFsm
      (step s i).writeFifo :=
  c.writeSide.next c.blockSize_pos c.start c.transfer_eq fun hp => (c.writeFifoPop hp).1

theorem readSide_step (c : Conducting s h w r) :
    Supplying h.transfer (r + (RamTestController.readFifoPop s i).toNat) (step s i).readFsm
      (step s i).readFifo :=
  c.readSide.next c.blockSize_pos c.start c.transfer_eq fun hp => (c.readFifoPop hp).1

theorem lastWrite_step (c : Conducting s h w r) (hclear : clearStart s i = false) :
    (step s i).lastWriteComplete =
      decide (w + (RamTestController.writeFifoPop s i).toNat = h.transfer.blockCount) := by
  cases hp : RamTestController.writeFifoPop s i with
  | false => simp [step, clearLastWriteComplete, hclear, setLastWriteComplete, hp, c.lastWrite]
  | true =>
    have hne := (c.writeFifoPop hp).1
    have hlt := c.writeSide.lt hne
    simp [step, clearLastWriteComplete, hclear, setLastWriteComplete, hp, c.lastWrite,
      c.srcWriteCommandData_eq hne, Transfer.block, hlt.ne]

theorem lastRead_step (c : Conducting s h w r) (hclear : clearStart s i = false) :
    (step s i).lastReadComplete =
      decide (r + (RamTestController.readFifoPop s i).toNat = h.transfer.blockCount) := by
  cases hp : RamTestController.readFifoPop s i with
  | false => simp [step, clearLastReadComplete, hclear, setLastReadComplete, hp, c.lastRead]
  | true =>
    have hne := (c.readFifoPop hp).1
    have hlt := c.readSide.lt hne
    simp [step, clearLastReadComplete, hclear, setLastReadComplete, hp, c.lastRead,
      c.srcReadCommandData_eq hne, Transfer.block, hlt.ne]

theorem writes_step (c : Conducting s h w r) :
    (h.next s i).writes = (List.range (w + (RamTestController.writeFifoPop s i).toNat)).map
      fun k => (h.transfer.block k).writeCommand := by
  cases hp : RamTestController.writeFifoPop s i with
  | false => simp [Trace.next_eq, begins, c.loadStart_eq, hp, c.writes]
  | true =>
    simp [Trace.next_eq, begins, c.loadStart_eq, hp, c.writes, List.range_succ, srcWriteCommandData,
      c.srcWriteCommandData_eq (c.writeFifoPop hp).1]

theorem reads_step (c : Conducting s h w r) :
    (h.next s i).reads = (List.range (r + (RamTestController.readFifoPop s i).toNat)).map
      fun k => (h.transfer.block k).readCommand := by
  cases hp : RamTestController.readFifoPop s i with
  | false => simp [Trace.next_eq, begins, c.loadStart_eq, hp, c.reads]
  | true =>
    simp [Trace.next_eq, begins, c.loadStart_eq, hp, c.reads, List.range_succ, srcReadCommandData,
      c.srcReadCommandData_eq (c.readFifoPop hp).1]

/-- The pops of a cycle: none, a write, or a read. -/
theorem pops (c : Conducting s h w r) :
    (RamTestController.writeFifoPop s i = false ∧ RamTestController.readFifoPop s i = false) ∨
    (RamTestController.writeFifoPop s i = true ∧ RamTestController.readFifoPop s i = false) ∨
    (RamTestController.writeFifoPop s i = false ∧ RamTestController.readFifoPop s i = true) := by
  have hb := c.not_both
  simp only [RamTestController.writeFifoPop, RamTestController.readFifoPop]
  cases hw : s.issueWriteCommandD2 with
  | false => cases s.issueReadCommandD2 <;> cases i.srcReadCommandReady <;> simp
  | true =>
    have hr : s.issueReadCommandD2 = false := by simpa [hw] using hb
    cases i.srcWriteCommandReady <;> simp [hr]

theorem order_step (c : Conducting s h w r) :
    Greedy h.trail h.transfer.blockCount (w + (RamTestController.writeFifoPop s i).toNat)
      (r + (RamTestController.readFifoPop s i).toNat) (h.next s i).order := by
  obtain ⟨hw, hr⟩ | ⟨hw, hr⟩ | ⟨hw, hr⟩ := c.pops (i := i)
  · simpa [Trace.next_eq, begins, c.loadStart_eq, hw, hr] using c.order
  · obtain ⟨hne, hlt⟩ := c.writeFifoPop hw
    simpa [Trace.next_eq, begins, c.loadStart_eq, hw, hr] using
      c.order.write (c.writeSide.lt hne) hlt
  · obtain ⟨hne, hdue⟩ := c.readFifoPop hr
    have := c.readSide.lt hne
    have := c.trail_pos
    simpa [Trace.next_eq, begins, c.loadStart_eq, hw, hr] using c.order.read (by omega) hdue

theorem distance_step (c : Conducting s h w r) :
    (step s i).blockTrailDistance.toNat + (r + (RamTestController.readFifoPop s i).toNat) =
      w + (RamTestController.writeFifoPop s i).toNat := by
  have hd := c.distance
  obtain ⟨hw, hr⟩ | ⟨hw, hr⟩ | ⟨hw, hr⟩ := c.pops (i := i)
  · simpa [step, hw, hr] using hd
  · have hlt := (c.writeFifoPop hw).2
    have hT := c.trail_eq
    have := s.blockTrail.isLt
    simp [step, hw, hr]
    omega
  · obtain ⟨hne, hdue⟩ := c.readFifoPop hr
    have := c.readSide.lt hne
    have := c.trail_pos
    have hle : 1#8 ≤ s.blockTrailDistance := by
      rw [BitVec.le_def]
      simp
      omega
    have := BitVec.toNat_sub_of_le hle
    simp [step, hw, hr] at this ⊢
    omega

theorem ring_last (c : Conducting s h w r) (hs : s.state.getLsbD 2 = true) :
    s.state = 0b100#3 := by
  rcases c.ring with h1 | h1 | h1 <;> simp [h1] at hs ⊢

/-- A command that is offered after a cycle was offered in it or was in the last stage of the
ring. -/
theorem issueWriteCommandD2_step (c : Conducting s h w r)
    (hd2 : (step s i).issueWriteCommandD2 = true) :
    s.issueWriteCommandD2 = true ∨ s.state = 0b100#3 ∧ s.issueWriteCommandD1 = true := by
  simp only [step] at hd2
  split_ifs at hd2 with hpop hset
  · simp only [setIssueWriteCommandD2, Bool.and_eq_true] at hset
    exact .inr ⟨c.ring_last hset.1.1.1, hd2⟩
  · exact .inl hd2

theorem issueReadCommandD2_step (c : Conducting s h w r)
    (hd2 : (step s i).issueReadCommandD2 = true) :
    s.issueReadCommandD2 = true ∨ s.state = 0b100#3 ∧ s.issueReadCommandD1 = true := by
  simp only [step] at hd2
  split_ifs at hd2 with hpop hset
  · simp only [setIssueReadCommandD2, Bool.and_eq_true] at hset
    exact .inr ⟨c.ring_last hset.1.1.1, hd2⟩
  · exact .inl hd2

/-- A write command that is offered after a cycle was due in that cycle. -/
theorem offers_write (c : Conducting s h w r) (hd2 : (step s i).issueWriteCommandD2 = true) :
    s.writeFifo ≠ [] ∧ w < r + h.trail := by
  obtain hd2 | ⟨hs, hd1⟩ := c.issueWriteCommandD2_step hd2
  · exact c.writeD2 hd2
  · exact c.writeD1 hs hd1

theorem offers_read (c : Conducting s h w r) (hd2 : (step s i).issueReadCommandD2 = true) :
    s.readFifo ≠ [] ∧ (w = r + h.trail ∨ w = h.transfer.blockCount) := by
  obtain hd2 | ⟨hs, hd1⟩ := c.issueReadCommandD2_step hd2
  · exact c.readD2 hd2
  · exact c.readD1 hs hd1

/-- A pop restarts the ring, and leaves no command on offer. -/
theorem popped_step (c : Conducting s h w r)
    (hclear : RamTestController.clearStart s i = false) (hpop : initializing s i = true) :
    (step s i).state = 0b001#3 ∧ (step s i).issueWriteCommandD2 = false ∧
      (step s i).issueReadCommandD2 = false := by
  have hset : setIssueWriteCommandD2 s i = false ∧ setIssueReadCommandD2 s i = false := by
    simp [setIssueWriteCommandD2, setIssueReadCommandD2, hpop]
  refine ⟨by simp [step, flushStatePipeline, hclear, hpop], ?_⟩
  rw [c.initializing_eq] at hpop
  have hb := c.not_both
  rcases c.pops (i := i) with ⟨hw, hr⟩ | ⟨hw, hr⟩ | ⟨hw, hr⟩
  · simp [hw, hr] at hpop
  · simp_all [step, RamTestController.writeFifoPop]
  · simp_all [step, RamTestController.readFifoPop]

/-- A cycle without a pop moves the ring on by one stage. -/
theorem ring_step (hclear : RamTestController.clearStart s i = false)
    (hpop : initializing s i = false) : (step s i).state = s.state.rotateLeft 1 := by
  simp [step, flushStatePipeline, hclear, hpop]

/-- Past its first stage the ring has seen no pop in the cycle before. -/
theorem still_of_ring (c : Conducting s h w r) (hclear : RamTestController.clearStart s i = false)
    (hs : (step s i).state ≠ 0b001#3) : initializing s i = false := by
  by_contra hpop
  exact hs (c.popped_step hclear (by simpa using hpop)).1

theorem pops_of_still (c : Conducting s h w r) (hpop : initializing s i = false) :
    RamTestController.writeFifoPop s i = false ∧ RamTestController.readFifoPop s i = false := by
  rwa [c.initializing_eq, Bool.or_eq_false_iff] at hpop

/-- What has been found due in a cycle without a pop is still due after it. -/
theorem due_write_step (c : Conducting s h w r) (hpop : initializing s i = false)
    (hdue : s.writeFifo ≠ [] ∧ w < r + h.trail) : (step s i).writeFifo ≠ [] ∧
      w + (RamTestController.writeFifoPop s i).toNat <
        r + (RamTestController.readFifoPop s i).toNat + h.trail := by
  obtain ⟨hw, hr⟩ := c.pops_of_still hpop
  obtain ⟨hne, hlt⟩ := hdue
  refine ⟨?_, by simpa [hw, hr] using hlt⟩
  simp only [step, hw]
  exact next_ne_nil hne

theorem due_read_step (c : Conducting s h w r) (hpop : initializing s i = false)
    (hdue : s.readFifo ≠ [] ∧ (w = r + h.trail ∨ w = h.transfer.blockCount)) :
    (step s i).readFifo ≠ [] ∧ (w + (RamTestController.writeFifoPop s i).toNat =
        r + (RamTestController.readFifoPop s i).toNat + h.trail ∨
      w + (RamTestController.writeFifoPop s i).toNat = h.transfer.blockCount) := by
  obtain ⟨hw, hr⟩ := c.pops_of_still hpop
  obtain ⟨hne, hdue⟩ := hdue
  refine ⟨?_, by simpa [hw, hr] using hdue⟩
  simp only [step, hr]
  exact next_ne_nil hne

theorem within_step (c : Conducting s h w r) : w + (RamTestController.writeFifoPop s i).toNat ≤
    r + (RamTestController.readFifoPop s i).toNat + h.trail := by
  have hle := c.within
  rcases c.pops (i := i) with ⟨hw, hr⟩ | ⟨hw, hr⟩ | ⟨hw, hr⟩
  · simpa [hw, hr] using hle
  · have := (c.writeFifoPop hw).2
    simp only [hw, hr, Bool.toNat_true, Bool.toNat_false]
    omega
  · simp only [hw, hr, Bool.toNat_true, Bool.toNat_false]
    omega

/-- A cycle that does not clear the start bit. -/
theorem next (c : Conducting s h w r) (hclear : RamTestController.clearStart s i = false) :
    Conducting (step s i) (h.next s i) (w + (RamTestController.writeFifoPop s i).toNat)
      (r + (RamTestController.readFifoPop s i).toNat) := by
  obtain ⟨ht, hT⟩ := c.next_trace (i := i)
  constructor
  case start => simp [step, hclear, c.loadStart_eq, c.start]
  case transfer_eq => rw [ht, c.csrTransfer_step]
  case trail_eq => rw [hT, c.blockTrail_step, c.trail_eq]
  case blockSize_pos => rw [ht]; exact c.blockSize_pos
  case trail_pos => rw [hT]; exact c.trail_pos
  case writeSide => rw [ht]; exact c.writeSide_step
  case readSide => rw [ht]; exact c.readSide_step
  case writes => rw [ht]; exact c.writes_step
  case reads => rw [ht]; exact c.reads_step
  case order => rw [ht, hT]; exact c.order_step
  case distance => exact c.distance_step
  case within => rw [hT]; exact c.within_step
  case lastWrite => rw [ht]; exact c.lastWrite_step hclear
  case lastRead => rw [ht]; exact c.lastRead_step hclear
  case ring =>
    cases hpop : initializing s i with
    | true => exact .inl (c.popped_step hclear hpop).1
    | false =>
      rw [ring_step hclear hpop]
      rcases c.ring with hs | hs | hs <;> rw [hs] <;> decide
  case compared =>
    intro hs
    have hpop := c.still_of_ring hclear (by rw [hs]; decide)
    obtain ⟨hw, hr⟩ := c.pops_of_still hpop
    have hprev : s.state = 0b001#3 := by
      rw [ring_step hclear hpop] at hs
      rcases c.ring with h1 | h1 | h1 <;> rw [h1] at hs ⊢ <;> simp at hs
    simp [step, hprev, compare, hw, hr, c.load_eq]
  case writeD1 =>
    intro hs hd1
    rw [hT]
    have hpop := c.still_of_ring hclear (by rw [hs]; decide)
    exact c.due_write_step hpop (c.issueWriteCommand (i := i) hd1)
  case readD1 =>
    intro hs hd1
    rw [hT, ht]
    have hpop := c.still_of_ring hclear (by rw [hs]; decide)
    exact c.due_read_step hpop (c.issueReadCommand (i := i) hd1)
  case writeD2 =>
    intro hd2
    rw [hT]
    have hpop : initializing s i = false := by
      by_contra hpop
      rw [(c.popped_step hclear (by simpa using hpop)).2.1] at hd2
      contradiction
    exact c.due_write_step hpop (c.offers_write hd2)
  case readD2 =>
    intro hd2
    rw [hT, ht]
    have hpop : initializing s i = false := by
      by_contra hpop
      rw [(c.popped_step hclear (by simpa using hpop)).2.2] at hd2
      contradiction
    exact c.due_read_step hpop (c.offers_read hd2)

/-- The start bit is cleared when every block has been written and read. -/
theorem clearStart (c : Conducting s h w r) (hclear : clearStart s i = true) :
    w = h.transfer.blockCount ∧ r = h.transfer.blockCount := by
  simp only [RamTestController.clearStart, Bool.and_eq_true, c.lastRead,
    decide_eq_true_eq] at hclear
  have := c.read_le
  have := c.writeSide.le
  omega

/-- At the end of a run the trace is complete. -/
theorem complete (c : Conducting s h w r) (hclear : RamTestController.clearStart s i = true) :
    h.Complete := by
  obtain ⟨rfl, hr⟩ := c.clearStart hclear
  have hG := c.order
  rw [hr] at hG
  refine ⟨?_, ?_, hG.complete c.trail_pos⟩
  · rw [c.writes, Transfer.blocks, List.map_map]
    rfl
  · rw [c.reads, hr, Transfer.blocks, List.map_map]
    rfl

/-- The cycle that clears the start bit pops no command. -/
theorem finish_pops (c : Conducting s h w r) (hclear : RamTestController.clearStart s i = true) :
    RamTestController.writeFifoPop s i = false ∧ RamTestController.readFifoPop s i = false := by
  obtain ⟨hw, hr⟩ := c.clearStart hclear
  constructor
  · by_contra hp
    exact (c.writeFifoPop (by simpa using hp)).1 (c.writeSide.done hw).1
  · by_contra hp
    exact (c.readFifoPop (by simpa using hp)).1 (c.readSide.done hr).1

/-- At the end of a run the controller is at rest. -/
theorem finish (c : Conducting s h w r) (hclear : RamTestController.clearStart s i = true) :
    Quiescent (step s i) ∧ (step s i).state = 0b000#3 ∧ (step s i).issueWriteCommandD1 = false ∧
      (step s i).issueReadCommandD1 = false ∧ h.next s i = h := by
  obtain ⟨hw, hr⟩ := c.clearStart hclear
  obtain ⟨hwf, hwd1, hws⟩ := c.writeSide.done hw
  obtain ⟨hrf, hrd1, hrs⟩ := c.readSide.done hr
  obtain ⟨hwp, hrp⟩ := c.finish_pops hclear
  have hlw : s.lastWriteComplete = true := by rw [c.lastWrite, hw, decide_eq_true_iff]
  have hlr : s.lastReadComplete = true := by rw [c.lastRead, hr, decide_eq_true_iff]
  have hstate : (step s i).state = 0b000#3 := by simp [step, flushStatePipeline, hclear]
  have hd1 : RamTestController.issueWriteCommand s i = false ∧
      RamTestController.issueReadCommand s i = false := by
    simp [RamTestController.issueWriteCommand, RamTestController.issueReadCommand, hwf, hrf]
  have hwpush : writeFifoPush s = false := ChopperFsm.Filling.fifoWrite_eq_false hws
  have hrpush : readFifoPush s = false := ChopperFsm.Filling.fifoWrite_eq_false hrs
  have hdist : s.blockTrailDistance = 0#8 := by
    have := c.distance
    apply BitVec.eq_of_toNat_eq
    simp
    omega
  refine ⟨?_, hstate, hd1.1, hd1.2, by simp [Trace.next_eq, begins, c.loadStart_eq, hwp, hrp]⟩
  constructor
  case start => simp [step, hclear]
  case writeFifo => simp [step, ShowAhead.next, hwp, hwpush, hwf]
  case readFifo => simp [step, ShowAhead.next, hrp, hrpush, hrf]
  case writeFsm => exact ChopperFsm.step_stopped hws (.inr hwd1)
  case readFsm => exact ChopperFsm.step_stopped hrs (.inr hrd1)
  case blockTrailDistance => simp [step, hwp, hrp, hdist]
  case lastWriteComplete => simp [step, clearLastWriteComplete, hclear, hlw]
  case lastReadComplete => simp [step, clearLastReadComplete, hclear, hlr]
  case issueWriteCommandD2 =>
    by_contra hd2
    exact (c.offers_write (by simpa using hd2)).1 hwf
  case issueReadCommandD2 =>
    by_contra hd2
    exact (c.offers_read (by simpa using hd2)).1 hrf

end Conducting

namespace Quiescent

variable {s : State} {i : Inputs}

theorem writeFifoPop (q : Quiescent s) : writeFifoPop s i = false := by
  simp [RamTestController.writeFifoPop, q.issueWriteCommandD2]

theorem readFifoPop (q : Quiescent s) : readFifoPop s i = false := by
  simp [RamTestController.readFifoPop, q.issueReadCommandD2]

theorem start_step (q : Quiescent s) : (step s i).start = begins s i := by
  simp only [step, clearStart, q.lastReadComplete, begins, q.start]
  cases loadStart s i <;> simp

theorem fsm_step (q : Quiescent s) :
    (step s i).writeFsm.enableD1 = false ∧ (step s i).writeFsm.state = 0b0000#4 ∧
    (step s i).readFsm.enableD1 = false ∧ (step s i).readFsm.state = 0b0000#4 :=
  ⟨q.start, ChopperFsm.step_stopped q.writeFsm (.inl q.start),
    q.start, ChopperFsm.step_stopped q.readFsm (.inl q.start)⟩

theorem fifo_step (q : Quiescent s) : (step s i).writeFifo = [] ∧ (step s i).readFifo = [] := by
  have hw : writeFifoPush s = false := ChopperFsm.Filling.fifoWrite_eq_false q.writeFsm
  have hr : readFifoPush s = false := ChopperFsm.Filling.fifoWrite_eq_false q.readFsm
  simp [step, ShowAhead.next, q.writeFifoPop, q.readFifoPop, hw, hr, q.writeFifo, q.readFifo]

theorem next (q : Quiescent s) (hi : begins s i = false) : Quiescent (step s i) := by
  obtain ⟨-, hws, -, hrs⟩ := q.fsm_step (i := i)
  constructor
  case start => rw [q.start_step, hi]
  case writeFifo => exact q.fifo_step.1
  case readFifo => exact q.fifo_step.2
  case writeFsm => exact hws
  case readFsm => exact hrs
  case blockTrailDistance => simp [step, q.writeFifoPop, q.readFifoPop, q.blockTrailDistance]
  all_goals
    simp [step, clearLastWriteComplete, setLastWriteComplete, clearLastReadComplete,
      setLastReadComplete, setIssueWriteCommandD2, setIssueReadCommandD2, clearStart, q.start,
      q.writeFifoPop, q.readFifoPop, q.lastWriteComplete, q.lastReadComplete,
      q.issueWriteCommandD2, q.issueReadCommandD2]

/-- Setting the start bit begins a run with the transfer in the registers. -/
theorem begin (q : Quiescent s) (h : Trace) (hi : begins s i = true)
    (hB : 0 < s.blockSize.toNat) (hT : 0 < s.blockTrail.toNat) :
    Conducting (step s i) (h.next s i) 0 0 := by
  have hload : loadStart s i = true := by simp_all [begins]
  have hinit : initializing s i = true := by simp [initializing, hload]
  have hother : ∀ a, a ≠ 0b100#3 → load s i a = false := by
    intro a ha
    have haddr : i.csrAddress = 0b100#3 := by simp_all [loadStart, load]
    simp [load, haddr, ha.symm]
  have htrace : h.next s i = ⟨csrTransfer s, s.blockTrail.toNat, [], [], []⟩ := by
    simp [Trace.next_eq, hi]
  have hring : (step s i).state = 0b001#3 := by
    simp [step, flushStatePipeline, clearStart, q.lastReadComplete, hinit]
  have htransfer : csrTransfer (step s i) = csrTransfer s := by
    simp [csrTransfer, step, hother]
  obtain ⟨hwd1, hws, hrd1, hrs⟩ := q.fsm_step (i := i)
  obtain ⟨hwf, hrf⟩ := q.fifo_step (i := i)
  have hn := (csrTransfer s).blockCount_pos
  rw [htrace]
  constructor
  case start => rw [q.start_step, hi]
  case transfer_eq => exact htransfer
  case trail_eq => simp [step, hother]
  case blockSize_pos => exact hB
  case trail_pos => exact hT
  case writeSide => rw [hwf]; exact .start hwd1 hws
  case readSide => rw [hrf]; exact .start hrd1 hrs
  case writes => rfl
  case reads => rfl
  case order => exact .nil
  case distance => simp [step, q.writeFifoPop, q.readFifoPop, q.blockTrailDistance]
  case within => exact Nat.zero_le _
  case ring => exact .inl hring
  case lastWrite =>
    simp [step, clearLastWriteComplete, setLastWriteComplete, clearStart, q.writeFifoPop,
      q.lastWriteComplete, q.lastReadComplete, hn.ne]
  case lastRead =>
    simp [step, clearLastReadComplete, setLastReadComplete, clearStart, q.readFifoPop,
      q.lastReadComplete, hn.ne]
  case compared => simp [hring]
  case writeD1 => simp [hring]
  case readD1 => simp [hring]
  case writeD2 =>
    simp [step, q.writeFifoPop, setIssueWriteCommandD2, hinit, q.issueWriteCommandD2]
  case readD2 =>
    simp [step, q.readFifoPop, setIssueReadCommandD2, hinit, q.issueReadCommandD2]

end Quiescent

/-- Between runs the registers are at rest and the trace of the last run is complete.  During a
run the registers conduct the transfer of the trace. -/
def Controlled (c : Monitored) : Prop :=
  Quiescent c.hw ∧ (c.trace.Empty ∨ 0 < c.trace.trail ∧ c.trace.Complete) ∨
    ∃ w r, Conducting c.hw c.trace w r

theorem controlled {c : Monitored} (h : controller.Reachable c) : Controlled c := by
  refine h.invariant (I := Controlled) ?_ ?_
  · rintro c ⟨hq, ht⟩
    exact .inl ⟨hq, .inl ht⟩
  · rintro ⟨s, t⟩ i - (⟨q, ht⟩ | ⟨w, r, hc⟩) hi
    · cases hb : begins s i with
      | true => exact .inr ⟨0, 0, q.begin t hb (hi hb).1 (hi hb).2⟩
      | false =>
        have hnext : t.next s i = t := by simp [Trace.next_eq, hb, q.writeFifoPop, q.readFifoPop]
        refine .inl ⟨q.next hb, ?_⟩
        show (t.next s i).Empty ∨ 0 < (t.next s i).trail ∧ (t.next s i).Complete
        rw [hnext]
        exact ht
    · cases hclear : clearStart s i with
      | true =>
        obtain ⟨hq, -, -, -, hnext⟩ := hc.finish hclear
        refine .inl ⟨hq, .inr ?_⟩
        show 0 < (t.next s i).trail ∧ (t.next s i).Complete
        rw [hnext]
        exact ⟨hc.trail_pos, hc.complete hclear⟩
      | false => exact .inr ⟨_, _, hc.next hclear⟩

theorem Controlled.conducting {c : Monitored} (h : Controlled c) (hs : c.hw.start = true) :
    ∃ w r, Conducting c.hw c.trace w r := by
  rcases h with ⟨q, -⟩ | hc
  · rw [q.start] at hs
    contradiction
  · exact hc

theorem Controlled.quiescent {c : Monitored} (h : Controlled c) (hs : c.hw.start = false) :
    Quiescent c.hw := by
  rcases h with ⟨q, -⟩ | ⟨w, r, hc⟩
  · exact q
  · rw [hc.start] at hs
    contradiction

/-- The accepted commands are those of the first blocks. -/
theorem Controlled.writes_eq {c : Monitored} (h : Controlled c) :
    c.trace.writes = (List.range c.trace.writes.length).map fun k =>
      (c.trace.transfer.block k).writeCommand := by
  rcases h with ⟨-, ht | ⟨-, ht⟩⟩ | ⟨w, r, hc⟩
  · simp [ht.writes]
  · rw [ht.writes]
    simp [Transfer.blocks, Function.comp_def]
  · rw [hc.writes]
    simp

theorem Controlled.writes_getElem? {c : Monitored} (h : Controlled c) {k : ℕ}
    (hk : k < c.trace.writes.length) :
    c.trace.writes[k]? = some (c.trace.transfer.block k).writeCommand := by
  rw [h.writes_eq, List.getElem?_map, List.getElem?_range hk]
  rfl

theorem Controlled.reads_eq {c : Monitored} (h : Controlled c) :
    c.trace.reads = (List.range c.trace.reads.length).map fun k =>
      (c.trace.transfer.block k).readCommand := by
  rcases h with ⟨-, ht | ⟨-, ht⟩⟩ | ⟨w, r, hc⟩
  · simp [ht.reads]
  · rw [ht.reads]
    simp [Transfer.blocks, Function.comp_def]
  · rw [hc.reads]
    simp

/-- The start bit is set after a cycle that begins a run or one in which a run goes on. -/
theorem Controlled.start_step {c : Monitored} {i : Inputs} (h : Controlled c)
    (hs : (step c.hw i).start = true) : Quiescent c.hw ∧ begins c.hw i = true ∨
      ∃ w r, Conducting c.hw c.trace w r ∧ RamTestController.clearStart c.hw i = false := by
  rcases h with ⟨q, -⟩ | ⟨w, r, hc⟩
  · rw [q.start_step] at hs
    exact .inl ⟨q, hs⟩
  · refine .inr ⟨w, r, hc, ?_⟩
    by_contra hclear
    rw [(hc.finish (by simpa using hclear)).1.start] at hs
    contradiction

/-- In every reachable state of every run: the accepted commands are first blocks of the transfer,
in order; the early done bit is clear exactly on the last block; the command ports are never valid
at once; no FIFO is popped when empty; and the order of the commands follows the schedule, so that
the trail distance is the number of blocks written and not yet read. -/
theorem command_schedule {c : Monitored} (h : controller.Reachable c) (i : Inputs) :
    c.trace.writes <+: c.trace.transfer.blocks.map Block.writeCommand ∧
      c.trace.reads <+: c.trace.transfer.blocks.map Block.readCommand ∧
      (∀ k, ∀ hk : k < c.trace.reads.length, c.trace.reads[k].earlyDone =
        !decide (k + 1 = c.trace.transfer.blockCount)) ∧
      ¬(srcWriteCommandValid c.hw = true ∧ srcReadCommandValid c.hw = true) ∧
      (writeFifoPop c.hw i = true → c.hw.writeFifo ≠ []) ∧
      (readFifoPop c.hw i = true → c.hw.readFifo ≠ []) ∧
      c.trace.order <+: schedule c.trace.trail c.trace.transfer.blockCount ∧
      c.hw.blockTrailDistance.toNat + c.trace.reads.length = c.trace.writes.length ∧
      c.trace.writes.length ≤ c.trace.reads.length + c.trace.trail := by
  obtain ⟨q, ht⟩ | ⟨w, r, hc⟩ := controlled h
  · have hd := q.blockTrailDistance
    refine ⟨?_, ?_, ?_, by simp [srcWriteCommandValid, q.issueWriteCommandD2],
      by simp [q.writeFifoPop], by simp [q.readFifoPop], ?_, ?_, ?_⟩
    all_goals obtain ht | ⟨-, ht⟩ := ht
    all_goals simp [ht.writes, ht.reads, ht.order, hd, Transfer.blocks, Block.readCommand,
      Transfer.block]
  · refine ⟨?_, ?_, ?_, hc.not_both, fun hp => (hc.writeFifoPop hp).1,
      fun hp => (hc.readFifoPop hp).1, hc.order.isPrefix hc.trail_pos, ?_, ?_⟩
    · rw [hc.writes]
      exact Transfer.range_map_prefix _ _ hc.writeSide.le
    · rw [hc.reads]
      exact Transfer.range_map_prefix _ _ hc.readSide.le
    · simp [hc.reads, Block.readCommand, Transfer.block]
    · simpa [hc.writes, hc.reads] using hc.distance
    · simpa [hc.writes, hc.reads] using hc.within

/-- A cycle without an access to the slave port. -/
def Inputs.idle (writeReady readReady : Bool) : Inputs :=
  ⟨0#3, false, false, 0#32, 0#4, writeReady, readReady, ⟨true, 0#24, 0#64⟩, ⟨true, 0#24, 0#64⟩⟩

/-- A write of `data` to the register at word address `a`. -/
def Inputs.csr (a : BitVec 3) (data : BitVec 32) : Inputs :=
  { Inputs.idle true true with
      csrAddress := a, csrWrite := true, csrWritedata := data, csrByteenable := 0xF#4 }

instance (c : Monitored) (i : Inputs) : Decidable (controller.admits c i) :=
  inferInstanceAs (Decidable (begins c.hw i = true → _))

theorem command_schedule_two_blocks :
    let inputs := [.csr 2#3 2#32, .csr 3#3 0x01000001#32, .csr 4#3 0x01000000#32] ++
      List.replicate 15 (.idle true true)
    let c := run controller.step ⟨reset 10#16 1024#24 1#8, .none⟩ inputs
    c.trace.order = [.write, .read, .write] ∧ c.trace.trail = 1 ∧
      c.trace.transfer.blockCount = 2 ∧
        c.trace.order <+: schedule c.trace.trail c.trace.transfer.blockCount := by
  refine ⟨by decide +kernel, by decide +kernel, by decide +kernel, ?_⟩
  have hinit : controller.init ⟨reset 10#16 1024#24 1#8, .none⟩ :=
    ⟨reset_quiescent 10#16 1024#24 1#8, rfl, rfl, rfl⟩
  have hrun := (Circuit.Reachable.init hinit).run
    ([.csr 2#3 2#32, .csr 3#3 0x01000001#32, .csr 4#3 0x01000000#32] ++
      List.replicate 15 (.idle true true)) (by decide +kernel)
  exact (command_schedule hrun (.idle true true)).2.2.2.2.2.2.1

end AvalonCores.MemoryTester.RamTestController
