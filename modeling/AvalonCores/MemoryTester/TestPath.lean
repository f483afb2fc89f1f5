import Mathlib.Tactic
import AvalonCores.Sync.Channel
import AvalonCores.MemoryTester.Loopback
import AvalonCores.MemoryTester.TwoToOneStMux
import AvalonCores.MemoryTester.OneToTwoStDemux

/-! The path of the words between the pattern generators and the pattern checkers, as in
`memory_tester_system.qsys` with its two subsystems: the timing adapters, the multiplexer, the
writer, the memory, the reader, and the demultiplexer.  An adapter is a channel that keeps the words
in order.  The path is used again and again: whatever tests it has carried out before, one that
starts when it is empty has the words of this test to itself. -/

namespace AvalonCores.MemoryTester.TestPath

open AvalonCores.Sync

variable {b : ℕ} {pw pr : MasterParams b}

structure State (pw pr : MasterParams b) where
  adapterA : List (Word b)
  adapterB : List (Word b)
  mux : TwoToOneStMux.State (8 * 2 ^ b)
  loopback : Loopback.State pw pr
  demux : OneToTwoStDemux.State (8 * 2 ^ b)

/-- The inputs of a cycle: the slave ports; the words of the two sources; whether each adapter
offers a word, and what it shows while it is empty; the memory ports; whether each sink is ready;
and what the FIFOs show while they are empty. -/
structure Inputs (b : ℕ) where
  controllerCsr : CsrAccess
  muxCsr : StreamSelect.Csr
  demuxCsr : StreamSelect.Csr
  srcValidA : Bool
  srcDataA : Word b
  srcValidB : Bool
  srcDataB : Word b
  adapterOffersA : Bool
  adapterOffersB : Bool
  adapterIdleA : Word b
  adapterIdleB : Word b
  writeWaitrequest : Bool
  readWaitrequest : Bool
  returns : Bool
  readdata : Word b
  snkReadyA : Bool
  snkReadyB : Bool
  writeCommandIdle : Block
  readCommandIdle : Block
  writerFifoIdle : Word b
  readerFifoIdle : Word b

variable (s : State pw pr) (i : Inputs b)

def muxInputs : TwoToOneStMux.Inputs (8 * 2 ^ b) where
  csr := i.muxCsr
  snkDataA := ShowAhead.front s.adapterA i.adapterIdleA
  snkValidA := i.adapterOffersA && !s.adapterA.isEmpty
  snkDataB := ShowAhead.front s.adapterB i.adapterIdleB
  snkValidB := i.adapterOffersB && !s.adapterB.isEmpty
  srcReady := PatternWriter.snkReady s.loopback.tester.writer.hw

/-- The demultiplexer with the FIFO of the reader at its input. -/
def demuxInputs : OneToTwoStDemux.Inputs (8 * 2 ^ b) where
  csr := i.demuxCsr
  snkData := ShowAhead.front s.loopback.tester.reader.hw.fifo i.readerFifoIdle
  snkValid := PatternReader.srcValid s.loopback.tester.reader.hw
  srcReadyA := i.snkReadyA
  srcReadyB := i.snkReadyB

/-- The memory returns a word only while one that has been read is pending. -/
def testerInputs : Tester.Inputs b where
  csrAddress := i.controllerCsr.address
  csrRead := i.controllerCsr.read
  csrWrite := i.controllerCsr.write
  csrWritedata := i.controllerCsr.writedata
  csrByteenable := i.controllerCsr.byteenable
  writeWaitrequest := i.writeWaitrequest
  snkData := TwoToOneStMux.srcData s.mux
  snkValid := TwoToOneStMux.srcValid s.mux
  readWaitrequest := i.readWaitrequest
  readdata := i.readdata
  readdatavalid := i.returns && !s.loopback.memory.pending.isEmpty
  srcReady := OneToTwoStDemux.snkReady s.demux (demuxInputs s i)
  writeFifoIdle := i.writeCommandIdle
  readFifoIdle := i.readCommandIdle
  writerFifoIdle := i.writerFifoIdle
  readerFifoIdle := i.readerFifoIdle

def step : State pw pr where
  adapterA := ShowAhead.next s.adapterA (TwoToOneStMux.acceptsA s.mux (muxInputs s i))
    i.srcValidA i.srcDataA
  adapterB := ShowAhead.next s.adapterB (TwoToOneStMux.acceptsB s.mux (muxInputs s i))
    i.srcValidB i.srcDataB
  mux := TwoToOneStMux.step s.mux (muxInputs s i)
  loopback := Loopback.step s.loopback (testerInputs s i)
  demux := OneToTwoStDemux.step s.demux (demuxInputs s i)

/-- Input or output `o` of the path, which is `false` for A and `true` for B. -/
def State.adapter (o : Bool) : List (Word b) := if o then s.adapterB else s.adapterA

def Inputs.srcValid (o : Bool) : Bool := if o then i.srcValidB else i.srcValidA

def Inputs.srcData (o : Bool) : Word b := if o then i.srcDataB else i.srcDataA

/-- No word of input and output `o` is on its way, and the controller has stopped. -/
structure Empty (o : Bool) (s : State pw pr) : Prop where
  adapter : s.adapter o = []
  mux : s.mux.validOut = false
  loopback : Loopback.Drained s.loopback
  demux : OneToTwoStDemux.srcValid s.demux o = false

instance (o : Bool) (s : State pw pr) : Decidable (Empty o s) :=
  decidable_of_iff (_ ∧ _ ∧ _ ∧ _)
    ⟨fun ⟨h1, h2, h3, h4⟩ => ⟨h1, h2, h3, h4⟩, fun ⟨h1, h2, h3, h4⟩ => ⟨h1, h2, h3, h4⟩⟩

/-- After any tests, the path is empty, and input and output `o` are selected. -/
structure Prepared (o : Bool) (s : State pw pr) : Prop where
  earlier : (Loopback.loopback pw pr).Reachable s.loopback
  empty : Empty o s
  inputSelect : s.mux.inputSelect = o
  outputSelect : s.demux.outputSelect = o

/-- Software starts tests in sequential mode with transfers of whole bursts, and does not write the
registers of the multiplexer and the demultiplexer. -/
structure Software (s : State pw pr) (i : Inputs b) : Prop where
  trail : (Tester.tester pw pr).admits s.loopback.tester (testerInputs s i)
  sequential : Tester.Sequential s.loopback.tester (testerInputs s i)
  transfer : Tester.begins s.loopback.tester (testerInputs s i) = true →
    Tester.Transferable pw pr (RamTestController.csrTransfer s.loopback.tester.controller.hw)
  muxCsr : i.muxCsr.write = false
  demuxCsr : i.demuxCsr.write = false

/-- The path from an empty state on, through input and output `o`. -/
def circuit (pw pr : MasterParams b) (o : Bool) : Circuit (State pw pr) (Inputs b) where
  init := Prepared o
  admits := Software
  step := step

variable {s : State pw pr} {i : Inputs b} {o : Bool}

theorem Software.loopback (hi : Software s i) :
    Loopback.Software s.loopback (testerInputs s i) where
  trail := hi.trail
  sequential := hi.sequential
  transfer := hi.transfer
  returns := by
    intro hv
    simp only [testerInputs, Bool.and_eq_true, Bool.not_eq_true', List.isEmpty_eq_false_iff] at hv
    exact hv.2

/-- A cycle without a write to a slave port keeps to the rules in any state. -/
theorem software_of_quiet (hc : i.controllerCsr.write = false) (hm : i.muxCsr.write = false)
    (hd : i.demuxCsr.write = false) : Software s i := by
  have hb : Tester.begins s.loopback.tester (testerInputs s i) = false := by
    simp [Tester.begins, RamTestController.begins, RamTestController.loadStart,
      RamTestController.load, Tester.controllerInputs, testerInputs, hc]
  refine ⟨fun h => ?_, fun h => ?_, fun h => ?_, hm, hd⟩
  · rw [show RamTestController.begins _ _ = false from hb] at h
    contradiction
  · rw [hb] at h
    contradiction
  · rw [hb] at h
    contradiction

instance (s : State pw pr) (i : Inputs b) : Decidable (Software s i) :=
  decidable_of_iff (_ ∧ _ ∧ _ ∧ _ ∧ _)
    ⟨fun ⟨h1, h2, h3, h4, h5⟩ => ⟨h1, h2, h3, h4, h5⟩,
      fun ⟨h1, h2, h3, h4, h5⟩ => ⟨h1, h2, h3, h4, h5⟩⟩

theorem loopback_reachable (h : (circuit pw pr o).Reachable s) :
    (Loopback.loopback pw pr).Reachable s.loopback := by
  induction h with
  | init h => exact h.earlier
  | step _ hi ih => exact ih.step hi.loopback

/-- The selection stays. -/
theorem selected (h : (circuit pw pr o).Reachable s) :
    s.mux.inputSelect = o ∧ s.demux.outputSelect = o := by
  refine h.invariant (I := fun s => s.mux.inputSelect = o ∧ s.demux.outputSelect = o) ?_ ?_
  · exact fun s hs => ⟨hs.inputSelect, hs.outputSelect⟩
  · intro s i _ hs hi
    exact ⟨(StreamSelect.Csr.nextSelect_of_quiet hi.muxCsr _).trans hs.1,
      (StreamSelect.Csr.nextSelect_of_quiet hi.demuxCsr _).trans hs.2⟩

/-- The multiplexer takes the word at input `o`. -/
def accepts (o : Bool) (s : State pw pr) (i : Inputs b) : Bool :=
  if o then TwoToOneStMux.acceptsB s.mux (muxInputs s i)
  else TwoToOneStMux.acceptsA s.mux (muxInputs s i)

theorem adapter_ne_nil (h : accepts o s i = true) : s.adapter o ≠ [] := by
  have hvalid : ((if o then i.adapterOffersB else i.adapterOffersA) &&
      !(s.adapter o).isEmpty) = true := by
    cases o with
    | false =>
      simp only [accepts, TwoToOneStMux.acceptsA, muxInputs, Bool.false_eq_true, if_false,
        Bool.and_eq_true] at h
      exact Bool.and_eq_true _ _ ▸ h.1
    | true =>
      simp only [accepts, TwoToOneStMux.acceptsB, muxInputs, if_true, Bool.and_eq_true] at h
      exact Bool.and_eq_true _ _ ▸ h.1
  simp only [Bool.and_eq_true, Bool.not_eq_true', List.isEmpty_eq_false_iff] at hvalid
  exact hvalid.2

theorem adapter_step : (step s i).adapter o =
    ShowAhead.next (s.adapter o) (accepts o s i) (i.srcValid o) (i.srcData o) := by
  cases o <;> rfl

/-- Only the selected input enters the multiplexer. -/
theorem pipelineEnable_eq (hs : s.mux.inputSelect = o) :
    TwoToOneStMux.pipelineEnable s.mux (muxInputs s i) = accepts o s i := by
  rw [TwoToOneStMux.pipelineEnable_eq]
  cases o <;>
    simp [accepts, TwoToOneStMux.acceptsA, TwoToOneStMux.acceptsB, TwoToOneStMux.snkReadyA,
      TwoToOneStMux.snkReadyB, hs]

theorem acceptedWord_eq (h : accepts o s i = true) (hs : s.mux.inputSelect = o) (idle : Word b) :
    TwoToOneStMux.acceptedWord s.mux (muxInputs s i) = ShowAhead.front (s.adapter o) idle := by
  obtain ⟨x, q, hq⟩ := List.exists_cons_of_ne_nil (adapter_ne_nil h)
  cases o with
  | false =>
    have hA : TwoToOneStMux.acceptsA s.mux (muxInputs s i) = true := h
    have hfront : s.adapterA = x :: q := hq
    rw [TwoToOneStMux.acceptedWord, if_pos hA, hq]
    simp [muxInputs, hfront, ShowAhead.front]
  | true =>
    have hA : TwoToOneStMux.acceptsA s.mux (muxInputs s i) = false := by
      simp [TwoToOneStMux.acceptsA, TwoToOneStMux.snkReadyA, hs]
    have hfront : s.adapterB = x :: q := hq
    rw [TwoToOneStMux.acceptedWord, hA, hq]
    simp [muxInputs, hfront, ShowAhead.front]

/-- The writer takes what the multiplexer delivers. -/
theorem takes_eq : Loopback.takes s.loopback (testerInputs s i) =
    TwoToOneStMux.delivers s.mux (muxInputs s i) := Bool.and_comm _ _

/-- The demultiplexer takes what the reader delivers. -/
theorem delivers_eq : PatternReader.delivers s.loopback.tester.reader.hw
      (Tester.readerInputs s.loopback.tester (testerInputs s i)) =
    OneToTwoStDemux.accepts s.demux (demuxInputs s i) := rfl

section Execution

variable {st : ℕ → State pw pr} {i : ℕ → Inputs b}

/-- The words that source `o` has sent before cycle `t`. -/
def sent (i : ℕ → Inputs b) (o : Bool) (t : ℕ) : List (Word b) :=
  collected (fun t => (i t).srcValid o) (fun t => (i t).srcData o) t

/-- The words that sink `o` has received before cycle `t`. -/
def received (st : ℕ → State pw pr) (i : ℕ → Inputs b) (o : Bool) (t : ℕ) : List (Word b) :=
  OneToTwoStDemux.delivered (fun t => (st t).demux) (fun t => demuxInputs (st t) (i t)) o t

/-- The verdicts on the words that the memory has returned before cycle `t`. -/
def verdicts (st : ℕ → State pw pr) (t : ℕ) : List Bool :=
  (st t).loopback.verdicts.drop (st 0).loopback.verdicts.length

variable (he : (circuit pw pr o).Execution st i)

include he

/-- The words sent have been taken by the writer, or are in the multiplexer or the adapter. -/
theorem sent_eq (t : ℕ) : sent i o t =
    TwoToOneStMux.delivered (fun t => (st t).mux) (fun t => muxInputs (st t) (i t)) t ++
      (st t).mux.output.held ++ (st t).adapter o := by
  have hselected (t : ℕ) := (selected (he.reachable t)).1
  have hadapter : sent i o t = collected (fun t => accepts o (st t) (i t))
      (fun t => ShowAhead.front ((st t).adapter o) 0#_) t ++ (st t).adapter o := by
    refine ShowAhead.conservation he.init.empty.adapter (fun t => adapter_ne_nil) (fun t => ?_) t
    rw [he.step]
    exact adapter_step
  have hmux : OutputStage.Streams (fun t => (st t).mux.output)
      (fun t => (muxInputs (st t) (i t)).srcReady) (fun t => accepts o (st t) (i t))
      (fun t => ShowAhead.front ((st t).adapter o) 0#_) := by
    refine ⟨he.init.empty.mux, fun t h => ?_, fun t => ?_⟩
    · rw [← pipelineEnable_eq (hselected t)] at h
      exact TwoToOneStMux.accepts_of_pipelineEnable h
    · have hstep := TwoToOneStMux.output_step (s := (st t).mux) (i := muxInputs (st t) (i t))
        (StreamSelect.Csr.clearPipeline_eq_false (he.admits t).muxCsr)
      rw [he.step]
      refine hstep.trans ?_
      rw [pipelineEnable_eq (hselected t)]
      cases ha : accepts o (st t) (i t) with
      | false => rfl
      | true => rw [acceptedWord_eq ha (hselected t)]
  rw [hadapter, hmux.conservation t]
  rfl

theorem taken_eq (t : ℕ) : (st t).loopback.taken = (st 0).loopback.taken ++
    TwoToOneStMux.delivered (fun t => (st t).mux) (fun t => muxInputs (st t) (i t)) t := by
  induction t with
  | zero => simp [TwoToOneStMux.delivered, collected]
  | succ t ih =>
    rw [TwoToOneStMux.delivered, collected_succ, ← List.append_assoc, ← TwoToOneStMux.delivered,
      ← ih, he.step, ← takes_eq]
    rfl

theorem delivered_eq (t : ℕ) : (st t).loopback.delivered = (st 0).loopback.delivered ++
    received st i o t ++ ((st t).demux.output o).held := by
  have hselected (t : ℕ) := (selected (he.reachable t)).2
  have hdemux : OutputStage.Streams (fun t => (st t).demux.output o)
      (fun t => OneToTwoStDemux.srcReady (demuxInputs (st t) (i t)) o)
      (fun t => OneToTwoStDemux.accepts (st t).demux (demuxInputs (st t) (i t)))
      (fun t => (demuxInputs (st t) (i t)).snkData) := by
    have henable (t : ℕ) : OneToTwoStDemux.pipelineEnable (st t).demux
        (demuxInputs (st t) (i t)) o =
          OneToTwoStDemux.accepts (st t).demux (demuxInputs (st t) (i t)) := by
      simp [OneToTwoStDemux.pipelineEnable_eq, hselected t]
    refine ⟨he.init.empty.demux, fun t h => ?_, fun t => ?_⟩
    · rw [← henable] at h
      exact OneToTwoStDemux.accepts_of_pipelineEnable h
    · rw [← henable, he.step]
      exact OneToTwoStDemux.output_step
        (StreamSelect.Csr.clearPipeline_eq_false (he.admits t).demuxCsr)
  rw [List.append_assoc, received, OneToTwoStDemux.delivered]
  refine Eq.trans ?_ (congrArg ((st 0).loopback.delivered ++ ·) (hdemux.conservation t))
  induction t with
  | zero => simp [collected]
  | succ t ih =>
    rw [collected_succ, ← List.append_assoc, ← ih, he.step, ← delivers_eq]
    rfl

theorem verdicts_eq (t : ℕ) :
    (st t).loopback.verdicts = (st 0).loopback.verdicts ++ verdicts st t := by
  have hgrow : (st 0).loopback.verdicts <+: (st t).loopback.verdicts := by
    induction t with
    | zero => exact List.prefix_rfl
    | succ t ih =>
      rw [he.step]
      exact ih.trans (List.prefix_append _ _)
  rw [verdicts, List.prefix_iff_eq_append.mp hgrow]

/-- The `k`-th word received is an answer for the `k`-th word sent, which it repeats exactly when
the memory has returned the word last written to its address.  Once the path is empty again, every
word sent has been received. -/
theorem transports (hp : Tester.BurstMasters pw pr) (t : ℕ) :
    (received st i o t).length ≤ (sent i o t).length ∧
      (∀ k < (received st i o t).length, (verdicts st t)[k]? =
        some (decide ((received st i o t)[k]? = (sent i o t)[k]?))) ∧
      (Empty o (st t) → (received st i o t).length = (sent i o t).length ∧
        (verdicts st t).length = (sent i o t).length) := by
  have hinit := loopback_reachable (he.reachable 0)
  have hreach := loopback_reachable (he.reachable t)
  obtain ⟨hle, hwords⟩ := Loopback.answers hp hreach
  have hearlier := Loopback.delivered_length_of_drained hp hinit he.init.empty.loopback
  have hverdicts := Loopback.verdicts_length_of_drained hp hinit he.init.empty.loopback
  have hdelivered := delivered_eq he t
  have htaken := taken_eq he t
  have hsent := sent_eq he t
  have hnew := verdicts_eq he t
  have hdeliveredLength := congrArg List.length hdelivered
  have htakenLength := congrArg List.length htaken
  have hsentLength := congrArg List.length hsent
  have hnewLength := congrArg List.length hnew
  simp only [List.length_append] at hdeliveredLength htakenLength hsentLength hnewLength
  refine ⟨by omega, fun k hk => ?_, fun hempty => ?_⟩
  · have hk' := hwords ((st 0).loopback.verdicts.length + k) (by omega)
    have hreceived : (st t).loopback.delivered[(st 0).loopback.verdicts.length + k]? =
        (received st i o t)[k]? := by
      rw [hdelivered, List.append_assoc, List.getElem?_append_right (by omega), hverdicts,
        Nat.add_sub_cancel_left, List.getElem?_append_left hk]
    have hsource : (st t).loopback.taken[(st 0).loopback.verdicts.length + k]? =
        (sent i o t)[k]? := by
      rw [htaken, List.getElem?_append_right (by omega), hverdicts, hearlier,
        Nat.add_sub_cancel_left, hsent, List.append_assoc, List.getElem?_append_left (by omega)]
    rw [hreceived, hsource, hnew, List.getElem?_append_right (Nat.le_add_right _ _),
      Nat.add_sub_cancel_left] at hk'
    exact hk'
  · have hlength := Loopback.delivered_length_of_drained hp hreach hempty.loopback
    have hlast := Loopback.verdicts_length_of_drained hp hreach hempty.loopback
    have hmux : (st t).mux.output.held = [] := by
      simp [OutputStage.held, TwoToOneStMux.State.output, hempty.mux]
    have hdemux : ((st t).demux.output o).held = [] := by
      simp [OutputStage.held, OneToTwoStDemux.State.output, hempty.demux]
    rw [hmux, hempty.adapter, List.length_nil] at hsentLength
    rw [hdemux, List.length_nil] at hdeliveredLength
    omega

theorem returned_eq (t : ℕ) : (st t).loopback.returned = (st 0).loopback.returned ++
    collected (fun t => (testerInputs (st t) (i t)).readdatavalid) (fun t => (i t).readdata) t := by
  induction t with
  | zero => simp [collected]
  | succ t ih =>
    rw [collected_succ, ← List.append_assoc, ← ih, he.step]
    rfl

/-- What a sink receives has been returned by the memory in this run. -/
theorem exists_returned {t k : ℕ} {w : Word b} (hw : (received st i o t)[k]? = some w) :
    ∃ u < t, (i u).returns = true ∧ w = byteReversal (i u).readdata := by
  have hstart := Loopback.delivered_eq (loopback_reachable (he.reachable 0))
  have hnow := Loopback.delivered_eq (loopback_reachable (he.reachable t))
  rw [he.init.empty.loopback.readerFifo, List.append_nil] at hstart
  rw [delivered_eq he t, returned_eq he t, List.map_append, ← hstart, List.append_assoc,
    List.append_assoc, List.append_cancel_left_eq] at hnow
  have hmem : w ∈ received st i o t := List.mem_of_getElem? hw
  have hreturned := List.mem_append_left (((st t).demux.output o).held ++
    (st t).loopback.tester.reader.hw.fifo) hmem
  rw [hnow, List.mem_map] at hreturned
  obtain ⟨x, hx, rfl⟩ := hreturned
  obtain ⟨n, hn⟩ := List.mem_iff_getElem?.mp hx
  obtain ⟨u, hu, hvalid, -, rfl⟩ := collected_getElem?.mp hn
  simp only [testerInputs, Bool.and_eq_true] at hvalid
  exact ⟨u, hu, hvalid.1, rfl⟩

/-- When the path is empty and `n` words of the sequence `f` have been sent, `n` words have been
received, and they are not those of `f` exactly when the memory has returned a wrong one. -/
theorem verdict (hp : Tester.BurstMasters pw pr) {f : ℕ → Word b} {n t : ℕ}
    (hsent : sent i o t = (List.range n).map f) (hempty : Empty o (st t)) :
    (received st i o t).length = n ∧ (false ∈ verdicts st t ↔
      ∃ k w, (received st i o t)[k]? = some w ∧ w ≠ f k) := by
  obtain ⟨-, hwords, hdone⟩ := transports he hp t
  obtain ⟨hreceived, hverdicts⟩ := hdone hempty
  rw [hsent, List.length_map, List.length_range] at hreceived hverdicts
  have hword (k : ℕ) (hk : k < n) : (sent i o t)[k]? = some (f k) := by simp [hsent, hk]
  refine ⟨hreceived, ?_⟩
  rw [List.mem_iff_getElem?]
  constructor
  · rintro ⟨k, hfalse⟩
    have hk : k < n := hverdicts ▸ (List.getElem?_eq_some_iff.mp hfalse).choose
    obtain ⟨w, hw⟩ : ∃ w, (received st i o t)[k]? = some w :=
      ⟨_, List.getElem?_eq_getElem (hreceived.symm ▸ hk)⟩
    refine ⟨k, w, hw, ?_⟩
    rw [hwords k (hreceived.symm ▸ hk), hword k hk, hw] at hfalse
    simpa using hfalse
  · rintro ⟨k, w, hw, hne⟩
    have hk : k < n := hreceived ▸ (List.getElem?_eq_some_iff.mp hw).choose
    refine ⟨k, ?_⟩
    rw [hwords k (hreceived.symm ▸ hk), hword k hk, hw]
    simpa using hne

end Execution

/-- The path after a reset, with input and output `o` selected. -/
def State.reset (o : Bool) : State pw pr where
  adapterA := []
  adapterB := []
  mux := { TwoToOneStMux.reset with inputSelect := o }
  loopback := .reset
  demux := { OneToTwoStDemux.reset with outputSelect := o }

theorem reset_prepared (o : Bool) : Prepared o (.reset o : State pw pr) where
  earlier := .init Loopback.reset_fresh
  empty := by cases o <;> exact ⟨rfl, rfl, ⟨rfl, rfl, rfl⟩, rfl⟩
  inputSelect := rfl
  outputSelect := rfl

/-- A cycle without stalls in which the slave port of the controller sees `csr`, and the memory may
return a word. -/
def Inputs.cycle (csr : CsrAccess) (returned : Option (Word 2)) : Inputs 2 where
  controllerCsr := csr
  muxCsr := .none
  demuxCsr := .none
  srcValidA := false
  srcDataA := 0#_
  srcValidB := false
  srcDataB := 0#_
  adapterOffersA := true
  adapterOffersB := true
  adapterIdleA := 0#_
  adapterIdleB := 0#_
  writeWaitrequest := false
  readWaitrequest := false
  returns := returned.isSome
  readdata := returned.getD 0#_
  snkReadyA := false
  snkReadyB := false
  writeCommandIdle := ⟨true, 0#24, 0#64⟩
  readCommandIdle := ⟨true, 0#24, 0#64⟩
  writerFifoIdle := 0#_
  readerFifoIdle := 0#_

/-- A test of two words, for which the memory returns `x` and `y`. -/
def Inputs.twoWords (x y : Word 2) : ℕ → Inputs 2
  | 0 => cycle (.store 2#3 8#32) none
  | 1 => cycle (.store 3#3 0x01000008#32) none
  | 2 => cycle (.store 4#3 0x01000000#32) none
  | 19 => cycle .none (some x)
  | 20 => cycle .none (some y)
  | _ => cycle .none none

theorem twoWords_quiet (x y : Word 2) {n : ℕ} (hn : 3 ≤ n) :
    (Inputs.twoWords x y n).controllerCsr.write = false := by
  unfold Inputs.twoWords
  split <;> first | omega | rfl

theorem twoWords_quiet_select (x y : Word 2) (n : ℕ) :
    (Inputs.twoWords x y n).muxCsr = .none ∧ (Inputs.twoWords x y n).demuxCsr = .none := by
  unfold Inputs.twoWords
  split <;> exact ⟨rfl, rfl⟩

end AvalonCores.MemoryTester.TestPath
