import Mathlib.Tactic
import AvalonCores.MemoryTester.Tester

/-! The end of a run in sequential mode.  The controller clears its start bit when the reader is
ready after the last read command, which is not done early: every word that the reader has posted
has then returned, and the controller and the two masters are at rest. -/

namespace AvalonCores.MemoryTester.Tester

open AvalonCores.Sync

variable {b : ℕ} {pw pr : MasterParams b} {s : State pw pr} {i : Inputs b}
  {ok : State pw pr → Inputs b → Prop}

/-- Software tests in sequential mode with blocks that fit both masters, and the memory returns
only what the reader has posted. -/
structure Orderly (s : State pw pr) (i : Inputs b) : Prop where
  sequential : Sequential s i
  writeFits : BlocksFit s i pw
  readFits : BlocksFit s i pr
  returns : ReturnsPosted s i

/-- Every block of the transfer in the registers has been written and read, in the order of the
schedule, and every word posted has returned. -/
structure Finished (s : State pw pr) : Prop where
  transfer : s.controller.trace.transfer = RamTestController.csrTransfer s.controller.hw
  trail : s.controller.trace.trail = s.controller.hw.blockTrail.toNat
  complete : s.controller.trace.Complete
  written : s.written = s.controller.trace.writes.map (words b)
  posted : List.Forall₂ (fun c n => words b c.toCommand ≤ n) s.controller.trace.reads s.posted
  returned : s.reader.ledger.outstanding = 0

/-- The registers between two runs, the ring and the masters included. -/
structure AtRest (s : State pw pr) : Prop where
  quiescent : RamTestController.Quiescent s.controller.hw
  ring : s.controller.hw.state = 0b000#3
  issueWriteCommandD1 : s.controller.hw.issueWriteCommandD1 = false
  issueReadCommandD1 : s.controller.hw.issueReadCommandD1 = false
  writer : s.writer.hw.masterActive = false
  reader : s.reader.hw.masterActive = false

/-- While the start bit is set, a write to the slave port changes no register. -/
theorem step_csrWrite (hs : s.controller.hw.start = true) (write : Bool) (data : BitVec 32)
    (byteenable : BitVec 4) :
    step s { i with csrWrite := write, csrWritedata := data, csrByteenable := byteenable } =
      step s { i with csrWrite := false, csrWritedata := 0#32, csrByteenable := 0#4 } := by
  have hbegins (j : Inputs b) : RamTestController.begins s.controller.hw (controllerInputs s j) =
      false := begins_eq_false hs
  have hregisters : RamTestController.step s.controller.hw (controllerInputs s
        { i with csrWrite := write, csrWritedata := data, csrByteenable := byteenable }) =
      RamTestController.step s.controller.hw (controllerInputs s
        { i with csrWrite := false, csrWritedata := 0#32, csrByteenable := 0#4 }) :=
    RamTestController.step_csrWrite s.controller.hw (controllerInputs s i) hs write data byteenable
  simp only [step, begins, RamTestController.controller, RamTestController.Trace.next_eq, hbegins,
    hregisters]
  rfl

theorem earlyDoneEnable_eq (h : (tester pw pr).Reachable s) :
    s.reader.hw.earlyDoneEnable = s.reader.ledger.command.earlyDone := by
  refine h.invariant
    (I := fun s => s.reader.hw.earlyDoneEnable = s.reader.ledger.command.earlyDone) ?_ ?_
  · rintro s ⟨-, -, hr, -⟩
    rw [hr]
    rfl
  · intro s i _ hearly _
    exact PatternReader.step_earlyDoneEnable hearly

/-- The cycle that clears the start bit. -/
theorem clearing (h : (tester pw pr).Reachable s) (hs : s.controller.hw.start = true)
    (hclears : (step s i).controller.hw.start = false) :
    (∃ w r, RamTestController.Conducting s.controller.hw s.controller.trace w r) ∧
      RamTestController.clearStart s.controller.hw (controllerInputs s i) = true := by
  obtain ⟨w, r, hc⟩ := (controlled h).conducting hs
  refine ⟨⟨w, r, hc⟩, ?_⟩
  by_contra hclear
  have hstart := (hc.next (i := controllerInputs s i) (by simpa using hclear)).start
  rw [show (step s i).controller.hw.start = _ from hstart] at hclears
  contradiction

/-- The command that the reader has done when the start bit is cleared is the last one, and it is
not done early: the reader is ready because no word is on its way. -/
theorem outstanding_eq_zero (hok : ∀ s i, ok s i → Orderly s i)
    (h : ((tester pw pr).restrict ok).Reachable s) (hcomplete : s.controller.trace.Complete)
    (hready : PatternReader.snkCommandReady s.reader.hw = true) :
    s.reader.ledger.outstanding = 0 := by
  obtain ⟨n, hn⟩ := Nat.exists_eq_add_one.mpr s.controller.trace.transfer.blockCount_pos
  have hearly : s.reader.hw.earlyDoneEnable = false := by
    rw [earlyDoneEnable_eq h.of_restrict]
    obtain ⟨hnone, -⟩ | ⟨ds, ns, hreads, -⟩ := posted_log (fun s i hi => (hok s i hi).readFits) h
    · rw [hcomplete.reads] at hnone
      simp [← List.length_eq_zero_iff, hn] at hnone
    · rw [hcomplete.reads, Transfer.blocks, hn, List.range_succ, List.map_append,
        List.map_append] at hreads
      have hlast : (s.controller.trace.transfer.block n).readCommand = s.reader.ledger.command := by
        simpa using (List.append_inj' hreads rfl).2
      rw [← hlast]
      simp [Block.readCommand, Transfer.block, hn]
  have hpending : s.reader.hw.pendingReadsCounter = 0#_ := by
    simpa [PatternReader.snkCommandReady, hearly, idle_of_readerReady hready] using hready
  rw [← (flow (fun s i hi => (hok s i hi).returns) h).pending, hpending, BitVec.toNat_zero]

/-- Between runs no word is on its way. -/
theorem outstanding_at_rest (hok : ∀ s i, ok s i → Orderly s i)
    (h : ((tester pw pr).restrict ok).Reachable s) (hs : s.controller.hw.start = false) :
    s.reader.ledger.outstanding = 0 := by
  refine h.invariant
    (I := fun s => s.controller.hw.start = false → s.reader.ledger.outstanding = 0) ?_ ?_ hs
  · rintro s ⟨-, -, hreset, -⟩ -
    rw [hreset]
    rfl
  · rintro s i hr ih - (hs' : (step s i).controller.hw.start = false)
    have hnone (hidle : s.reader.hw.masterActive = false)
        (hzero : s.reader.ledger.outstanding = 0) :
        (step s i).reader.ledger.outstanding = 0 := by
      have hreads : PatternReader.transferComplete s.reader.hw (readerInputs s i) = false := by
        by_contra hreads
        have hactive := masterActive_of_reads hr.of_restrict (Bool.eq_true_of_not_eq_false hreads)
        rw [hactive] at hidle
        contradiction
      show (s.reader.ledger.next _ _).outstanding = 0
      simp [PatternReader.Ledger.next, hreads, hzero]
    cases hs : s.controller.hw.start with
    | false =>
      have x := exclusive (fun s i hi => (hok s i hi).sequential) hr
      exact hnone (x.rest hs).2 (ih hs)
    | true =>
      obtain ⟨⟨w, r, hc⟩, hclear⟩ := clearing hr.of_restrict hs hs'
      have hready : PatternReader.snkCommandReady s.reader.hw = true := by
        simp_all [RamTestController.clearStart, controllerInputs]
      exact hnone (idle_of_readerReady hready)
        (outstanding_eq_zero hok hr (hc.complete hclear) hready)

/-- In sequential mode, with blocks that fit both masters: the start bit that is set stays so until
every block has been written and read and every word posted has returned, and meanwhile no write to
the slave port changes a register; when it is cleared the controller and both masters are at
rest. -/
theorem end_of_run (h : ((tester pw pr).restrict Orderly).Reachable s) (i : Inputs b) :
    (begins s i = true → (step s i).controller.hw.start = true) ∧
      (s.controller.hw.start = true → (∀ write data byteenable,
        step s { i with csrWrite := write, csrWritedata := data, csrByteenable := byteenable } =
          step s { i with csrWrite := false, csrWritedata := 0#32, csrByteenable := 0#4 }) ∧
        ((step s i).controller.hw.start = false → Finished s ∧ AtRest (step s i))) := by
  refine ⟨fun hb => ?_, fun hs => ⟨step_csrWrite hs, fun hclears => ?_⟩⟩
  · cases hs : s.controller.hw.start with
    | true =>
      rw [begins_eq_false hs] at hb
      contradiction
    | false => exact ((controlled h.of_restrict).quiescent hs).start_step.trans hb
  · obtain ⟨⟨w, r, hc⟩, hclear⟩ := clearing h.of_restrict hs hclears
    obtain ⟨hlast, hready⟩ : s.controller.hw.lastReadComplete = true ∧
        PatternReader.snkCommandReady s.reader.hw = true := by
      simpa [RamTestController.clearStart, controllerInputs] using hclear
    obtain ⟨hquiescent, hring, hd1w, hd1r, -⟩ := hc.finish hclear
    have x := exclusive (fun _ _ hi => hi.sequential) h
    have hcomplete := hc.complete hclear
    have hrest := (x.next_clear hc hclear).rest hclears
    refine ⟨⟨hc.transfer_eq.symm, hc.trail_eq.symm, hcomplete, ?_, ?_, ?_⟩,
      ⟨hquiescent, hring, hd1w, hd1r, hrest.1, hrest.2⟩⟩
    · exact written_of_idle (fun _ _ hi => hi.writeFits) h (x.last hlast)
    · have hfits : ∀ (s : State pw pr) i, Orderly s i → BlocksFit s i pr :=
        fun _ _ hi => hi.readFits
      exact (posted_log hfits h).all ((posting hfits h).done (idle_of_readerReady hready))
    · exact outstanding_eq_zero (fun _ _ hi => hi) h hcomplete hready

instance (s : State pw pr) (i : Inputs b) : Decidable (Orderly s i) :=
  decidable_of_iff (Sequential s i ∧ BlocksFit s i pw ∧ BlocksFit s i pr ∧ ReturnsPosted s i)
    ⟨fun ⟨h1, h2, h3, h4⟩ => ⟨h1, h2, h3, h4⟩, fun ⟨h1, h2, h3, h4⟩ => ⟨h1, h2, h3, h4⟩⟩

theorem end_of_run_two_words :
    let inputs := Inputs.software 8#32 8#24 false ++ List.replicate 16 (.cycle true false) ++
      [.cycle true true, .cycle true true]
    let s := run (tester .shipped .shipped).step .reset inputs
    s.controller.hw.start = true ∧ (step s (.cycle true false)).controller.hw.start = false ∧
      Finished s ∧ AtRest (step s (.cycle true false)) := by
  refine ⟨by decide +kernel, by decide +kernel, ?_⟩
  have hrun := (Circuit.Reachable.init (C := (tester .shipped .shipped).restrict Orderly)
    reset_init).run (Inputs.software 8#32 8#24 false ++ List.replicate 16 (.cycle true false) ++
      [.cycle true true, .cycle true true]) (by decide +kernel)
  exact ((end_of_run hrun (.cycle true false)).2 (by decide +kernel)).2 (by decide +kernel)

/-- With a block of `2 ^ 21` bytes and two words more, for which the length counters of the masters
that `memory_tester_system.qsys` configures are too narrow, the run ends after two words. -/
theorem long_block_ends_early :
    let inputs := Inputs.software 0x200008#32 0x200008#24 false ++
      List.replicate 16 (.cycle true false) ++ [.cycle true true, .cycle true true]
    let s := run (tester .shipped .shipped).step .reset inputs
    ((tester .shipped .shipped).restrict fun s i =>
        Sequential s i ∧ BlocksNonempty s i ∧ ReturnsPosted s i).Reachable s ∧
      s.controller.hw.start = true ∧ (step s (.cycle true false)).controller.hw.start = false ∧
        s.written = [2] ∧ words 2 (s.controller.trace.transfer.block 0).writeCommand = 0x80002 := by
  refine ⟨?_, by decide +kernel, by decide +kernel, by decide +kernel, by decide +kernel⟩
  exact (Circuit.Reachable.init (C := (tester .shipped .shipped).restrict fun s i =>
    Sequential s i ∧ BlocksNonempty s i ∧ ReturnsPosted s i) reset_init).run _ (by decide +kernel)

end AvalonCores.MemoryTester.Tester
