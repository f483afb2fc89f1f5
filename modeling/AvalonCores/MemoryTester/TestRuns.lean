import Mathlib.Tactic
import AvalonCores.MemoryTester.RunCompletion
import AvalonCores.MemoryTester.WholeTransfer

/-! Tests one after the other, in sequential mode, each of a transfer whose blocks consist of whole
bursts: the words of the current test that have been written and read so far, and where the current
ones lie in memory.  Between two tests as many words have been read as have been written. -/

namespace AvalonCores.MemoryTester.Tester

open AvalonCores.Sync

variable {b : ℕ} {pw pr : MasterParams b}

/-- Two masters with bursts, of which the reader realigns its own. -/
structure BurstMasters (pw pr : MasterParams b) : Prop where
  writerBurst : pw.burstEnable = true
  readerBurst : pr.burstEnable = true
  readerRealign : pr.burstRealignEnable = true
  writerMax : 1 < pw.maxBurstCount

/-- What the settings of the test software guarantee of a transfer for both masters. -/
structure Transferable (pw pr : MasterParams b) (t : Transfer) : Prop where
  writer : t.Testable pw
  reader : t.Testable pr

instance (t : Transfer) : Decidable (Transferable pw pr t) :=
  decidable_of_iff (_ ∧ _) ⟨fun ⟨h1, h2⟩ => ⟨h1, h2⟩, fun ⟨h1, h2⟩ => ⟨h1, h2⟩⟩

/-- Software starts each test in sequential mode with a transfer of whole bursts, and the memory
returns only what the reader has posted. -/
structure Testing (s : State pw pr) (i : Inputs b) : Prop where
  sequential : Sequential s i
  transfer : begins s i = true →
    Transferable pw pr (RamTestController.csrTransfer s.controller.hw)
  returns : ReturnsPosted s i

variable {s : State pw pr} {i : Inputs b}

theorem Transferable.fits_writer {t : Transfer} (ht : Transferable pw pr t) {k : ℕ}
    (hk : k < t.blockCount) : Fits pw (t.block k).writeCommand :=
  (ht.writer.wholeBursts hk).short.fits

theorem Transferable.fits_reader {t : Transfer} (ht : Transferable pw pr t) {k : ℕ}
    (hk : k < t.blockCount) : Fits pr (t.block k).writeCommand :=
  (ht.reader.wholeBursts hk).short.fits

theorem Testing.writeFits (hi : Testing s i) : BlocksFit s i pw := fun hb _ hk =>
  (hi.transfer hb).fits_writer hk

theorem Testing.orderly (hi : Testing s i) : Orderly s i :=
  ⟨hi.sequential, hi.writeFits, fun hb _ hk => (hi.transfer hb).fits_reader hk, hi.returns⟩

/-- A run keeps the transfer with which it began. -/
theorem transfer_step (hb : begins s i = false) :
    (step s i).controller.trace.transfer = s.controller.trace.transfer := by
  have hb' : RamTestController.begins s.controller.hw (controllerInputs s i) = false := hb
  show (s.controller.trace.next s.controller.hw (controllerInputs s i)).transfer = _
  simp [RamTestController.Trace.next_eq, hb']

namespace Tests

variable (h : ((tester pw pr).restrict Testing).Reachable s)

include h

theorem transferable_of_start (hs : s.controller.hw.start = true) :
    Transferable pw pr s.controller.trace.transfer := by
  refine start_invariant (P := fun c => Transferable pw pr c.trace.transfer) ?_ ?_ h hs
  · intro s i _ hb hi
    have htransfer : (s.controller.trace.next s.controller.hw (controllerInputs s i)).transfer =
        RamTestController.csrTransfer s.controller.hw := by
      simp [RamTestController.Trace.next_eq, show RamTestController.begins _ _ = true from hb]
    show Transferable pw pr (s.controller.trace.next _ _).transfer
    rw [htransfer]
    exact hi.transfer hb
  · intro s i w r hc ht
    show Transferable pw pr (s.controller.trace.next _ _).transfer
    rw [hc.next_trace.1]
    exact ht

/-- The transfer of a run whose first command has been accepted. -/
theorem transferable (hw : s.controller.trace.writes ≠ []) :
    Transferable pw pr s.controller.trace.transfer := by
  refine h.invariant (I := fun s => s.controller.trace.writes ≠ [] →
    Transferable pw pr s.controller.trace.transfer) ?_ ?_ hw
  · rintro s ⟨⟨-, he⟩, -⟩ hw
    exact absurd he.writes hw
  · rintro s i hr ih - (hw : (step s i).controller.trace.writes ≠ [])
    show Transferable pw pr (step s i).controller.trace.transfer
    cases hb : begins s i with
    | true => exact absurd (logs_begin hb).1 hw
    | false =>
      rw [transfer_step hb]
      rw [(write_logs_step hb).1] at hw
      cases hl : loadsWrite s i with
      | true => exact transferable_of_start hr (writeCommand_eq hr.of_restrict hl).1
      | false => exact ih (by simpa [hl] using hw)

theorem reads_length_le :
    s.controller.trace.reads.length ≤ s.controller.trace.writes.length := by
  obtain ⟨-, he | ⟨-, hcomplete⟩⟩ | ⟨w, r, hc⟩ := controlled h.of_restrict
  · simp [he.writes, he.reads]
  · simp [hcomplete.writes, hcomplete.reads]
  · simpa [hc.writes, hc.reads] using hc.read_le

theorem writes_length_le (hw : s.controller.trace.writes ≠ []) :
    s.controller.trace.writes.length ≤ s.controller.trace.transfer.blockCount := by
  obtain ⟨-, he | ⟨-, hcomplete⟩⟩ | ⟨w, r, hc⟩ := controlled h.of_restrict
  · exact absurd he.writes hw
  · simp [hcomplete.writes, Transfer.blocks_length]
  · simpa [hc.writes] using hc.writeSide.le

theorem sequentially : Exclusive s := exclusive (fun _ _ hi => hi.sequential) h

theorem wholeWriter_reachable : (PatternWriter.wholeWriter pw).Reachable s.writer := by
  refine h.map (C := (tester pw pr).restrict Testing) (D := PatternWriter.wholeWriter pw)
    (f := State.writer) (g := writerInputs) (fun s (hs : (tester pw pr).init s) => hs.2.1) ?_
    fun _ _ _ _ => rfl
  intro s i hr _
  have hwhole (hl : loadsWrite s i = true) :
      WholeBursts pw (writerInputs s i).snkCommandData := by
    obtain ⟨hs, hlt, hcommand⟩ := writeCommand_eq hr.of_restrict hl
    rw [hcommand]
    exact (transferable_of_start hr hs).writer.wholeBursts hlt
  exact ⟨fun hl => (hwhole hl).short.fits, hwhole⟩

theorem wholeReader_reachable : (PatternReader.wholeReader pr).Reachable s.reader := by
  refine h.map (C := (tester pw pr).restrict Testing) (D := PatternReader.wholeReader pr)
    (f := State.reader) (g := readerInputs) (fun s (hs : (tester pw pr).init s) => hs.2.2.1) ?_
    fun _ _ _ _ => rfl
  intro s i hr _
  have hwhole (hl : loadsRead s i = true) :
      WholeBursts pr (readerInputs s i).snkCommandData.toCommand := by
    obtain ⟨hs, hlt, hle, hcommand⟩ := readCommand_eq hr.of_restrict hl
    rw [hcommand]
    exact (transferable_of_start hr hs).reader.wholeBursts (by omega)
  exact ⟨fun hl => (hwhole hl).short.fits, hwhole⟩

theorem writer_idle_of_none (hw : s.controller.trace.writes = []) :
    s.writer.hw.masterActive = false := by
  refine h.invariant (I := fun s => s.controller.trace.writes = [] →
    s.writer.hw.masterActive = false) ?_ ?_ hw
  · rintro s ⟨-, hreset, -⟩ -
    rw [hreset]
    rfl
  · rintro s i hr ih - (hnone : (step s i).controller.trace.writes = [])
    have hidle : loadsWrite s i = false ∧ s.writer.hw.masterActive = false := by
      cases hs : s.controller.hw.start with
      | false =>
        have q := (controlled hr.of_restrict).quiescent hs
        exact ⟨loadsWrite_eq.trans q.writeFifoPop, ((sequentially hr).rest hs).1⟩
      | true =>
        have hlogs := (write_logs_step (i := i) (begins_eq_false hs)).1
        rw [hnone] at hlogs
        cases hl : loadsWrite s i with
        | true => simp [hl] at hlogs
        | false => exact ⟨rfl, ih (by simpa [hl] using hlogs.symm)⟩
    exact PatternWriter.step_masterActive hidle.2 hidle.1

/-- The words written: those of the blocks before the newest one, and some of this one. -/
theorem written_eq : s.controller.trace.writes = [] ∧ s.written = [] ∨
    ∃ k < s.controller.trace.transfer.blockCount, s.controller.trace.writes.length = k + 1 ∧
      s.writer.ledger.command = (s.controller.trace.transfer.block k).writeCommand ∧
        s.written ≠ [] ∧ s.written.sum =
          s.controller.trace.transfer.wordsBefore b k + s.writer.ledger.accepted := by
  obtain hnone | ⟨k, hlen, hc, hne, hsum⟩ :=
    (written_log (fun _ _ hi => hi.writeFits) h).sum_eq (controlled h.of_restrict).writes_eq
  · exact .inl hnone
  · have hwrites : s.controller.trace.writes ≠ [] := by
      rw [← List.length_pos_iff]
      omega
    have hle := writes_length_le h hwrites
    rw [(transferable h hwrites).writer.sum_words (by omega)] at hsum
    exact .inr ⟨k, by omega, hlen, hc, hne, hsum⟩

/-- A cycle in which the memory port accepts a read burst. -/
theorem reader_active (hr : reads s i = true) :
    s.controller.hw.start = true ∧ s.controller.trace.reads ≠ [] := by
  obtain ⟨hs, hpos⟩ := running_of_active h.of_restrict (masterActive_of_reads h.of_restrict hr)
  exact ⟨hs, List.length_pos_iff.mp hpos⟩

variable (hp : BurstMasters pw pr)

include hp

theorem writing : PatternWriter.Writing s.writer :=
  PatternWriter.writing hp.writerBurst hp.writerMax (wholeWriter_reachable h)

theorem reading : PatternReader.Reading s.reader.hw s.reader.ledger :=
  PatternReader.reading_of_whole hp.readerBurst hp.readerRealign (wholeReader_reachable h)

/-- The words posted: those of the blocks before the one that is read, and some of this one. -/
theorem posted_eq : s.controller.trace.reads = [] ∧ s.posted = [] ∨
    ∃ k < s.controller.trace.transfer.blockCount, s.controller.trace.reads.length = k + 1 ∧
      s.reader.ledger.command = (s.controller.trace.transfer.block k).readCommand ∧
        s.posted ≠ [] ∧ s.posted.sum =
          s.controller.trace.transfer.wordsBefore b k + s.reader.ledger.posted := by
  have hlog : Logged (fun (c : ReadCommand) n => n = words b c.toCommand) _ _ _ _ :=
    posted_logged (fun s hs => (reading hs hp).done) h
  obtain hnone | ⟨k, hlen, hc, hne, hsum⟩ := hlog.sum_eq (controlled h.of_restrict).reads_eq
  · exact .inl hnone
  · have hle := reads_length_le h
    have hwrites : s.controller.trace.writes ≠ [] := by
      rw [← List.length_pos_iff]
      omega
    have hle' := writes_length_le h hwrites
    rw [show ((List.range k).map fun j =>
        words b (s.controller.trace.transfer.block j).readCommand.toCommand).sum = _ from
      (transferable h hwrites).writer.sum_words (by omega)] at hsum
    exact .inr ⟨k, by omega, hlen, hc, hne, hsum⟩

/-- A cycle in which the memory port accepts a word. -/
theorem writer_active (hw : writes s i = true) : s.writer.hw.masterActive = true ∧
    s.controller.hw.start = true ∧ s.controller.trace.writes ≠ [] := by
  have hactive : s.writer.hw.masterActive = true := by
    by_contra hidle
    have := (writing h hp).counting.write_eq_false (by simpa using hidle)
    simp [writes, PatternWriter.transferComplete, this] at hw
  refine ⟨hactive, ?_, fun hnone => ?_⟩
  · by_contra hs
    rw [((sequentially h).rest (by simpa using hs)).1] at hactive
    contradiction
  · rw [writer_idle_of_none h hnone] at hactive
    contradiction

theorem written_step (hb : begins s i = false) :
    (step s i).written.sum = s.written.sum + (writes s i).toNat := by
  have hzero : (if loadsWrite s i then [0] else []).sum = 0 := by split <;> rfl
  rw [(write_logs_step hb).2, List.sum_append, hzero, Nat.add_zero]
  cases hw : writes s i with
  | false => rfl
  | true =>
    obtain ⟨hnone, -⟩ | ⟨k, -, -, -, hne, -⟩ := written_eq h
    · exact absurd hnone (writer_active h hp hw).2.2
    · exact sum_addLast 1 hne

theorem posted_step (hb : begins s i = false) : (step s i).posted.sum =
    s.posted.sum + if reads s i then s.reader.hw.burstCountD1.toNat else 0 := by
  have hzero : (if loadsRead s i then [0] else []).sum = 0 := by split <;> rfl
  rw [(read_logs_step hb).2, List.sum_append, hzero, Nat.add_zero]
  cases hr : reads s i with
  | false => rfl
  | true =>
    obtain ⟨hnone, -⟩ | ⟨k, -, -, -, hne, -⟩ := posted_eq h hp
    · exact absurd hnone (reader_active h hr).2
    · exact sum_addLast _ hne

/-- Every block handed to the reader has been written. -/
theorem reads_written :
    s.controller.trace.transfer.wordsBefore b s.controller.trace.reads.length ≤
      s.written.sum := by
  refine h.invariant (I := fun s =>
    s.controller.trace.transfer.wordsBefore b s.controller.trace.reads.length ≤
      s.written.sum) ?_ ?_
  · rintro s ⟨⟨-, he⟩, -⟩
    simp [he.reads, Transfer.Testable.wordsBefore_zero]
  · rintro s i hr ih -
    show (step s i).controller.trace.transfer.wordsBefore b
      (step s i).controller.trace.reads.length ≤ (step s i).written.sum
    cases hb : begins s i with
    | true => simp [(logs_begin hb).2.1, Transfer.Testable.wordsBefore_zero]
    | false =>
      rw [transfer_step hb, (read_logs_step hb).1, List.length_append, written_step hr hp hb]
      cases hl : loadsRead s i with
      | false => simpa using ih.trans (Nat.le_add_right _ _)
      | true =>
        have hidle : s.writer.hw.masterActive = false := by
          apply (sequentially hr).readD2
          simp_all [loadsRead_eq, RamTestController.readFifoPop]
        obtain ⟨hs, hlt, -⟩ := readCommand_eq hr.of_restrict hl
        obtain ⟨hnone, -⟩ | ⟨k, hk, hlen, hc, -, hsum⟩ := written_eq hr
        · simp [hnone] at hlt
        · rw [(writing hr hp).counting.accepted_eq hidle, hc,
            ← (transferable_of_start hr hs).writer.wordsBefore_succ hk, ← hlen] at hsum
          rw [hsum]
          refine (Transfer.Testable.wordsBefore_mono b _ ?_).trans (Nat.le_add_right _ _)
          simpa using hlt

theorem posted_le : s.posted.sum ≤ s.written.sum := by
  refine le_trans ?_ (reads_written h hp)
  obtain ⟨-, hposted⟩ | ⟨k, hk, hlen, hc, -, hsum⟩ := posted_eq h hp
  · simp [hposted]
  · have hwrites : s.controller.trace.writes ≠ [] := by
      rw [← List.length_pos_iff]
      have := reads_length_le h
      omega
    have hle := (reading h hp).posted_le
    rw [hc] at hle
    rw [hsum, hlen, (transferable h hwrites).writer.wordsBefore_succ hk]
    exact Nat.add_le_add_left hle _

/-- The first beat of a write burst goes to the address of the next word. -/
theorem write_address (hw : writes s i = true) (hl : s.writer.ledger.left = 0) :
    s.writer.hw.transferAddress.toNat =
      s.controller.trace.transfer.baseAddress.toNat + s.written.sum * 2 ^ b := by
  obtain ⟨hactive, -, hwrites⟩ := writer_active h hp hw
  have ht := transferable h hwrites
  have hwrite : s.writer.hw.write = true := by simp_all [writes, PatternWriter.transferComplete]
  obtain ⟨hnone, -⟩ | ⟨k, hk, -, hc, -, hsum⟩ := written_eq h
  · exact absurd hnone hwrites
  · have hcount := (writing h hp).counting
    have hlt := hcount.accepted_lt hactive
    have hbase : s.writer.hw.baseAddress =
        (commandAddress b s.writer.ledger.command).setWidth _ := by
      cases hcount with
      | idle inactive => simp [hactive] at inactive
      | loaded _ _ _ _ _ base | moving _ _ _ _ base => exact base
    rw [hc] at hlt hbase
    cases (writing h hp).bursting with
    | idle inactive => simp [hactive] at inactive
    | waiting _ write => simp [hwrite] at write
    | posting _ _ counter _ beat =>
      rcases beat with ⟨-, -, haddress⟩ | hleft
      · rw [haddress, hbase, ht.writer.busAddress_eq hk hlt, hsum]
      · omega

/-- A read burst goes to the address of the next word. -/
theorem read_address (hr : reads s i = true) :
    s.reader.hw.transferAddress.toNat =
      s.controller.trace.transfer.baseAddress.toNat + s.posted.sum * 2 ^ b := by
  have hread : s.reader.hw.read = true := by simp_all [reads, PatternReader.transferComplete]
  obtain ⟨hs, hreads⟩ := reader_active h hr
  have ht := transferable_of_start h hs
  obtain ⟨hnone, -⟩ | ⟨k, hk, -, hc, -, hsum⟩ := posted_eq h hp
  · exact absurd hnone hreads
  · cases reading h hp with
    | idle _ read | loaded _ read => simp [hread] at read
    | moving _ _ _ _ base _ some within _ address =>
      rw [hc] at base within
      rw [address, base, hsum]
      exact ht.reader.busAddress_eq hk (show s.reader.ledger.posted <
        words b (s.controller.trace.transfer.block k).readCommand.toCommand by omega)

/-- A controller that has stopped after the first command has tested the whole transfer. -/
theorem tested (hs : s.controller.hw.start = false) (hw : s.controller.trace.writes ≠ []) :
    s.posted.sum = s.controller.trace.transfer.transferLength.toNat / 2 ^ b := by
  have hcomplete : s.controller.trace.Complete := by
    obtain ⟨-, he | ⟨-, hcomplete⟩⟩ | ⟨w, r, hc⟩ := controlled h.of_restrict
    · exact absurd he.writes hw
    · exact hcomplete
    · rw [hc.start] at hs
      contradiction
  have ht := transferable h hw
  have hlength : s.controller.trace.reads.length = s.controller.trace.transfer.blockCount := by
    rw [hcomplete.reads, List.length_map, Transfer.blocks_length]
  have hn := s.controller.trace.transfer.blockCount_pos
  have hidle := ((sequentially h).rest hs).2
  obtain ⟨hnone, -⟩ | ⟨k, hk, hlen, hc, -, hsum⟩ := posted_eq h hp
  · simp [← hlength, hnone] at hn
  · rw [hsum, (reading h hp).done hidle, hc, ← ht.writer.wordsBefore_blockCount, ← hlength, hlen]
    exact (ht.writer.wordsBefore_succ hk).symm

/-- The blocks of a transfer have no more words than the transfer. -/
theorem written_le (hw : s.controller.trace.writes ≠ []) :
    s.written.sum ≤ s.controller.trace.transfer.transferLength.toNat / 2 ^ b := by
  have ht := transferable h hw
  obtain ⟨hnone, -⟩ | ⟨k, hk, -, hc, -, hsum⟩ := written_eq h
  · exact absurd hnone hw
  · have hle : s.writer.ledger.accepted ≤
        words b (s.controller.trace.transfer.block k).writeCommand := by
      rw [← hc]
      cases ha : s.writer.hw.masterActive with
      | false => exact ((writing h hp).counting.accepted_eq ha).le
      | true => exact ((writing h hp).counting.accepted_lt ha).le
    rw [hsum, ← ht.writer.wordsBefore_blockCount]
    refine (Nat.add_le_add_left hle _).trans ?_
    rw [← ht.writer.wordsBefore_succ hk]
    exact Transfer.Testable.wordsBefore_mono b _ hk

/-- Between two tests every word that has been written has been read. -/
theorem written_eq_posted (hs : s.controller.hw.start = false) :
    s.written.sum = s.posted.sum := by
  by_cases hw : s.controller.trace.writes = []
  · obtain ⟨-, hwritten⟩ | ⟨k, -, hlen, -⟩ := written_eq h
    · have hle := posted_le h hp
      simp only [hwritten, List.sum_nil] at hle ⊢
      omega
    · simp [hw] at hlen
  · refine le_antisymm ?_ (posted_le h hp)
    rw [tested h hp hs hw]
    exact written_le h hp hw

/-- Between two tests no burst is under way at the memory port of the writer. -/
theorem left_at_rest (hs : s.controller.hw.start = false) : s.writer.ledger.left = 0 := by
  have hidle := ((sequentially h).rest hs).1
  cases (writing h hp).bursting with
  | idle _ _ left => exact left
  | waiting active | posting active => simp [hidle] at active

end Tests

end AvalonCores.MemoryTester.Tester
