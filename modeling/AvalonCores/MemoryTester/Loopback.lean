import Mathlib.Tactic
import AvalonCores.Sync.Comparison
import AvalonCores.MemoryTester.TestRuns
import AvalonCores.MemoryTester.Memory

/-! The controller and the two masters with a memory, as a channel from the stream of the writer to
the stream of the reader, over any history of tests.  Each word that the memory returns is the
answer for the word that was taken from the stream at the same position: none is lost, repeated or
overtaken, from one test to the next. -/

namespace AvalonCores.MemoryTester.Loopback

open AvalonCores.Sync

variable {b : ℕ} {pw pr : MasterParams b}

/-- The words that the writer has `taken` from its stream and those `stored` at its memory port, in
all tests, of which the finished tests have stored `earlier` words.  For each word that the memory
has returned, a verdict: it is the one last written to its address. -/
structure State (pw pr : MasterParams b) where
  tester : Tester.State pw pr
  memory : Memory b
  taken : List (Word b)
  stored : List (Word b)
  earlier : ℕ
  verdicts : List Bool

variable (s : State pw pr) (i : Tester.Inputs b)

def writerInputs : PatternWriter.Inputs b := Tester.writerInputs s.tester i

def memoryInputs : Memory.Inputs b where
  write := Tester.writes s.tester i
  writeAddress := s.tester.writer.hw.transferAddress.toNat
  writeBurstcount := s.tester.writer.hw.burstCountD1.toNat
  writedata := PatternWriter.masterWritedata s.tester.writer.hw (writerInputs s i)
  read := Tester.reads s.tester i
  readAddress := s.tester.reader.hw.transferAddress.toNat
  readBurstcount := s.tester.reader.hw.burstCountD1.toNat
  readdatavalid := i.readdatavalid
  readdata := i.readdata

/-- The writer takes a word from its stream. -/
def takes : Bool := PatternWriter.accepts s.tester.writer.hw (writerInputs s i)

def step : State pw pr where
  tester := (Tester.tester pw pr).step s.tester i
  memory := Memory.step s.memory (memoryInputs s i)
  taken := s.taken ++ if takes s i then [i.snkData] else []
  stored := s.stored ++ if Tester.writes s.tester i then
      [PatternWriter.masterWritedata s.tester.writer.hw (writerInputs s i)]
    else []
  earlier := if Tester.begins s.tester i then s.earlier + s.tester.written.sum else s.earlier
  verdicts := s.verdicts ++
    if i.readdatavalid then [!Memory.differs s.memory (memoryInputs s i)] else []

/-- Software starts each test in sequential mode with a transfer of whole bursts, and the memory
returns a word only while one that has been read is pending. -/
structure Software (s : State pw pr) (i : Tester.Inputs b) : Prop where
  trail : (Tester.tester pw pr).admits s.tester i
  sequential : Tester.Sequential s.tester i
  transfer : Tester.begins s.tester i = true →
    Tester.Transferable pw pr (RamTestController.csrTransfer s.tester.controller.hw)
  returns : i.readdatavalid = true → s.memory.pending ≠ []

/-- The composition after a reset, with any words in the memory. -/
structure Fresh (s : State pw pr) : Prop where
  tester : (Tester.tester pw pr).init s.tester
  left : s.memory.left = 0
  pending : s.memory.pending = []
  taken : s.taken = []
  stored : s.stored = []
  earlier : s.earlier = 0
  verdicts : s.verdicts = []

def loopback (pw pr : MasterParams b) : Circuit (State pw pr) (Tester.Inputs b) where
  init := Fresh
  admits := Software
  step := step

/-- The words that the source port of the reader has delivered, in all tests. -/
def State.delivered : List (Word b) := s.tester.reader.ledger.delivered

/-- The words that the memory has returned, in all tests. -/
def State.returned : List (Word b) := s.tester.reader.ledger.returned

/-- The transfer of the current test. -/
def State.transfer : Transfer := s.tester.controller.trace.transfer

/-- The controller has stopped, and no word is in a FIFO. -/
structure Drained (s : State pw pr) : Prop where
  controller : s.tester.controller.hw.start = false
  writerFifo : s.tester.writer.hw.fifo = []
  readerFifo : s.tester.reader.hw.fifo = []

instance (s : State pw pr) : Decidable (Drained s) :=
  decidable_of_iff (_ ∧ _ ∧ _) ⟨fun ⟨h1, h2, h3⟩ => ⟨h1, h2, h3⟩, fun ⟨h1, h2, h3⟩ => ⟨h1, h2, h3⟩⟩

variable {s : State pw pr} {i : Tester.Inputs b}

theorem pending_step : (step s i).memory.pending =
    (if i.readdatavalid then s.memory.pending.tail else s.memory.pending) ++
      if Tester.reads s.tester i then
        Memory.burstAddresses b s.tester.reader.hw.transferAddress.toNat
          s.tester.reader.hw.burstCountD1.toNat
      else [] := rfl

theorem outstanding_step : (step s i).tester.reader.ledger.outstanding =
    (if Tester.reads s.tester i then
        s.tester.reader.ledger.outstanding + s.tester.reader.hw.burstCountD1.toNat
      else s.tester.reader.ledger.outstanding) - i.readdatavalid.toNat := rfl

theorem returned_step : (step s i).returned =
    s.returned ++ if i.readdatavalid then [i.readdata] else [] := rfl

theorem outstanding_eq (h : (loopback pw pr).Reachable s) :
    s.tester.reader.ledger.outstanding = s.memory.pending.length := by
  refine h.invariant
    (I := fun s => s.tester.reader.ledger.outstanding = s.memory.pending.length) ?_ ?_
  · intro s hs
    rw [hs.pending, hs.tester.2.2.1]
    rfl
  · intro s i _ ih hi
    show (step s i).tester.reader.ledger.outstanding = (step s i).memory.pending.length
    rw [outstanding_step, pending_step, ih, List.length_append]
    cases hv : i.readdatavalid with
    | false => split <;> simp [Memory.burstAddresses]
    | true =>
      have := List.length_pos_iff.mpr (hi.returns hv)
      split
      · simp [Memory.burstAddresses]
        omega
      · simp

theorem Software.testing (hi : Software s i) (h : (loopback pw pr).Reachable s) :
    Tester.Testing s.tester i := by
  refine ⟨hi.sequential, hi.transfer, fun hvalid => ?_⟩
  rw [outstanding_eq h]
  exact List.length_pos_iff.mpr (hi.returns hvalid)

theorem tester_reachable (h : (loopback pw pr).Reachable s) :
    ((Tester.tester pw pr).restrict Tester.Testing).Reachable s.tester :=
  h.map (C := loopback pw pr) (D := (Tester.tester pw pr).restrict Tester.Testing)
    (f := State.tester) (g := fun _ i => i) (fun _ (hs : Fresh _) => hs.tester)
    (fun _ _ hr (hi : Software _ _) => ⟨hi.trail, hi.testing hr⟩) fun _ _ _ _ => rfl

/-- The start bit is clear in the cycle that sets it. -/
theorem stopped_of_begins (hb : Tester.begins s.tester i = true) :
    s.tester.controller.hw.start = false := by
  by_contra hs
  rw [Tester.begins_eq_false (by simpa using hs)] at hb
  contradiction

section Tests

variable (hp : Tester.BurstMasters pw pr) (h : (loopback pw pr).Reachable s)

include hp h

/-- The words stored are those taken from the stream, but for the words in the FIFO of the writer.
Those of the current test lie in memory from the base address on. -/
structure Stored (s : State pw pr) : Prop where
  stream : s.stored.map byteReversal ++ s.tester.writer.hw.fifo = s.taken
  count : s.stored.length = s.earlier + s.tester.written.sum
  left : s.memory.left = s.tester.writer.ledger.left
  next : s.memory.left ≠ 0 →
    s.memory.next = s.transfer.baseAddress.toNat + s.tester.written.sum * 2 ^ b
  cells : ∀ j < s.tester.written.sum, s.stored[s.earlier + j]? =
    some (s.memory.cells (s.transfer.baseAddress.toNat + j * 2 ^ b))

/-- The stream through the writer loses no word. -/
theorem Stored.stream_step (hs : Stored s) :
    (step s i).stored.map byteReversal ++ (step s i).tester.writer.hw.fifo =
      (step s i).taken := by
  have hwriting := Tester.Tests.writing (tester_reachable h) hp
  have hread : PatternWriter.fifoRead s.tester.writer.hw (writerInputs s i) =
      Tester.writes s.tester i := PatternWriter.fifoRead_eq _ _
  have hhistory := ShowAhead.next_history hs.stream
    (hwriting.stocked.fifo_ne_nil hwriting.counting hwriting.bursting (i := writerInputs s i))
    (takes s i) i.snkData (writerInputs s i).fifoIdle
  rw [hread] at hhistory
  have hmap : (step s i).stored.map byteReversal = s.stored.map byteReversal ++
      if Tester.writes s.tester i then
        [ShowAhead.front s.tester.writer.hw.fifo (writerInputs s i).fifoIdle]
      else [] := by
    show (s.stored ++ _).map byteReversal = _
    rw [List.map_append]
    split <;> simp [PatternWriter.masterWritedata, byteReversal_byteReversal]
  have hfifo : (step s i).tester.writer.hw.fifo = ShowAhead.next s.tester.writer.hw.fifo
      (Tester.writes s.tester i) (takes s i) i.snkData := by
    rw [← hread]
    rfl
  rw [hmap, hfifo, hhistory]
  rfl

/-- A cycle in which the memory accepts a word: it goes to the next address. -/
theorem Stored.cells_step (hs : Stored s) (hw : Tester.writes s.tester i = true) :
    (step s i).memory.cells = Function.update s.memory.cells
        (s.transfer.baseAddress.toNat + s.tester.written.sum * 2 ^ b)
        (PatternWriter.masterWritedata s.tester.writer.hw (writerInputs s i)) ∧
      (step s i).memory.next =
        s.transfer.baseAddress.toNat + (s.tester.written.sum + 1) * 2 ^ b := by
  have haddress : Memory.beatAddress s.memory (memoryInputs s i) =
      s.transfer.baseAddress.toNat + s.tester.written.sum * 2 ^ b := by
    rw [Memory.beatAddress]
    split
    · rename_i hzero
      exact Tester.Tests.write_address (tester_reachable h) hp hw (hs.left ▸ hzero)
    · rename_i hne
      exact hs.next hne
  rw [Nat.add_mul, one_mul, ← Nat.add_assoc, ← haddress]
  simp [step, Memory.step, memoryInputs, hw]

omit hp h in
theorem left_step (hs : Stored s) :
    (step s i).memory.left = (step s i).tester.writer.ledger.left := by
  show (Memory.step s.memory (memoryInputs s i)).left =
    (s.tester.writer.ledger.next s.tester.writer.hw (writerInputs s i)).left
  simp only [Memory.step, memoryInputs, PatternWriter.Ledger.next, hs.left]
  rfl

/-- A cycle that begins a test: no burst is under way. -/
theorem Stored.next_begin (hs : Stored s) (hb : Tester.begins s.tester i = true) :
    Stored (step s i) := by
  have hr := tester_reachable h
  have hstop := stopped_of_begins hb
  have hnone : Tester.writes s.tester i = false := by
    by_contra hw
    have hstart := (Tester.Tests.writer_active hr hp (i := i) (by simpa using hw)).2.1
    rw [hstop] at hstart
    contradiction
  have hwritten : (step s i).tester.written = [] := (Tester.logs_begin hb).2.2.1
  have hstored : (step s i).stored = s.stored := by simp [step, hnone]
  have hearlier : (step s i).earlier = s.earlier + s.tester.written.sum := by simp [step, hb]
  have hleft : (step s i).memory.left = 0 := by
    rw [← Tester.Tests.left_at_rest hr hp hstop, ← hs.left]
    simp [step, Memory.step, memoryInputs, hnone]
  refine ⟨hs.stream_step hp h, ?_, left_step hs, fun hne => absurd hleft hne, ?_⟩
  · rw [hstored, hearlier, hwritten, hs.count]
    rfl
  · simp [hwritten]

/-- A cycle within a test. -/
theorem Stored.next_within (hs : Stored s) (hb : Tester.begins s.tester i = false) :
    Stored (step s i) := by
  have hr := tester_reachable h
  have hwritten : (step s i).tester.written.sum = s.tester.written.sum +
      (Tester.writes s.tester i).toNat := Tester.Tests.written_step hr hp hb
  have htransfer : (step s i).transfer = s.transfer := Tester.transfer_step hb
  have hearlier : (step s i).earlier = s.earlier := by simp [step, hb]
  refine ⟨hs.stream_step hp h, ?_, left_step hs, ?_, ?_⟩
  · rw [hearlier, hwritten, ← Nat.add_assoc, ← hs.count]
    cases hw : Tester.writes s.tester i <;> simp [step, hw]
  · intro hne
    rw [htransfer, hwritten]
    cases hw : Tester.writes s.tester i with
    | true => exact (hs.cells_step hp h hw).2
    | false =>
      have hmemory : (step s i).memory.left = s.memory.left ∧
          (step s i).memory.next = s.memory.next := by
        simp [step, Memory.step, memoryInputs, hw]
      rw [hmemory.1] at hne
      rw [hmemory.2, hs.next hne]
      rfl
  · intro j hj
    rw [hwritten] at hj
    rw [htransfer, hearlier]
    cases hw : Tester.writes s.tester i with
    | false =>
      rw [hw] at hj
      have hsame : (step s i).stored = s.stored ∧ (step s i).memory.cells = s.memory.cells := by
        simp [step, Memory.step, memoryInputs, hw]
      rw [hsame.1, hsame.2]
      exact hs.cells j hj
    | true =>
      rw [hw, Bool.toNat_true] at hj
      have hstored : (step s i).stored = s.stored ++
          [PatternWriter.masterWritedata s.tester.writer.hw (writerInputs s i)] := by
        simp [step, hw]
      rw [hstored, (hs.cells_step hp h hw).1]
      obtain hlt | rfl := Nat.lt_succ_iff_lt_or_eq.mp hj
      · have hne : s.transfer.baseAddress.toNat + j * 2 ^ b ≠
            s.transfer.baseAddress.toNat + s.tester.written.sum * 2 ^ b := by
          intro heq
          have := Nat.eq_of_mul_eq_mul_right (by positivity) (Nat.add_left_cancel heq)
          omega
        have hcount := hs.count
        rw [Function.update_of_ne hne, List.getElem?_append_left (by omega)]
        exact hs.cells j hlt
      · rw [Function.update_self, ← hs.count, List.getElem?_concat_length]

theorem stored : Stored s := by
  refine h.invariant (I := Stored) ?_ ?_
  · intro s hs
    obtain ⟨-, hwriter, -, hwritten, -⟩ := hs.tester
    refine ⟨?_, ?_, ?_, fun hne => absurd hs.left hne, ?_⟩
    · rw [hs.stored, hs.taken, hwriter]
      rfl
    · rw [hs.stored, hs.earlier, hwritten]
      rfl
    · rw [hs.left, hwriter]
      rfl
    · simp [hwritten]
  · intro s i hr hs hi
    cases hb : Tester.begins s.tester i with
    | true => exact hs.next_begin hp hr hb
    | false => exact hs.next_within hp hr hb

/-- The words on their way are those of the current test that have been posted and not returned, and
each word returned has been compared with the one stored at the same position. -/
structure Returned (s : State pw pr) : Prop where
  earlier : s.earlier ≤ s.returned.length
  pending : ShowAhead.Window
    (fun k => s.transfer.baseAddress.toNat + (k - s.earlier) * 2 ^ b) s.returned.length
    (s.earlier + s.tester.posted.sum) s.memory.pending
  verdicts : s.verdicts = comparison s.returned s.stored

omit hp h in
/-- A read burst from word `k` of the current test on. -/
theorem burstAddresses_eq (base earlier k n : ℕ) :
    Memory.burstAddresses b (base + k * 2 ^ b) n =
      (List.range' (earlier + k) n).map fun j => base + (j - earlier) * 2 ^ b := by
  rw [Memory.burstAddresses, List.range'_eq_map_range, List.map_map]
  refine List.map_congr_left fun j _ => ?_
  rw [Function.comp_apply, Nat.add_assoc, Nat.add_assoc, Nat.add_sub_cancel_left, Nat.add_mul]

theorem Returned.length_le (hs : Returned s) : s.returned.length ≤ s.stored.length := by
  have hle := hs.pending.le
  have hposted := Tester.Tests.posted_le (tester_reachable h) hp
  rw [(stored hp h).count]
  omega

/-- The verdict on the word that is returned. -/
theorem differs_eq (hs : Returned s) (hv : i.readdatavalid = true) (hi : Software s i) :
    ∃ w, s.stored[s.returned.length]? = some w ∧
      (!Memory.differs s.memory (memoryInputs s i)) = decide (i.readdata = w) := by
  have hne := hi.returns hv
  have hlt := hs.pending.ne_nil_iff.mp hne
  have hposted := Tester.Tests.posted_le (tester_reachable h) hp
  have hfront : ShowAhead.front s.memory.pending 0 = _ := hs.pending.front_eq hne
  have hearlier := hs.earlier
  have hcell := (stored hp h).cells (s.returned.length - s.earlier) (by omega)
  rw [Nat.add_sub_cancel' hearlier] at hcell
  obtain ⟨address, rest, hpending⟩ := List.exists_cons_of_ne_nil hne
  rw [hpending] at hfront
  refine ⟨_, hcell, ?_⟩
  simp only [Memory.differs, hpending, ← show address = _ from hfront, memoryInputs]
  by_cases hd : i.readdata = s.memory.cells address <;> simp [hd]

theorem Returned.verdicts_step (hs : Returned s) (hi : Software s i) :
    (step s i).verdicts = comparison (step s i).returned (step s i).stored := by
  have hstored : (step s i).stored = s.stored ++ _ := rfl
  have hverdicts : (step s i).verdicts = s.verdicts ++ _ := rfl
  rw [hstored, hverdicts, returned_step, hs.verdicts]
  cases hv : i.readdatavalid with
  | false =>
    simp only [Bool.false_eq_true, if_false, List.append_nil]
    exact (comparison_append (hs.length_le hp h) _).symm
  | true =>
    obtain ⟨w, hw, hverdict⟩ := differs_eq hp h hs hv hi
    have hlt := (List.getElem?_eq_some_iff.mp hw).choose
    rw [if_pos rfl, if_pos rfl, comparison_append (by simpa using hlt), comparison_concat hw,
      hverdict]

/-- A cycle that begins a test: every word stored has been returned. -/
theorem Returned.next_begin (hs : Returned s) (hi : Software s i)
    (hb : Tester.begins s.tester i = true) : Returned (step s i) := by
  have hr := tester_reachable h
  have hstop := stopped_of_begins hb
  have hnone : s.memory.pending = [] := by
    rw [← List.length_eq_zero_iff, ← outstanding_eq h]
    exact Tester.outstanding_at_rest (fun _ _ hi => hi.orderly) hr hstop
  have hidle : i.readdatavalid = false := by
    by_contra hv
    exact hi.returns (by simpa using hv) hnone
  have hreads : Tester.reads s.tester i = false := by
    by_contra hreads
    have hstart := (Tester.Tests.reader_active hr (i := i) (by simpa using hreads)).1
    rw [hstop] at hstart
    contradiction
  have hlength := hs.pending.length
  have hle := hs.pending.le
  rw [hnone, List.length_nil, ← Tester.Tests.written_eq_posted hr hp hstop] at hlength
  rw [← Tester.Tests.written_eq_posted hr hp hstop] at hle
  have hearlier : (step s i).earlier = s.returned.length := by
    simp only [step, hb, if_true]
    omega
  have hposted : (step s i).tester.posted = [] := (Tester.logs_begin hb).2.2.2
  have hreturned : (step s i).returned = s.returned := by simp [returned_step, hidle]
  refine ⟨by rw [hearlier, hreturned], ?_, hs.verdicts_step hp h hi⟩
  rw [hreturned, hearlier, hposted, pending_step, hidle, hreads, hnone]
  exact .nil _ _

/-- A cycle within a test. -/
theorem Returned.next_within (hs : Returned s) (hi : Software s i)
    (hb : Tester.begins s.tester i = false) : Returned (step s i) := by
  have hr := tester_reachable h
  have hposted : (step s i).tester.posted.sum = _ := Tester.Tests.posted_step hr hp hb
  have htransfer : (step s i).transfer = s.transfer := Tester.transfer_step hb
  have hearlier : (step s i).earlier = s.earlier := by simp [step, hb]
  have hlength : (step s i).returned.length =
      s.returned.length + i.readdatavalid.toNat := by
    rw [returned_step, List.length_append]
    cases i.readdatavalid <;> rfl
  refine ⟨?_, ?_, hs.verdicts_step hp h hi⟩
  · rw [hearlier, hlength]
    exact hs.earlier.trans (Nat.le_add_right _ _)
  · have hpop := hs.pending.next_pop hi.returns
    rw [htransfer, hearlier, hlength, hposted, pending_step]
    by_cases hread : Tester.reads s.tester i = true
    · rw [if_pos hread, if_pos hread, Tester.Tests.read_address hr hp hread,
        burstAddresses_eq _ s.earlier, ← Nat.add_assoc]
      exact hpop.append _
    · rw [if_neg hread, if_neg hread, List.append_nil]
      exact hpop

theorem returned : Returned s := by
  refine h.invariant (I := Returned) ?_ ?_
  · intro s hs
    obtain ⟨-, -, hreader, -, hposted⟩ := hs.tester
    have hnone : s.returned = [] := by
      rw [State.returned, hreader]
      rfl
    refine ⟨by simp [hs.earlier], ?_, ?_⟩
    · rw [hnone, hposted, hs.pending, hs.earlier]
      exact .nil _ 0
    · rw [hnone, hs.verdicts]
      rfl
  · intro s i hr hs hi
    cases hb : Tester.begins s.tester i with
    | true => exact hs.next_begin hp hr hi hb
    | false => exact hs.next_within hp hr hi hb

omit hp in
/-- The stream through the reader loses no word. -/
theorem delivered_eq :
    s.delivered ++ s.tester.reader.hw.fifo = s.returned.map byteReversal :=
  (Tester.flow (fun _ _ hi => hi.returns) (tester_reachable h)).words

/-- Between two tests every word stored has been returned. -/
theorem returned_length_at_rest (hs : s.tester.controller.hw.start = false) :
    s.returned.length = s.stored.length := by
  have hr := tester_reachable h
  have hpending := (returned hp h).pending.length
  have hle := (returned hp h).pending.le
  have hzero := Tester.outstanding_at_rest (fun _ _ hi => hi.orderly) hr hs
  rw [outstanding_eq h] at hzero
  rw [(stored hp h).count, Tester.Tests.written_eq_posted hr hp hs]
  omega

/-- The words returned are compared with the words taken, in their order. -/
theorem verdicts_eq : s.verdicts = comparison (s.returned.map byteReversal) s.taken := by
  have hle := (returned hp h).length_le hp h
  rw [(returned hp h).verdicts, ← (stored hp h).stream, comparison_append (by simpa using hle),
    comparison_map (byteReversal_injective b)]

/-- The `k`-th word returned is the answer for the `k`-th word taken. -/
theorem verdicts_getElem? {k : ℕ} (hk : k < s.returned.length) :
    s.verdicts[k]? = some (decide ((s.returned.map byteReversal)[k]? = s.taken[k]?)) := by
  have hle := (returned hp h).length_le hp h
  have htaken := congrArg List.length (stored hp h).stream
  simp only [List.length_append, List.length_map] at htaken
  obtain ⟨x, hx⟩ : ∃ x, (s.returned.map byteReversal)[k]? = some x :=
    ⟨_, List.getElem?_eq_getElem (by simpa using hk)⟩
  obtain ⟨y, hy⟩ : ∃ y, s.taken[k]? = some y :=
    ⟨_, List.getElem?_eq_getElem (show k < s.taken.length by omega)⟩
  rw [verdicts_eq hp h, comparison_getElem? k hx hy, hx, hy]
  simp

/-- When the tests are done and the FIFOs are empty, every word taken has been answered. -/
theorem delivered_length_of_drained (hd : Drained s) : s.delivered.length = s.taken.length := by
  have hdelivered := congrArg List.length (delivered_eq h)
  have htaken := congrArg List.length (stored hp h).stream
  rw [List.length_append, List.length_map, hd.readerFifo, List.length_nil] at hdelivered
  rw [List.length_append, List.length_map, hd.writerFifo, List.length_nil] at htaken
  have hrest := returned_length_at_rest hp h hd.controller
  omega

/-- The `k`-th word delivered is an answer for the `k`-th word taken, which it repeats exactly when
the memory has returned the word last written to its address. -/
theorem answers : s.delivered.length ≤ s.taken.length ∧
    ∀ k < s.delivered.length,
      s.verdicts[k]? = some (decide (s.delivered[k]? = s.taken[k]?)) := by
  have hdelivered := delivered_eq h
  have hle := (returned hp h).length_le hp h
  have hlength := congrArg List.length hdelivered
  have htaken := congrArg List.length (stored hp h).stream
  simp only [List.length_append, List.length_map] at hlength htaken
  refine ⟨by omega, fun k hk => ?_⟩
  rw [verdicts_getElem? hp h (by omega), ← hdelivered, List.getElem?_append_left hk]

/-- Each word that has been returned has a verdict. -/
theorem verdicts_length : s.verdicts.length = s.returned.length := by
  rw [(returned hp h).verdicts, comparison_length ((returned hp h).length_le hp h)]

/-- The words stored are the first ones taken, of which the others are in the FIFO of the writer,
and the words delivered are the first ones returned, of which the others are in the FIFO of the
reader.  The `k`-th word returned is the answer for the `k`-th word taken, and its verdict tells
whether it repeats that word.  When the tests are done and the FIFOs are empty, every word taken has
been answered. -/
theorem words_in_order :
    s.stored.map byteReversal ++ s.tester.writer.hw.fifo = s.taken ∧
      s.delivered ++ s.tester.reader.hw.fifo = s.returned.map byteReversal ∧
      s.returned.length ≤ s.stored.length ∧ s.verdicts.length = s.returned.length ∧
      (∀ k < s.returned.length,
        s.verdicts[k]? = some (decide ((s.returned.map byteReversal)[k]? = s.taken[k]?))) ∧
      (Drained s → s.delivered.length = s.taken.length) := by
  exact ⟨(stored hp h).stream, delivered_eq h, (returned hp h).length_le hp h,
    verdicts_length hp h, fun k => verdicts_getElem? hp h, delivered_length_of_drained hp h⟩

/-- When the tests are done and the FIFOs are empty, every verdict is on a word delivered. -/
theorem verdicts_length_of_drained (hd : Drained s) :
    s.verdicts.length = s.delivered.length := by
  have hdelivered := congrArg List.length (delivered_eq h)
  rw [hd.readerFifo, List.append_nil, List.length_map] at hdelivered
  rw [verdicts_length hp h, hdelivered]

end Tests

section Runs

instance (s : State pw pr) (i : Tester.Inputs b) : Decidable (Software s i) :=
  decidable_of_iff (_ ∧ _ ∧ _ ∧ (i.readdatavalid = true → s.memory.pending ≠ []))
    ⟨fun ⟨h1, h2, h3, h4⟩ => ⟨h1, h2, h3, h4⟩, fun ⟨h1, h2, h3, h4⟩ => ⟨h1, h2, h3, h4⟩⟩

instance (s : State pw pr) (i : Tester.Inputs b) : Decidable ((loopback pw pr).admits s i) :=
  inferInstanceAs (Decidable (Software s i))

/-- The composition after a reset, with zeros in the memory. -/
def State.reset : State pw pr := ⟨.reset, ⟨fun _ => 0#_, 0, 0, [], false⟩, [], [], 0, []⟩

theorem reset_fresh : Fresh (.reset : State pw pr) :=
  ⟨Tester.reset_init, rfl, rfl, rfl, rfl, rfl, rfl⟩

/-- A cycle in which the memory returns `w`. -/
def returning (w : Word 2) : Tester.Inputs 2 :=
  { Tester.Inputs.cycle false true with readdata := w }

/-- Two tests of two words, of which the memory returns the last one wrong. -/
def twoTests : List (Tester.Inputs 2) :=
  Tester.Inputs.software 8#32 8#24 false ++ List.replicate 16 (.cycle true false) ++
    [returning 0x05000000#32, returning 0x05000000#32, .cycle false false, .cycle false false,
      .csr 4#3 0x01000000#32] ++ List.replicate 16 (.cycle false false) ++
    [returning 0x05000000#32, returning 0x00000005#32, .cycle false false]

theorem words_in_order_two_tests :
    let s := run step (.reset : State .shipped .shipped) twoTests
    s.earlier = 2 ∧ s.stored.map byteReversal <+: s.taken ∧ s.delivered.length = 4 ∧
      (∀ k < 4, s.verdicts[k]? =
        some (decide ((s.returned.map byteReversal)[k]? = s.taken[k]?))) ∧
      s.verdicts = [true, true, true, false] := by
  have hp : Tester.BurstMasters .shipped .shipped := ⟨rfl, rfl, rfl, by decide⟩
  have hrun := (Circuit.Reachable.init (C := loopback .shipped .shipped) reset_fresh).run
    twoTests (by decide +kernel)
  obtain ⟨hstored, -, -, -, hverdicts, -⟩ := words_in_order hp hrun
  have hreturned : (run step (.reset : State .shipped .shipped) twoTests).returned.length = 4 := by
    decide +kernel
  refine ⟨by decide +kernel, ?_, by decide +kernel, fun k hk => ?_, by decide +kernel⟩
  · exact ⟨_, hstored⟩
  · exact hverdicts k (hreturned.symm ▸ hk)

end Runs

end AvalonCores.MemoryTester.Loopback
