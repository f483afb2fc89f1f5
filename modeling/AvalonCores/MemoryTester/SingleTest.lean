import Mathlib.Tactic
import AvalonCores.MemoryTester.TestRuns

/-! One test of a transfer whose blocks consist of whole bursts, in sequential mode, as a run of
tests: all the commands of the run are of this transfer, and no word is written or read before the
first one. -/

namespace AvalonCores.MemoryTester.Tester

open AvalonCores.Sync

variable {b : ℕ} {pw pr : MasterParams b}

/-- Software tests the transfer `t` once, in sequential mode, and the memory returns only what the
reader has posted. -/
structure SingleTest (t : Transfer) (s : State pw pr) (i : Inputs b) : Prop where
  sequential : Sequential s i
  transfer : begins s i = true → RamTestController.csrTransfer s.controller.hw = t
  once : begins s i = true → s.controller.trace.writes = []
  returns : ReturnsPosted s i

/-- What the settings of the test software guarantee of a transfer for both masters. -/
structure Settings (pw pr : MasterParams b) (t : Transfer) : Prop where
  writer : t.Testable pw
  reader : t.Testable pr
  writerBurst : pw.burstEnable = true
  readerBurst : pr.burstEnable = true
  readerRealign : pr.burstRealignEnable = true
  writerMax : 1 < pw.maxBurstCount

variable {t : Transfer} {s : State pw pr} {i : Inputs b}

theorem Settings.masters (ht : Settings pw pr t) : BurstMasters pw pr :=
  ⟨ht.writerBurst, ht.readerBurst, ht.readerRealign, ht.writerMax⟩

theorem SingleTest.testing (ht : Settings pw pr t) (h : SingleTest t s i) : Testing s i := by
  refine ⟨h.sequential, fun hb => ?_, h.returns⟩
  rw [h.transfer hb]
  exact ⟨ht.writer, ht.reader⟩

theorem SingleTest.orderly (ht : Settings pw pr t) (h : SingleTest t s i) : Orderly s i :=
  (h.testing ht).orderly

/-- One test is a run of tests. -/
theorem testing_reachable (ht : Settings pw pr t)
    (h : ((tester pw pr).restrict (SingleTest t)).Reachable s) :
    ((tester pw pr).restrict Testing).Reachable s := by
  refine h.map (C := (tester pw pr).restrict (SingleTest t)) (D := (tester pw pr).restrict Testing)
    (f := id) (g := fun _ i => i) (fun _ hs => hs) ?_ fun _ _ _ _ => rfl
  exact fun s i _ hi => ⟨hi.1, hi.2.testing ht⟩

section Run

variable (ht : Settings pw pr t) (h : ((tester pw pr).restrict (SingleTest t)).Reachable s)

include h

/-- The transfer of the trace is the one tested once the start bit has been set. -/
theorem transfer_eq : s.controller.trace.transfer = t ∨
    s.controller.hw.start = false ∧ s.controller.trace.Empty := by
  refine h.invariant (I := fun s => s.controller.trace.transfer = t ∨
    s.controller.hw.start = false ∧ s.controller.trace.Empty) ?_ ?_
  · rintro s ⟨⟨hq, he⟩, -⟩
    exact .inr ⟨hq.start, he⟩
  · rintro s i hr ih ⟨-, hi⟩
    show (s.controller.trace.next s.controller.hw (controllerInputs s i)).transfer = t ∨
      (RamTestController.step s.controller.hw (controllerInputs s i)).start = false ∧
        (s.controller.trace.next s.controller.hw (controllerInputs s i)).Empty
    cases hb : begins s i with
    | true =>
      left
      simp [RamTestController.Trace.next_eq, show RamTestController.begins _ _ = true from hb,
        hi.transfer hb]
    | false =>
      have hb' : RamTestController.begins s.controller.hw (controllerInputs s i) = false := hb
      rcases ih with heq | ⟨hs, he⟩
      · left
        simpa [RamTestController.Trace.next_eq, hb'] using heq
      · right
        have q := (controlled hr.of_restrict).quiescent hs
        refine ⟨q.start_step.trans hb', ?_⟩
        simp only [RamTestController.Trace.next_eq, hb', q.writeFifoPop, q.readFifoPop]
        exact ⟨by simp [he.writes], by simp [he.reads], by simp [he.order]⟩

theorem transfer_of_start (hs : s.controller.hw.start = true) :
    s.controller.trace.transfer = t := by
  obtain heq | ⟨hstop, -⟩ := transfer_eq h
  · exact heq
  · rw [hs] at hstop
    contradiction

theorem transfer_of_writes (hw : s.controller.trace.writes ≠ []) :
    s.controller.trace.transfer = t := by
  obtain heq | ⟨-, he⟩ := transfer_eq h
  · exact heq
  · exact absurd he.writes hw

/-- A word is written to the transfer tested. -/
theorem transfer_of_writing (ht : Settings pw pr t) (hw : writes s i = true) :
    s.controller.trace.transfer = t :=
  transfer_of_writes h (Tests.writer_active (testing_reachable ht h) ht.masters hw).2.2

/-- A burst is read from the transfer tested. -/
theorem transfer_of_reading (ht : Settings pw pr t) (hr : reads s i = true) :
    s.controller.trace.transfer = t :=
  transfer_of_start h (Tests.reader_active (testing_reachable ht h) hr).1

include ht

/-- Until the first command has been accepted, nothing has been written or posted. -/
theorem empty_of_none (hw : s.controller.trace.writes = []) : s.written = [] ∧ s.posted = [] := by
  have hr := testing_reachable ht h
  have hlength := Tests.reads_length_le hr
  rw [hw, List.length_nil, Nat.le_zero, List.length_eq_zero_iff] at hlength
  constructor
  · obtain ⟨-, hwritten⟩ | ⟨k, -, hlen, -⟩ := Tests.written_eq hr
    · exact hwritten
    · simp [hw] at hlen
  · obtain ⟨-, hposted⟩ | ⟨k, -, hlen, -⟩ := Tests.posted_eq hr ht.masters
    · exact hposted
    · simp [hlength] at hlen

theorem written_step (hi : SingleTest t s i) :
    (step s i).written.sum = s.written.sum + (writes s i).toNat := by
  have hr := testing_reachable ht h
  cases hb : begins s i with
  | true =>
    have hwrites : writes s i = false := by
      by_contra hw
      exact (Tests.writer_active hr ht.masters (by simpa using hw)).2.2 (hi.once hb)
    simp [(logs_begin hb).2.2.1, hwrites, (empty_of_none ht h (hi.once hb)).1]
  | false => exact Tests.written_step hr ht.masters hb

theorem posted_step (hi : SingleTest t s i) : (step s i).posted.sum =
    s.posted.sum + if reads s i then s.reader.hw.burstCountD1.toNat else 0 := by
  have hr := testing_reachable ht h
  cases hb : begins s i with
  | true =>
    have hreads : reads s i = false := by
      by_contra hreads
      have hs := (Tests.reader_active hr (i := i) (by simpa using hreads)).1
      rw [begins_eq_false hs] at hb
      contradiction
    simp [(logs_begin hb).2.2.2, hreads, (empty_of_none ht h (hi.once hb)).2]
  | false => exact Tests.posted_step hr ht.masters hb

end Run

end AvalonCores.MemoryTester.Tester
