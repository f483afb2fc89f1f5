import Mathlib.Tactic
import AvalonCores.MemoryTester.Tester

/-! The distance between the two masters in concurrent mode.  The controller counts the blocks that
it has handed to the writer, and not those that the writer has finished, so that the reader may
work on the block that the writer has not finished: on any block with a trail of one block, and on
the last block with any trail. -/

namespace AvalonCores.MemoryTester.Tester

open AvalonCores.Sync

variable {b : ℕ} {pw pr : MasterParams b}

section

variable (s : State pw pr) (i : Inputs b)

/-- The block that the reader works on. -/
def readBlock : ℕ := s.controller.trace.reads.length - 1

/-- A read burst is accepted only of a block of which every word has been accepted. -/
def ReadsWritten : Prop :=
  reads s i = true →
    s.written[readBlock s]? =
      some (words b (s.controller.trace.transfer.block (readBlock s)).writeCommand)

/-- With a trail of one block, and for the last block, a read burst of the newest block is accepted
only after the writer has become idle. -/
def WaitsForWriter : Prop :=
  reads s i = true → s.controller.hw.blockTrail = 1#8 ∨ s.controller.hw.lastReadComplete = true →
    s.controller.hw.blockTrailDistance = 0#8 → s.writer.hw.masterActive = false

end

variable {s : State pw pr} {i : Inputs b} {ok : State pw pr → Inputs b → Prop}

/-- Every word of a block that is not the newest one has been accepted. -/
theorem written_older (hok : ∀ s i, ok s i → BlocksFit s i pw)
    (h : ((tester pw pr).restrict ok).Reachable s) {k : ℕ}
    (hk : k + 1 < s.controller.trace.writes.length) :
    s.written[k]? = some (words b (s.controller.trace.transfer.block k).writeCommand) := by
  obtain ⟨d, m, hd, hm, rfl⟩ := (written_log hok h).older hk
  rw [(controlled h.of_restrict).writes_getElem? (by omega), Option.some.injEq] at hd
  rw [hm, hd]

/-- Every word of the newest block has been accepted exactly when the writer is idle. -/
theorem written_newest (hok : ∀ s i, ok s i → BlocksFit s i pw)
    (h : ((tester pw pr).restrict ok).Reachable s) {k : ℕ}
    (hk : k + 1 = s.controller.trace.writes.length) :
    s.written[k]? = some (words b (s.controller.trace.transfer.block k).writeCommand) ↔
      s.writer.hw.masterActive = false := by
  obtain ⟨hc, hn⟩ := (written_log hok h).newest hk
  rw [(controlled h.of_restrict).writes_getElem? (by omega), Option.some.injEq] at hc
  rw [hn, hc, Option.some.injEq]
  have hcount := counting hok h
  refine ⟨fun hall => ?_, hcount.accepted_eq⟩
  by_contra hactive
  have := hcount.accepted_lt (by simpa using hactive)
  omega

/-- In a cycle in which the memory port accepts a read burst, the trail distance tells whether the
reader works on the newest block. -/
theorem readBlock_distance (h : (tester pw pr).Reachable s) (hr : reads s i = true) :
    readBlock s + 1 + s.controller.hw.blockTrailDistance.toNat =
        s.controller.trace.writes.length ∧
      (s.controller.hw.blockTrailDistance = 0#8 →
        s.controller.hw.blockTrail = 1#8 ∨ s.controller.hw.lastReadComplete = true) := by
  obtain ⟨hstart, hpos⟩ := running_of_active h (masterActive_of_reads h hr)
  obtain ⟨w, r, hc⟩ := (controlled h).conducting hstart
  have hreads : s.controller.trace.reads.length = r := by rw [hc.reads]; simp
  have hwrites : s.controller.trace.writes.length = w := by rw [hc.writes]; simp
  have hdistance := hc.distance
  refine ⟨by simp only [readBlock]; omega, fun hzero => ?_⟩
  rw [hzero] at hdistance
  obtain htrail | hlast := hc.order.newest (by omega) (by simpa using hdistance.symm)
  · left
    apply BitVec.eq_of_toNat_eq
    rw [hc.trail_eq, htrail]
    rfl
  · right
    rw [hc.lastRead, decide_eq_true_iff]
    exact hlast

theorem readsWritten_iff (hok : ∀ s i, ok s i → BlocksFit s i pw)
    (h : ((tester pw pr).restrict ok).Reachable s) :
    ReadsWritten s i ↔ WaitsForWriter s i := by
  refine imp_congr_right fun hr => ?_
  obtain ⟨hblock, hkind⟩ := readBlock_distance h.of_restrict hr
  by_cases hzero : s.controller.hw.blockTrailDistance = 0#8
  · rw [hzero] at hblock
    rw [written_newest hok h hblock]
    exact ⟨fun hidle _ _ => hidle, fun hwaits => hwaits (hkind hzero) hzero⟩
  · have hpos : 0 < s.controller.hw.blockTrailDistance.toNat := by
      rw [Nat.pos_iff_ne_zero]
      exact fun hz => hzero (BitVec.eq_of_toNat_eq hz)
    exact iff_of_true (written_older hok h (by omega)) fun _ hz => absurd hz hzero

/-- The composition in concurrent mode, for blocks that fit the writer's length counter. -/
def concurrentTester (pw pr : MasterParams b) : Circuit (State pw pr) (Inputs b) :=
  (tester pw pr).restrict fun s i => Concurrent s i ∧ BlocksFit s i pw

/-- In concurrent mode the reads of a run stay behind its writes exactly when no read burst of the
newest block is accepted while the writer is active, which can happen with a trail of one block and
for the last block. -/
theorem reads_behind_writes (hinit : (tester pw pr).init s) (is : List (Inputs b))
    (h : (concurrentTester pw pr).Admitted s is) :
    (concurrentTester pw pr).Always ReadsWritten s is ↔
      (concurrentTester pw pr).Always WaitsForWriter s is := by
  refine Circuit.Reachable.always_congr (C := concurrentTester pw pr) ?_ (.init hinit) is h
  intro s i hs _
  exact readsWritten_iff (fun _ _ hi => hi.2) hs

instance (s : State pw pr) (i : Inputs b) : Decidable (WaitsForWriter s i) :=
  inferInstanceAs (Decidable (_ → _))

instance (s : State pw pr) (i : Inputs b) : Decidable (ReadsWritten s i) :=
  inferInstanceAs (Decidable (_ → _))

instance (s : State pw pr) (i : Inputs b) : Decidable ((concurrentTester pw pr).admits s i) :=
  inferInstanceAs (Decidable ((tester pw pr).admits s i ∧ Concurrent s i ∧ BlocksFit s i pw))

theorem reads_behind_writes_four_words :
    let inputs := Inputs.software 16#32 8#24 true ++ List.replicate 30 (.cycle true false)
    (run (tester .shipped .shipped).step .reset inputs).posted = [2, 2] ∧
      (concurrentTester .shipped .shipped).Always ReadsWritten .reset inputs := by
  refine ⟨by decide +kernel, ?_⟩
  exact (reads_behind_writes reset_init _ (by decide +kernel)).mpr (by decide +kernel)

/-- With a trail of one block and no words for the writer, the first block is read before a word of
it has been written. -/
theorem slow_writer_is_overtaken :
    let inputs := Inputs.software 16#32 8#24 true ++ List.replicate 13 (.cycle false false)
    (concurrentTester .shipped .shipped).Admitted .reset inputs ∧
      (run (tester .shipped .shipped).step .reset inputs).posted = [2] ∧
      (run (tester .shipped .shipped).step .reset inputs).written = [0] ∧
      ¬(concurrentTester .shipped .shipped).Always ReadsWritten .reset inputs := by
  refine ⟨by decide +kernel, by decide +kernel, by decide +kernel, by decide +kernel⟩

end AvalonCores.MemoryTester.Tester
