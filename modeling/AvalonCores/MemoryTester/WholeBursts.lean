import Mathlib.Tactic
import AvalonCores.MemoryTester.WriterStream
import AvalonCores.MemoryTester.ReaderBursts

/-! Commands that start and end at a burst boundary, as the settings of the test software make
them.  Both masters cut them into bursts of the maximum size whatever the command bus shows, so that
every cycle is regular; and the writer offers a word only when its FIFO holds one. -/

namespace AvalonCores.MemoryTester

variable {b : ℕ} {p : MasterParams b}

/-- A command of bursts of the maximum size, whose length is a value of the length register. -/
structure WholeBursts (p : MasterParams b) (c : Command) : Prop where
  short : Short p c
  words_dvd : p.maxBurstCount ∣ words b c
  address_dvd : p.maxBurstCount ∣ wordAddress b c

namespace WholeBursts

variable {c : Command}

theorem max_le (h : WholeBursts p c) : p.maxBurstCount ≤ words b c :=
  Nat.le_of_dvd h.short.1 h.words_dvd

theorem firstBurst_eq (h : WholeBursts p c) : firstBurst p c = p.maxBurstCount := by
  rw [firstBurst, Nat.mod_eq_zero_of_dvd h.address_dvd, Nat.sub_zero, Nat.min_eq_right h.max_le]

theorem lastBurst_eq (h : WholeBursts p c) : lastBurst p c = p.maxBurstCount := by
  have hrest : p.maxBurstCount ∣
      if p.burstRealignEnable then words b c - firstBurst p c else words b c := by
    rw [h.firstBurst_eq]
    split
    · exact Nat.dvd_sub h.words_dvd dvd_rfl
    · exact h.words_dvd
  simp only [lastBurst]
  rw [if_pos (Nat.mod_eq_zero_of_dvd hrest)]

end WholeBursts

theorem Residue.whole {r : ℕ} (h : Residue p p.maxBurstCount r) (h2 : 1 < p.maxBurstCount)
    (hr : 0 < r) : p.maxBurstCount ≤ r := by
  rcases h with h | h | h
  · omega
  · omega
  · rw [Nat.mod_self] at h
    exact Nat.le_of_dvd hr (Nat.dvd_of_mod_eq_zero h)

namespace PatternWriter

open AvalonCores.Sync

/-- The writer for commands of whole bursts. -/
def wholeWriter (p : MasterParams b) : Circuit (Monitored p) (Inputs b) :=
  (writer p).restrict fun c i => loadCommand c.hw i = true → WholeBursts p i.snkCommandData

/-- The command of an active writer consists of whole bursts, and its last burst is one. -/
def Whole (s : State p) (l : Ledger) : Prop :=
  s.masterActive = true →
    WholeBursts p l.command ∧ s.shortLastBurstCountD1.toNat = p.maxBurstCount

variable {s : State p} {l : Ledger} {i : Inputs b}

theorem Whole.next (hp : p.burstEnable = true) (h : Whole s l)
    (ha : loadCommand s i = true → WholeBursts p i.snkCommandData) :
    Whole (step s i) (l.next s i) := by
  intro hactive
  cases hload : loadCommand s i with
  | true =>
    simp only [step, Ledger.next, hload, if_true, shortLastBurstCount_toNat hp]
    exact ⟨ha hload, (ha hload).lastBurst_eq⟩
  | false =>
    have hprev := masterActive_of_step hload hactive
    simpa [step, Ledger.next, hload] using h hprev

/-- A writer that waits has at least a full burst left. -/
theorem Whole.waiting (hp : p.burstEnable = true) (h2 : 1 < p.maxBurstCount) (h : Whole s l)
    (hc : Counting s l) (hb : Bursting s l) (active : s.masterActive = true)
    (write : s.write = false) : p.maxBurstCount ≤ words b l.command - l.accepted := by
  obtain ⟨hwhole, hlast⟩ := h active
  cases hb with
  | idle inactive => simp [active] at inactive
  | posting _ writing => simp [write] at writing
  | waiting _ _ _ _ _ first later =>
    cases hf : (p.burstRealignEnable && s.firstTransfer) with
    | true =>
      rw [(first hp hf).1, Nat.sub_zero]
      exact hwhole.max_le
    | false =>
      have hrest := (later hp hf).rest
      rw [hlast] at hrest
      exact hrest.whole h2 (by have := hc.accepted_lt active; omega)

/-- A burst that begins on the last beat of another one has at least a full burst to write. -/
theorem Whole.fast (hp : p.burstEnable = true) (h2 : 1 < p.maxBurstCount) (h : Whole s l)
    (hc : Counting s l) (hb : Bursting s l) (hfast : burstBeginFast s i = true)
    (hne : s.nextLengthCounter ≠ 0#_) : p.maxBurstCount ≤ wordsLeft ⟨s, l⟩ i := by
  simp only [burstBeginFast, burstComplete, Bool.and_eq_true, beq_iff_eq] at hfast
  obtain ⟨⟨active, hone, htc⟩, -⟩ := hfast
  have hload : loadCommand s i = false := loadCommand_of_active active
  have hcount : s.burstCounter.toNat = 1 := by rw [hone, one_burstWidth]
  simp only [wordsLeft, Ledger.next, hload, htc, Bool.false_eq_true, if_false, if_true]
  cases hb with
  | idle inactive => simp [active] at inactive
  | waiting _ _ counter => simp [counter] at hcount
  | posting _ write _ _ _ rest =>
    cases hc with
    | idle inactive => simp [active] at inactive
    | loaded _ idle => simp [write] at idle
    | moving _ _ _ _ _ length =>
      have hrest := (rest hp).rest
      rw [(h active).2, hcount] at hrest
      rw [Ne, eq_zero_iff_of_toNat length] at hne
      have := hrest.whole h2 (by omega)
      omega

/-- The writer begins no burst out of idle with its length counter at zero. -/
theorem Whole.fromIdle (hp : p.burstEnable = true) (h2 : 1 < p.maxBurstCount) (h : Whole s l)
    (hlt : words b l.command * 2 ^ b < 2 ^ p.lengthWidth) (hc : Counting s l)
    (hb : Bursting s l) (hidle : burstBeginFromIdle s i = true) :
    s.nextLengthCounter ≠ 0#_ := by
  simp only [burstBeginFromIdle, burstIdle, Bool.and_eq_true, beq_iff_eq] at hidle
  obtain ⟨⟨active, counter⟩, -⟩ := hidle
  have write : s.write = false := by
    cases hb with
    | idle inactive => simp [active] at inactive
    | waiting _ write => exact write
    | posting _ _ positive => simp [counter] at positive
  have hleft := h.waiting hp h2 hc hb active write
  obtain ⟨n, hlength, hle⟩ := hc.length_of_active hlt active
  rw [Ne, eq_zero_iff_of_toNat hlength]
  omega

theorem Whole.regular (hp : p.burstEnable = true) (h2 : 1 < p.maxBurstCount) (h : Whole s l)
    (hlt : words b l.command * 2 ^ b < 2 ^ p.lengthWidth) (hc : Counting s l)
    (hb : Bursting s l) : Regular ⟨s, l⟩ i where
  idle _ active write _ hleft := by
    have htc : transferComplete s i = false := transferComplete_of_write write
    have hload : loadCommand s i = false := loadCommand_of_active active
    have hwhole := h.waiting hp h2 hc hb active write
    simp only [wordsLeft, Ledger.next, hload, htc, Bool.false_eq_true, if_false] at hleft
    omega
  fast _ hfast hne hleft := by
    have := h.fast hp h2 hc hb hfast hne
    omega
  fromIdle hidle := h.fromIdle hp h2 hlt hc hb hidle

/-- While the writer offers a word, its FIFO holds the rest of the burst. -/
def Stocked (s : State p) : Prop := s.write = true → s.burstCounter.toNat ≤ s.fifo.length

theorem Stocked.fifo_ne_nil (h : Stocked s) (hc : Counting s l) (hb : Bursting s l)
    (hr : fifoRead s i = true) : s.fifo ≠ [] := by
  have hw : s.write = true := by simp_all [fifoRead]
  have hle := h hw
  rw [← List.length_pos_iff]
  cases hb with
  | idle active => simp [hc.write_eq_false active] at hw
  | waiting _ write => simp [hw] at write
  | posting _ _ counter => omega

/-- What holds of the writer in every run of commands of whole bursts. -/
structure Writing (c : Monitored p) : Prop where
  regular : ((burstWriter p).restrict Regular).Reachable c
  whole : Whole c.hw c.ledger
  stocked : Stocked c.hw

theorem Writing.counting {c : Monitored p} (h : Writing c) : Counting c.hw c.ledger :=
  PatternWriter.counting h.regular.of_restrict.of_restrict

theorem Writing.bursting {c : Monitored p} (h : Writing c) : Bursting c.hw c.ledger :=
  PatternWriter.bursting h.regular

theorem writing (hp : p.burstEnable = true) (h2 : 1 < p.maxBurstCount) {c : Monitored p}
    (h : (wholeWriter p).Reachable c) : Writing c := by
  refine h.invariant (I := Writing) ?_ ?_
  · rintro c rfl
    refine ⟨.init rfl, ?_, ?_⟩
    · intro hactive
      contradiction
    · intro hwrite
      contradiction
  · rintro c i - hw ⟨hfits, ha⟩
    have hreg : Regular c i :=
      hw.whole.regular hp h2 (words_lt hw.regular.of_restrict) hw.counting hw.bursting
    have hnext : ((burstWriter p).restrict Regular).Reachable ((wholeWriter p).step c i) :=
      hw.regular.step ⟨⟨hfits, fun hl => (ha hl).short⟩, hreg⟩
    exact ⟨hnext, hw.whole.next hp ha, (supplied hnext.of_restrict).2.burst⟩

end PatternWriter

namespace PatternReader

open AvalonCores.Sync

/-- The reader for commands of whole bursts. -/
def wholeReader (p : MasterParams b) : Circuit (Monitored p) (Inputs b) :=
  (poster p).restrict fun c i =>
    loadCommand c.hw i = true → WholeBursts p i.snkCommandData.toCommand

variable {s : State p} {l : Ledger b} {i : Inputs b}

theorem regular_of_whole (h : Reading s l)
    (hwhole : s.masterActive = true → WholeBursts p l.command.toCommand) : Regular ⟨s, l⟩ i := by
  intro (htc : transferComplete s i = true) hne (hlt : s.nextLengthCounter.toNat < _)
  have hread : s.read = true := by simp_all [transferComplete]
  cases h with
  | idle _ read | loaded _ read => simp [hread] at read
  | moving active _ _ _ _ _ _ _ residue _ length =>
    have hdvd : p.maxBurstCount ∣
        words b l.command.toCommand - l.posted - s.burstCountD1.toNat := by
      rcases residue with hzero | hmod
      · rw [hzero]
        exact dvd_zero _
      · apply Nat.dvd_of_mod_eq_zero
        rw [hmod, (hwhole active).firstBurst_eq]
        exact Nat.mod_eq_zero_of_dvd (Nat.dvd_sub (hwhole active).words_dvd dvd_rfl)
    rw [length, mul_comm] at hlt
    have hzero := Nat.eq_zero_of_dvd_of_lt hdvd (Nat.lt_of_mul_lt_mul_left hlt)
    rw [hzero, zero_mul] at length
    exact absurd (BitVec.eq_of_toNat_eq length) hne

theorem whole_step (h : s.masterActive = true → WholeBursts p l.command.toCommand)
    (ha : loadCommand s i = true → WholeBursts p i.snkCommandData.toCommand)
    (hactive : (step s i).masterActive = true) :
    WholeBursts p (l.next s i).command.toCommand := by
  cases hload : loadCommand s i with
  | true => simpa [Ledger.next, hload] using ha hload
  | false =>
    have hprev := masterActive_of_step hload hactive
    simpa [Ledger.next, hload] using h hprev

/-- In every run of commands of whole bursts the reads follow the bursts of the command. -/
theorem reading_of_whole (hp : p.burstEnable = true) (hrealign : p.burstRealignEnable = true)
    {c : Monitored p} (h : (wholeReader p).Reachable c) : Reading c.hw c.ledger := by
  suffices hreg : ((burstReader p).restrict Regular).Reachable c ∧
      (c.hw.masterActive = true → WholeBursts p c.ledger.command.toCommand) from
    reading hp hrealign hreg.1
  refine h.invariant (I := fun c => ((burstReader p).restrict Regular).Reachable c ∧
    (c.hw.masterActive = true → WholeBursts p c.ledger.command.toCommand)) ?_ ?_
  · rintro c rfl
    exact ⟨.init rfl, fun hactive => by contradiction⟩
  · rintro c i - ⟨hr, hwhole⟩ ⟨hfits, ha⟩
    have hreg : Regular c i := regular_of_whole (reading hp hrealign hr) hwhole
    exact ⟨hr.step ⟨⟨hfits, fun hl => (ha hl).short⟩, hreg⟩, whole_step hwhole ha⟩

end PatternReader

end AvalonCores.MemoryTester
