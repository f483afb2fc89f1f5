import Mathlib.Tactic
import AvalonCores.MemoryTester.PatternReader

/-! The bursts of `mtm_pattern_reader` with burst realignment.  The reader sizes a burst when it
posts the one before, and compares its length counter with the last burst of the command that the
command bus shows at that time.  `Reading` follows the bursts of a command under the condition
`Regular`, which excludes the cycles in which the comparison is with another command. -/

namespace AvalonCores.MemoryTester.PatternReader

open AvalonCores.Sync

variable {b : ℕ} {p : MasterParams b}

/-- The size of the burst after the first `posted` words of a command: to the next boundary, and
from there in bursts of the maximum size, as far as the command has words. -/
def nextBurst (p : MasterParams b) (c : Command) (posted : ℕ) : ℕ :=
  if posted = 0 then firstBurst p c else min p.maxBurstCount (words b c - posted)

/-- Where a read is accepted with less than a full burst left after it, the length counter equals
the last burst of the command on the bus. -/
def Regular (c : Monitored p) (i : Inputs b) : Prop :=
  transferComplete c.hw i = true → c.hw.nextLengthCounter ≠ 0#_ →
    c.hw.nextLengthCounter.toNat < 2 ^ b * p.maxBurstCount →
      enableShortLastBurst p i.snkCommandData.toCommand c.hw.nextLengthCounter = true

instance (c : Monitored p) (i : Inputs b) : Decidable (Regular c i) :=
  inferInstanceAs (Decidable (_ → _ → _ → _))

/-- What the memory port sees of the reader: each read that it offers is the next burst of the
command, and after the last one it offers none until the next command. -/
structure Contract (c : Monitored p) : Prop where
  burst : c.hw.read = true →
    c.hw.transferAddress = (commandAddress b c.ledger.command.toCommand).setWidth _ +
        BitVec.ofNat _ (c.ledger.posted * 2 ^ b) ∧
      c.hw.burstCountD1.toNat = nextBurst p c.ledger.command.toCommand c.ledger.posted ∧
      0 < c.hw.burstCountD1.toNat ∧
      c.ledger.posted + c.hw.burstCountD1.toNat ≤ words b c.ledger.command.toCommand
  done : c.hw.masterActive = false →
    c.hw.read = false ∧ c.ledger.posted = words b c.ledger.command.toCommand

/-- The last `r` words of a command begin at a burst boundary, or there are none. -/
def Aligned (p : MasterParams b) (c : Command) (r : ℕ) : Prop :=
  r = 0 ∨ r % p.maxBurstCount = (words b c - firstBurst p c) % p.maxBurstCount

/-- How far the reader has got in the bursts of a command. -/
inductive Reading (s : State p) (l : Ledger b) : Prop
  | idle (active : s.masterActive = false) (read : s.read = false)
      (loaded : s.loadCommandD1 = false) (done : l.posted = words b l.command.toCommand)
  | loaded (active : s.masterActive = true) (read : s.read = false)
      (loaded : s.loadCommandD1 = true) (fits : Short p l.command.toCommand)
      (none : l.posted = 0) (first : s.firstTransfer = true)
      (shortFirst : s.shortFirstBurstCountD1.toNat = firstBurst p l.command.toCommand)
      (shortLast : s.shortLastBurstCountD1.toNat = lastBurst p l.command.toCommand)
      (base : s.baseAddress = (commandAddress b l.command.toCommand).setWidth _)
      (length : s.nextLengthCounter.toNat = words b l.command.toCommand * 2 ^ b)
      (counter : s.transferCounter = 0#_)
  | moving (active : s.masterActive = true) (loaded : s.loadCommandD1 = false)
      (fits : Short p l.command.toCommand)
      (shortLast : s.shortLastBurstCountD1.toNat = lastBurst p l.command.toCommand)
      (base : s.baseAddress = (commandAddress b l.command.toCommand).setWidth _)
      (burst : s.burstCountD1.toNat = nextBurst p l.command.toCommand l.posted)
      (some : 0 < s.burstCountD1.toNat)
      (within : l.posted + s.burstCountD1.toNat ≤ words b l.command.toCommand)
      (residue : Aligned p l.command.toCommand
        (words b l.command.toCommand - l.posted - s.burstCountD1.toNat))
      (address : s.transferAddress = s.baseAddress + BitVec.ofNat _ (l.posted * 2 ^ b))
      (length : s.nextLengthCounter.toNat =
        (words b l.command.toCommand - l.posted - s.burstCountD1.toNat) * 2 ^ b)
      (counter : s.transferCounter.toNat = (l.posted + s.burstCountD1.toNat) * 2 ^ b)

theorem Aligned.lastBurst_eq {c : Command} {r : ℕ} (h : Aligned p c r)
    (hrealign : p.burstRealignEnable = true) (hr : 0 < r) (hr' : r ≤ p.maxBurstCount) :
    lastBurst p c = r := by
  rcases h with rfl | h
  · omega
  · simp only [lastBurst, hrealign, if_true, ← h]
    rcases hr'.lt_or_eq with hlt | rfl
    · rw [Nat.mod_eq_of_lt hlt, if_neg (by omega)]
    · rw [Nat.mod_self, if_pos rfl]

theorem Aligned.sub {c : Command} {r : ℕ} (h : Aligned p c r) :
    Aligned p c (r - min p.maxBurstCount r) := by
  rcases Nat.le_total p.maxBurstCount r with hr | hr
  · rw [Nat.min_eq_left hr]
    rcases h with rfl | h
    · exact .inl (Nat.zero_sub _)
    · exact .inr (by rwa [← Nat.mod_eq_sub_mod hr])
  · rw [Nat.min_eq_right hr]
    exact .inl (Nat.sub_self _)

namespace Reading

variable {s : State p} {l : Ledger b} {i : Inputs b}

theorem next_idle (hp : p.burstEnable = true) (active : s.masterActive = false)
    (read : s.read = false) (done : l.posted = words b l.command.toCommand)
    (ha : loadCommand s i = true → Short p i.snkCommandData.toCommand) :
    Reading (step s i) (l.next s i) := by
  have htc : transferComplete s i = false := transferComplete_of_read read
  obtain ⟨hactive, hread, hloaded⟩ := step_idle (i := i) active read
  cases hload : loadCommand s i with
  | false =>
    apply Reading.idle
    · rw [hactive, hload]
    · exact hread
    · rw [hloaded, hload]
    · simpa [Ledger.next, hload, htc] using done
  | true =>
    have hfits := ha hload
    apply Reading.loaded
    · rw [hactive, hload]
    · exact hread
    · rw [hloaded, hload]
    · simpa [Ledger.next, hload] using hfits
    · simp [Ledger.next, hload]
    · simp [step, hload]
    · simp [step, Ledger.next, hload, shortFirstBurstCount_toNat hp]
    · simp [step, Ledger.next, hload, shortLastBurstCount_toNat hp]
    · simp [step, Ledger.next, hload]
    · have := hfits.toNat_le le_rfl
      rw [← commandLength_setWidth] at this
      simpa [step, Ledger.next, hload] using this
    · simp [step, hload]

/-- The bytes of a burst in the length register. -/
theorem ofNat_transferSize {c : Command} (hc : Short p c)
    (hle : (burstCount s i).toNat ≤ words b c) :
    (BitVec.ofNat p.lengthWidth (transferSize s i)).toNat = (burstCount s i).toNat * 2 ^ b := by
  rw [transferSize, mul_comm, hc.toNat_le hle]

theorem next_loaded (hp : p.burstEnable = true) (hrealign : p.burstRealignEnable = true)
    (active : s.masterActive = true) (read : s.read = false) (loaded : s.loadCommandD1 = true)
    (fits : Short p l.command.toCommand) (none : l.posted = 0) (first : s.firstTransfer = true)
    (shortFirst : s.shortFirstBurstCountD1.toNat = firstBurst p l.command.toCommand)
    (shortLast : s.shortLastBurstCountD1.toNat = lastBurst p l.command.toCommand)
    (base : s.baseAddress = (commandAddress b l.command.toCommand).setWidth _)
    (length : s.nextLengthCounter.toNat = words b l.command.toCommand * 2 ^ b)
    (counter : s.transferCounter = 0#_) : Reading (step s i) (l.next s i) := by
  have htc : transferComplete s i = false := transferComplete_of_read read
  have hload : loadCommand s i = false := loadCommand_of_active active
  have hcount : (burstCount s i).toNat = firstBurst p l.command.toCommand := by
    rw [burstCount_first hp hrealign first htc, shortFirst]
  have hledger : l.next s i =
      { l with
        outstanding := (l.next s i).outstanding
        returned := (l.next s i).returned
        delivered := (l.next s i).delivered } := by
    simp [Ledger.next, hload, htc]
  have hd1 : (step s i).burstCountD1 = burstCount s i := by simp [step, loaded]
  have hle : firstBurst p l.command.toCommand ≤ words b l.command.toCommand := firstBurst_le_words
  have hsize := ofNat_transferSize (s := s) (i := i) fits (by rw [hcount]; exact hle)
  rw [hledger]
  apply Reading.moving
  · simp [step, resetMasterActive, htc, hload, active]
  · simp [step, hload]
  · exact fits
  · simpa [step, hload] using shortLast
  · simpa [step, hload] using base
  · rw [hd1, hcount, nextBurst, if_pos none]
  · rw [hd1, hcount]
    exact firstBurst_pos fits.1
  · rw [hd1, hcount]
    simpa [none] using hle
  · rw [hd1, hcount]
    exact .inr (by simp [none])
  · simp [step, loaded, counter, none, hload]
  · rw [hd1, hcount]
    simp only [step, hload, htc, loaded, Bool.false_or, if_true, Bool.false_eq_true, if_false]
    rw [BitVec.toNat_sub_of_le, length, hsize, hcount, none, Nat.sub_zero, Nat.sub_mul]
    rw [BitVec.le_def, length, hsize, hcount]
    exact Nat.mul_le_mul_right _ hle
  · rw [hd1, hcount]
    simp only [step, hload, htc, loaded, Bool.false_or, if_true, Bool.false_eq_true, if_false]
    rw [counter, BitVec.zero_add, hsize, hcount, none, Nat.zero_add]

/-- A cycle in which the bus does not accept the read on offer. -/
theorem next_stalled (active : s.masterActive = true) (loaded : s.loadCommandD1 = false)
    (fits : Short p l.command.toCommand)
    (shortLast : s.shortLastBurstCountD1.toNat = lastBurst p l.command.toCommand)
    (base : s.baseAddress = (commandAddress b l.command.toCommand).setWidth _)
    (burst : s.burstCountD1.toNat = nextBurst p l.command.toCommand l.posted)
    (some : 0 < s.burstCountD1.toNat)
    (within : l.posted + s.burstCountD1.toNat ≤ words b l.command.toCommand)
    (residue : Aligned p l.command.toCommand
      (words b l.command.toCommand - l.posted - s.burstCountD1.toNat))
    (address : s.transferAddress = s.baseAddress + BitVec.ofNat _ (l.posted * 2 ^ b))
    (length : s.nextLengthCounter.toNat =
      (words b l.command.toCommand - l.posted - s.burstCountD1.toNat) * 2 ^ b)
    (counter : s.transferCounter.toNat = (l.posted + s.burstCountD1.toNat) * 2 ^ b)
    (htc : transferComplete s i = false) : Reading (step s i) (l.next s i) := by
  have hload : loadCommand s i = false := loadCommand_of_active active
  obtain ⟨hcommand, hposted⟩ := Ledger.next_of_stalled (l := l) hload htc
  apply Reading.moving
  · simp [step, resetMasterActive, htc, hload, active]
  · simp [step, hload]
  · rwa [hcommand]
  · simpa [step, hload, hcommand] using shortLast
  · simpa [step, hload, hcommand] using base
  · simpa [step, htc, loaded, hcommand, hposted] using burst
  · simpa [step, htc, loaded] using some
  · simpa [step, htc, loaded, hcommand, hposted] using within
  · simpa [step, htc, loaded, hcommand, hposted] using residue
  · simpa [step, htc, hload, loaded, hposted] using address
  · simpa [step, htc, hload, loaded, hcommand, hposted] using length
  · simpa [step, htc, hload, loaded, hposted] using counter

/-- The last burst of a command is accepted. -/
theorem next_done (active : s.masterActive = true)
    (hzero : s.nextLengthCounter = 0#_) (htc : transferComplete s i = true)
    (hlast : l.posted + s.burstCountD1.toNat = words b l.command.toCommand) :
    Reading (step s i) (l.next s i) := by
  have hload : loadCommand s i = false := loadCommand_of_active active
  have hreset : resetMasterActive s i = true := by
    simp [resetMasterActive, htc, hload, hzero]
  apply Reading.idle
  · simp [step, hreset]
  · simp [step, resetRead, hreset]
  · simp [step, hload]
  · simpa [Ledger.next, hload, htc] using hlast

/-- The burst that follows another one, with `r` words left: as many of them as it can hold. -/
theorem burstCount_next {r : ℕ} (hp : p.burstEnable = true) (hrealign : p.burstRealignEnable = true)
    (shortLast : s.shortLastBurstCountD1.toNat = lastBurst p l.command.toCommand)
    (residue : Aligned p l.command.toCommand r) (length : s.nextLengthCounter.toNat = r * 2 ^ b)
    (hr : 0 < r) (htc : transferComplete s i = true) (hreg : Regular ⟨s, l⟩ i) :
    (burstCount s i).toNat = min p.maxBurstCount r := by
  have hne : s.nextLengthCounter ≠ 0#_ := by
    rw [Ne, eq_zero_iff_of_toNat length]
    omega
  rw [burstCount_later hp htc]
  split
  · rename_i hshort
    have hle := enableShortLastBurst_le hshort length
    rw [shortLast, residue.lastBurst_eq hrealign hr hle, Nat.min_eq_right hle]
  · rename_i hshort
    rw [Nat.min_eq_left]
    by_contra hlt
    apply hshort
    apply hreg htc hne
    show s.nextLengthCounter.toNat < _
    rw [length, mul_comm]
    exact Nat.mul_lt_mul_of_pos_left (by omega) (by positivity)

/-- A burst is accepted with `r` words left after it. -/
theorem next_burst {r : ℕ} (active : s.masterActive = true) (fits : Short p l.command.toCommand)
    (shortLast : s.shortLastBurstCountD1.toNat = lastBurst p l.command.toCommand)
    (base : s.baseAddress = (commandAddress b l.command.toCommand).setWidth _)
    (some : 0 < s.burstCountD1.toNat)
    (left : l.posted + s.burstCountD1.toNat + r = words b l.command.toCommand)
    (residue : Aligned p l.command.toCommand r) (length : s.nextLengthCounter.toNat = r * 2 ^ b)
    (counter : s.transferCounter.toNat = (l.posted + s.burstCountD1.toNat) * 2 ^ b)
    (hr : 0 < r) (htc : transferComplete s i = true)
    (hcount : (burstCount s i).toNat = min p.maxBurstCount r) :
    Reading (step s i) (l.next s i) := by
  have hload : loadCommand s i = false := loadCommand_of_active active
  obtain ⟨hcommand, hposted⟩ := Ledger.next_of_accepted (l := l) hload htc
  have hd1 : (step s i).burstCountD1 = burstCount s i := by simp [step, htc]
  have hne : s.nextLengthCounter ≠ 0#_ := by
    rw [Ne, eq_zero_iff_of_toNat length]
    omega
  have hle : (burstCount s i).toNat ≤ r := by rw [hcount]; exact min_le_right _ _
  have hsize := ofNat_transferSize (s := s) (i := i) fits (by omega)
  have hrest : words b l.command.toCommand - (l.posted + s.burstCountD1.toNat) -
      (burstCount s i).toNat = r - (burstCount s i).toNat := by omega
  apply Reading.moving
  · simp [step, resetMasterActive, hne, hload, active]
  · simp [step, hload]
  · rwa [hcommand]
  · simpa [step, hload, hcommand] using shortLast
  · simpa [step, hload, hcommand] using base
  · rw [hd1, hcount, hcommand, hposted, nextBurst, if_neg (by omega)]
    congr 1
    omega
  · rw [hd1, hcount]
    have := p.maxBurstCount_pos
    omega
  · rw [hd1, hcommand, hposted]
    omega
  · rw [hd1, hcommand, hposted, hrest, hcount]
    exact residue.sub
  · rw [hposted]
    simp only [step, hload, htc, ← counter]
    simp
  · rw [hd1, hcommand, hposted, hrest]
    simp only [step, hload, htc, Bool.true_or, if_true, Bool.false_eq_true, if_false]
    rw [BitVec.toNat_sub_of_le, length, hsize, Nat.sub_mul]
    rw [BitVec.le_def, length, hsize]
    exact Nat.mul_le_mul_right _ hle
  · rw [hd1, hposted]
    simp only [step, hload, htc, Bool.true_or, if_true, Bool.false_eq_true, if_false]
    rw [BitVec.toNat_add, counter, hsize, ← Nat.add_mul, Nat.mod_eq_of_lt]
    refine lt_of_le_of_lt (Nat.mul_le_mul_right _ ?_) fits.2
    omega

theorem next (h : Reading s l) (hp : p.burstEnable = true) (hrealign : p.burstRealignEnable = true)
    (ha : loadCommand s i = true → Short p i.snkCommandData.toCommand)
    (hreg : Regular ⟨s, l⟩ i) : Reading (step s i) (l.next s i) := by
  cases h with
  | idle active read _ done => exact next_idle hp active read done ha
  | loaded active read loaded fits none first shortFirst shortLast base length counter =>
    exact next_loaded hp hrealign active read loaded fits none first shortFirst shortLast base
      length counter
  | moving active loaded fits shortLast base burst some within residue address length counter =>
    cases htc : transferComplete s i with
    | false =>
      exact next_stalled active loaded fits shortLast base burst some within residue address
        length counter htc
    | true =>
      by_cases hlast : l.posted + s.burstCountD1.toNat = words b l.command.toCommand
      · have hzero : s.nextLengthCounter = 0#_ := by
          rw [eq_zero_iff_of_toNat length]
          omega
        exact next_done active hzero htc hlast
      · have hr : 0 < words b l.command.toCommand - l.posted - s.burstCountD1.toNat := by omega
        have hcount := burstCount_next hp hrealign shortLast residue length hr htc hreg
        exact next_burst active fits shortLast base some (by omega) residue length counter hr htc
          hcount

end Reading

theorem Reading.posted_le {s : State p} {l : Ledger b} (h : Reading s l) :
    l.posted ≤ words b l.command.toCommand := by
  cases h with
  | idle _ _ _ done => exact done.le
  | loaded _ _ _ _ none => rw [none]; exact Nat.zero_le _
  | moving _ _ _ _ _ _ _ within => omega

theorem Reading.done {s : State p} {l : Ledger b} (h : Reading s l) (ha : s.masterActive = false) :
    l.posted = words b l.command.toCommand := by
  cases h with
  | idle _ _ _ done => exact done
  | loaded active | moving active => simp [ha] at active

/-- The reader for commands whose length is a value of the length register. -/
def burstReader (p : MasterParams b) : Circuit (Monitored p) (Inputs b) :=
  (poster p).restrict fun c i => loadCommand c.hw i = true → Short p i.snkCommandData.toCommand

instance (c : Monitored p) (i : Inputs b) : Decidable ((burstReader p).admits c i) :=
  inferInstanceAs (Decidable ((poster p).admits c i ∧ (_ → _)))

instance (c : Monitored p) (i : Inputs b) :
    Decidable (((burstReader p).restrict Regular).admits c i) :=
  inferInstanceAs (Decidable ((burstReader p).admits c i ∧ Regular c i))

theorem reading (hp : p.burstEnable = true) (hrealign : p.burstRealignEnable = true)
    {c : Monitored p} (h : ((burstReader p).restrict Regular).Reachable c) :
    Reading c.hw c.ledger := by
  refine h.invariant (I := fun c => Reading c.hw c.ledger) ?_ ?_
  · rintro c rfl
    apply Reading.idle <;> simp [Monitored.reset, PatternReader.reset, words]
  · rintro ⟨s, l⟩ i - hc ⟨⟨-, ha⟩, hreg⟩
    exact hc.next hp hrealign ha hreg

/-- In every run whose cycles are regular, the reads of a command are contiguous from its base
address, run to the next burst boundary and from there in full bursts to the last one, and add up
to the words of the command; no further read is offered before the next command. -/
theorem read_burst_contract (hp : p.burstEnable = true) (hrealign : p.burstRealignEnable = true)
    {c : Monitored p} (h : ((burstReader p).restrict Regular).Reachable c) : Contract c := by
  obtain ⟨s, l⟩ := c
  have hc : Reading s l := reading hp hrealign h
  constructor
  · intro (hread : s.read = true)
    cases hc with
    | idle _ read | loaded _ read => simp [hread] at read
    | moving _ _ _ _ base burst some within _ address =>
      rw [base] at address
      exact ⟨address, burst, some, within⟩
  · intro (hidle : s.masterActive = false)
    cases hc with
    | idle _ read _ done => exact ⟨read, done⟩
    | loaded active | moving active => simp [hidle] at active

theorem read_burst_contract_two_words :
    let inputs : List (Inputs 2) := [.cycle ⟨⟨0#64, 8#32⟩, false⟩ true 0#32 false,
      .cycle ⟨⟨0#64, 8#32⟩, false⟩ false 0#32 false]
    let c := run ((burstReader .shipped).restrict Regular).step .reset inputs
    c.hw.read = true ∧ c.hw.burstCountD1.toNat =
      nextBurst .shipped c.ledger.command.toCommand c.ledger.posted := by
  refine ⟨by decide +kernel, ?_⟩
  have hrun := (Circuit.Reachable.init (C := (burstReader .shipped).restrict Regular) rfl).run
    [.cycle ⟨⟨0#64, 8#32⟩, false⟩ true 0#32 false, .cycle ⟨⟨0#64, 8#32⟩, false⟩ false 0#32 false]
    (by decide +kernel)
  exact ((read_burst_contract rfl rfl hrun).burst (by decide +kernel)).2.1

/-- A command of three words, followed on the bus by one that starts at an odd word, ends with a
burst of two words although one is left. -/
theorem next_command_breaks_contract :
    let inputs : List (Inputs 2) := [.cycle ⟨⟨0#64, 12#32⟩, true⟩ true 0#32 false,
      .cycle ⟨⟨12#64, 12#32⟩, true⟩ false 0#32 false,
      .cycle ⟨⟨12#64, 12#32⟩, true⟩ false 0#32 false]
    let c := run (burstReader .shipped).step .reset inputs
    (burstReader .shipped).Reachable c ∧ ¬Contract c := by
  refine ⟨(Circuit.Reachable.init rfl).run _ (by decide +kernel), fun h => ?_⟩
  exact absurd (h.burst (by decide +kernel)).2.1 (by decide +kernel)

end AvalonCores.MemoryTester.PatternReader
