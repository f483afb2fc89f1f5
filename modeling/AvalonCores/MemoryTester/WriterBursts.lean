import Mathlib.Tactic
import AvalonCores.MemoryTester.PatternWriter

/-! The bursts of `mtm_pattern_writer`.  The writer chooses the size of a burst when it begins it,
and compares its length counter with the last burst of the command that the command bus shows at
that time.  `Bursting` follows the beats of a burst under the condition `Regular`, which excludes
the cycles in which the comparison is with another command or with a counter that has run ahead. -/

namespace AvalonCores.MemoryTester

section Residue

variable {b : ℕ} {p : MasterParams b}

/-- The words `r` that a burst leaves fill bursts of the maximum size and one of `last` words. -/
def Residue (p : MasterParams b) (last r : ℕ) : Prop :=
  r = 0 ∨ last = 1 ∨ r % p.maxBurstCount = last % p.maxBurstCount

variable {last r : ℕ}

theorem Residue.eq_of_le (h : Residue p last r) (hr : 0 < r) (hr' : r ≤ p.maxBurstCount)
    (hlast : 0 < last) (hlast' : last ≤ p.maxBurstCount) : last = 1 ∨ last = r := by
  rcases h with rfl | h | h
  · omega
  · exact .inl h
  · right
    rcases hr'.lt_or_eq with hr' | rfl <;> rcases hlast'.lt_or_eq with hlast' | rfl
    · rw [Nat.mod_eq_of_lt hr', Nat.mod_eq_of_lt hlast'] at h
      exact h.symm
    · rw [Nat.mod_eq_of_lt hr', Nat.mod_self] at h
      omega
    · rw [Nat.mod_self, Nat.mod_eq_of_lt hlast'] at h
      omega
    · rfl

theorem Residue.le (h : Residue p last r) (hr : 0 < r) (hlast : 0 < last)
    (hlast' : last ≤ p.maxBurstCount) : last ≤ r := by
  by_cases hle : r ≤ p.maxBurstCount
  · obtain rfl | rfl := h.eq_of_le hr hle hlast hlast'
    · exact hr
    · exact le_rfl
  · omega

theorem Residue.sub_max (h : Residue p last r) (hr : p.maxBurstCount ≤ r) :
    Residue p last (r - p.maxBurstCount) := by
  rcases h with rfl | h | h
  · exact .inl (Nat.zero_sub _)
  · exact .inr (.inl h)
  · exact .inr (.inr (by rwa [← Nat.mod_eq_sub_mod hr]))

/-- One word past the maximum is left only when the last burst has a single word. -/
theorem Residue.sub_last (h : Residue p last r) (hr : 0 < r) (hr' : r ≤ p.maxBurstCount + 1)
    (hlast : 0 < last) (hlast' : last ≤ p.maxBurstCount) : Residue p last (r - last) := by
  rcases Nat.lt_or_eq_of_le hr' with hlt | rfl
  · obtain rfl | rfl := h.eq_of_le hr (by omega) hlast hlast'
    · exact .inr (.inl rfl)
    · exact .inl (Nat.sub_self _)
  · rcases h with h | h | h
    · omega
    · exact .inr (.inl h)
    · right; left
      rw [Nat.add_mod_left] at h
      rcases hlast'.lt_or_eq with hlast' | rfl
      · rwa [Nat.mod_eq_of_lt (by omega), Nat.mod_eq_of_lt hlast', eq_comm] at h
      · rw [Nat.mod_self] at h
        exact Nat.one_mod_eq_zero_iff.mp h

theorem residue_lastBurst (c : Command) : Residue p (lastBurst p c)
    (if p.burstRealignEnable then words b c - firstBurst p c else words b c) := by
  right; right
  simp only [lastBurst]
  split_ifs with h h h <;> simp [h]

end Residue

namespace PatternWriter

open AvalonCores.Sync

variable {b : ℕ} {p : MasterParams b}

/-- The words that the command has left after the cycle. -/
def wordsLeft (c : Monitored p) (i : Inputs b) : ℕ :=
  words b c.ledger.command - (c.ledger.next c.hw i).accepted

/-- Where the writer chooses a burst size with less than a full burst left, the length counter
equals the last burst of the command on the bus; and the writer does not begin a burst out of idle
with its length counter at zero. -/
structure Regular (c : Monitored p) (i : Inputs b) : Prop where
  idle : p.burstEnable = true → c.hw.masterActive = true → c.hw.write = false →
    (p.burstRealignEnable && c.hw.firstTransfer) = false → wordsLeft c i < p.maxBurstCount →
      enableShortLastBurst p i.snkCommandData c.hw.nextLengthCounter = true
  fast : p.burstEnable = true → burstBeginFast c.hw i = true →
    c.hw.nextLengthCounter ≠ 0#_ → wordsLeft c i < p.maxBurstCount →
      enableShortLastBurst p i.snkCommandData c.hw.nextLengthCounter = true
  fromIdle : burstBeginFromIdle c.hw i = true → c.hw.nextLengthCounter ≠ 0#_

/-- What the memory port and the command port see of the writer in a cycle. -/
structure Contract (c : Monitored p) (i : Inputs b) : Prop where
  ready : snkCommandReady c.hw = true → c.hw.write = false ∧ c.hw.burstCounter = 0#_ ∧
    c.ledger.left = 0 ∧ c.ledger.accepted = words b c.ledger.command
  waiting : c.hw.masterActive = true → c.hw.write = false →
    (burstCount c.hw i).toNat ≤ words b c.ledger.command - c.ledger.accepted
  firstBeat : c.hw.write = true → c.ledger.left = 0 →
    c.hw.transferAddress = (commandAddress b c.ledger.command).setWidth _ +
        BitVec.ofNat _ (c.ledger.accepted * 2 ^ b) ∧
      0 < c.hw.burstCountD1.toNat ∧
      c.hw.burstCountD1.toNat ≤ words b c.ledger.command - c.ledger.accepted ∧
      c.hw.burstCounter = c.hw.burstCountD1
  laterBeat : c.hw.write = true → c.ledger.left ≠ 0 →
    c.hw.burstCounter.toNat = c.ledger.left ∧
      c.ledger.left ≤ words b c.ledger.command - c.ledger.accepted

/-- The last `r` words of a command can be written in bursts of the maximum size and one of the
registered last burst count. -/
structure Planned (s : State p) (r : ℕ) : Prop where
  last_pos : 0 < s.shortLastBurstCountD1.toNat
  last_le : s.shortLastBurstCountD1.toNat ≤ p.maxBurstCount
  rest : Residue p s.shortLastBurstCountD1.toNat r

/-- Where the writer is within a burst. -/
inductive Bursting (s : State p) (l : Ledger) : Prop
  | idle (active : s.masterActive = false) (counter : s.burstCounter = 0#_) (left : l.left = 0)
  | waiting (active : s.masterActive = true) (write : s.write = false)
      (counter : s.burstCounter = 0#_) (left : l.left = 0)
      (address : s.loadCommandD1 = false →
        s.transferAddress = s.baseAddress + BitVec.ofNat _ (l.accepted * 2 ^ b))
      (first : p.burstEnable = true → (p.burstRealignEnable && s.firstTransfer) = true →
        l.accepted = 0 ∧ s.shortFirstBurstCountD1.toNat = firstBurst p l.command ∧
          Planned s (words b l.command - firstBurst p l.command))
      (later : p.burstEnable = true → (p.burstRealignEnable && s.firstTransfer) = false →
        Planned s (words b l.command - l.accepted))
  | posting (active : s.masterActive = true) (write : s.write = true)
      (counter : 0 < s.burstCounter.toNat)
      (within : s.burstCounter.toNat ≤ words b l.command - l.accepted)
      (beat : l.left = 0 ∧ s.burstCountD1 = s.burstCounter ∧
          s.transferAddress = s.baseAddress + BitVec.ofNat _ (l.accepted * 2 ^ b) ∨
        l.left = s.burstCounter.toNat)
      (rest : p.burstEnable = true →
        Planned s (words b l.command - l.accepted - s.burstCounter.toNat))

variable {s : State p} {l : Ledger} {i : Inputs b}

/-- With `r` words left, a burst of the maximum size, or of the last burst count where the
comparison selects it, leaves a number of words that can be written in the same way. -/
theorem Planned.burst {r : ℕ} (h : Planned s r) (hr : 0 < r) (short : Bool)
    (hshort : short = true → r ≤ p.maxBurstCount + 1) (hfull : r < p.maxBurstCount → short = true) :
    let n := if short then s.shortLastBurstCountD1.toNat else p.maxBurstCount
    0 < n ∧ n ≤ r ∧ Planned s (r - n) := by
  obtain ⟨hpos, hle, hrest⟩ := h
  cases short with
  | true => exact ⟨hpos, hrest.le hr hpos hle, hpos, hle, hrest.sub_last hr (hshort rfl) hpos hle⟩
  | false =>
    have hr' : p.maxBurstCount ≤ r := by
      by_contra hlt
      simpa using hfull (by omega)
    exact ⟨p.maxBurstCount_pos, hr', hpos, hle, hrest.sub_max hr'⟩

theorem burstCount_disabled (hp : p.burstEnable = false) : (burstCount s i).toNat = 1 := by
  simp [burstCount, selectBurstCount, hp, MasterParams.burstWidth]

theorem burstCount_first (hp : p.burstEnable = true)
    (hf : (p.burstRealignEnable && s.firstTransfer) = true) (ht : transferComplete s i = false) :
    burstCount s i = s.shortFirstBurstCountD1 := by
  simp only [Bool.and_eq_true] at hf
  simp [burstCount, selectBurstCount, hp, enableShortFirstBurst, hf.1, hf.2, ht]

theorem burstCount_later (hp : p.burstEnable = true)
    (hf : (p.burstRealignEnable && s.firstTransfer) = false ∨ transferComplete s i = true) :
    (burstCount s i).toNat =
      if enableShortLastBurst p i.snkCommandData s.nextLengthCounter then
        s.shortLastBurstCountD1.toNat
      else p.maxBurstCount := by
  have hfirst : enableShortFirstBurst p s.firstTransfer (transferComplete s i) = false := by
    rw [enableShortFirstBurst, hp, Bool.true_and]
    rcases hf with hf | hf <;> rw [hf] <;> simp
  rw [burstCount, hfirst, selectBurstCount_later hp]

/-- The length counter of an active writer is at most one word behind the words left. -/
theorem Counting.length_of_active (hc : Counting s l)
    (hlt : words b l.command * 2 ^ b < 2 ^ p.lengthWidth) (active : s.masterActive = true) :
    ∃ x, s.nextLengthCounter.toNat = x * 2 ^ b ∧ words b l.command - l.accepted ≤ x + 1 := by
  cases hc with
  | idle inactive => simp [active] at inactive
  | loaded _ _ _ fits _ _ length =>
    have hlength := Short.toNat_le ⟨fits.1, hlt⟩ le_rfl
    rw [← length] at hlength
    exact ⟨_, hlength, by omega⟩
  | moving _ _ _ _ _ length => exact ⟨_, length, by omega⟩

/-- The size of a burst that begins in a state that waits for words. -/
theorem waiting_burst (hc : Counting s l) (hlt : words b l.command * 2 ^ b < 2 ^ p.lengthWidth)
    (active : s.masterActive = true)
    (write : s.write = false)
    (first : p.burstEnable = true → (p.burstRealignEnable && s.firstTransfer) = true →
      l.accepted = 0 ∧ s.shortFirstBurstCountD1.toNat = firstBurst p l.command ∧
        Planned s (words b l.command - firstBurst p l.command))
    (later : p.burstEnable = true → (p.burstRealignEnable && s.firstTransfer) = false →
      Planned s (words b l.command - l.accepted))
    (hreg : Regular ⟨s, l⟩ i) :
    0 < (burstCount s i).toNat ∧ (burstCount s i).toNat ≤ words b l.command - l.accepted ∧
      (p.burstEnable = true →
        Planned s (words b l.command - l.accepted - (burstCount s i).toNat)) := by
  have htc : transferComplete s i = false := transferComplete_of_write write
  have hload : loadCommand s i = false := loadCommand_of_active active
  have hleft : wordsLeft ⟨s, l⟩ i = words b l.command - l.accepted := by
    simp [wordsLeft, Ledger.next, hload, htc]
  have hsome := hc.accepted_lt active
  obtain ⟨x, hx, hle⟩ := hc.length_of_active hlt active
  cases hp : p.burstEnable with
  | false =>
    rw [burstCount_disabled hp]
    exact ⟨Nat.one_pos, by omega, by simp⟩
  | true =>
    cases hf : (p.burstRealignEnable && s.firstTransfer) with
    | true =>
      obtain ⟨hzero, hsize, hrest⟩ := first hp hf
      rw [burstCount_first hp hf htc, hsize, hzero, Nat.sub_zero]
      exact ⟨firstBurst_pos (by omega), firstBurst_le_words, fun _ => hrest⟩
    | false =>
      rw [burstCount_later hp (.inl hf)]
      have := (later hp hf).burst (by omega)
        (enableShortLastBurst p i.snkCommandData s.nextLengthCounter)
        (fun h => by have := enableShortLastBurst_le h hx; omega)
        (fun h => hreg.idle hp active write hf (by rw [hleft]; exact h))
      exact ⟨this.1, this.2.1, fun _ => this.2.2⟩

/-- The size of a burst that begins on the last beat of another one. -/
theorem fast_burst (active : s.masterActive = true)
    (length : s.nextLengthCounter.toNat = (words b l.command - 1 - l.accepted) * 2 ^ b)
    (rest : p.burstEnable = true → Planned s (words b l.command - l.accepted - 1))
    (some : l.accepted + 1 < words b l.command)
    (htc : transferComplete s i = true) (hfast : burstBeginFast s i = true)
    (hne : s.nextLengthCounter ≠ 0#_) (hreg : Regular ⟨s, l⟩ i) :
    0 < (burstCount s i).toNat ∧ (burstCount s i).toNat ≤ words b l.command - (l.accepted + 1) ∧
      (p.burstEnable = true →
        Planned s (words b l.command - (l.accepted + 1) - (burstCount s i).toNat)) := by
  have hload : loadCommand s i = false := loadCommand_of_active active
  have hleft : wordsLeft ⟨s, l⟩ i = words b l.command - (l.accepted + 1) := by
    simp [wordsLeft, Ledger.next, hload, htc]
  cases hp : p.burstEnable with
  | false =>
    rw [burstCount_disabled hp]
    exact ⟨Nat.one_pos, by omega, by simp⟩
  | true =>
    rw [burstCount_later hp (.inr htc)]
    have := (rest hp).burst (by omega)
      (enableShortLastBurst p i.snkCommandData s.nextLengthCounter)
      (fun h => by have := enableShortLastBurst_le h length; omega)
      (fun h => hreg.fast hp hfast hne (by rw [hleft]; omega))
    rw [Nat.sub_sub] at this
    exact ⟨this.1, this.2.1, fun _ => this.2.2⟩

/-- The plan of a command does not change while the command lasts. -/
theorem Planned.step {r : ℕ} (h : Planned s r) (hload : loadCommand s i = false) :
    Planned (step s i) r := by
  have hlast : (PatternWriter.step s i).shortLastBurstCountD1 = s.shortLastBurstCountD1 := by
    simp [PatternWriter.step, hload]
  exact ⟨by rw [hlast]; exact h.last_pos, by rw [hlast]; exact h.last_le,
    by rw [hlast]; exact h.rest⟩

/-- In the middle of a burst no other one begins out of idle. -/
theorem fromIdle_eq_false (counter : 0 < s.burstCounter.toNat) :
    burstBeginFromIdle s i = false := by
  have hidle : burstIdle s = false := by
    rw [burstIdle, beq_eq_false_iff_ne]
    rintro h0
    simp [h0] at counter
  simp [burstBeginFromIdle, hidle]

theorem burstCounter_step (counter : 0 < s.burstCounter.toNat) (hbegin : burstBegin s i = false)
    (htc : transferComplete s i = true) :
    (step s i).burstCounter.toNat = s.burstCounter.toNat - 1 := by
  have hle : 1#p.burstWidth ≤ s.burstCounter := by
    rw [BitVec.le_def, one_burstWidth]
    exact counter
  have := BitVec.toNat_sub_of_le hle
  rw [one_burstWidth] at this
  simpa [step, hbegin, htc] using this

namespace Bursting

theorem next_idle (hc : Counting s l) (active : s.masterActive = false)
    (counter : s.burstCounter = 0#_) (left : l.left = 0) :
    Bursting (step s i) (l.next s i) := by
  have htc : transferComplete s i = false := transferComplete_of_write (hc.write_eq_false active)
  have hbegin : burstBegin s i = false := by
    simp [burstBegin, burstBeginFast, burstBeginFromIdle, active]
  obtain ⟨hactive, hwrite, -⟩ := step_idle (i := i) active (hc.write_eq_false active)
  cases hload : loadCommand s i with
  | false =>
    apply Bursting.idle
    · rw [hactive, hload]
    · simp [step, hbegin, htc, counter]
    · simp [Ledger.next, htc, left]
  | true =>
    have hlast (hp : p.burstEnable = true) :
        (step s i).shortLastBurstCountD1.toNat = lastBurst p i.snkCommandData := by
      simp [step, hload, shortLastBurstCount_toNat hp]
    have hcommand : (l.next s i).command = i.snkCommandData := by simp [Ledger.next, hload]
    have hnone : (l.next s i).accepted = 0 := by simp [Ledger.next, hload]
    have hfirst : (step s i).firstTransfer = true := by simp [step, hload]
    apply Bursting.waiting
    · rw [hactive, hload]
    · exact hwrite
    · simp [step, hbegin, htc, counter]
    · simp [Ledger.next, htc, left]
    · simp [step, hload]
    · intro hp hr
      rw [hfirst, Bool.and_true] at hr
      refine ⟨hnone, by simp [step, hload, shortFirstBurstCount_toNat hp, hcommand], ?_⟩
      have := residue_lastBurst (p := p) i.snkCommandData
      rw [if_pos hr] at this
      rw [hcommand]
      constructor <;> rw [hlast hp]
      · exact lastBurst_pos
      · exact lastBurst_le
      · exact this
    · intro hp hr
      rw [hfirst, Bool.and_true] at hr
      have := residue_lastBurst (p := p) i.snkCommandData
      rw [if_neg (by simp [hr])] at this
      rw [hcommand, hnone, Nat.sub_zero]
      constructor <;> rw [hlast hp]
      · exact lastBurst_pos
      · exact lastBurst_le
      · exact this

theorem next_waiting (hc : Counting s l) (hlt : words b l.command * 2 ^ b < 2 ^ p.lengthWidth)
    (active : s.masterActive = true)
    (write : s.write = false) (counter : s.burstCounter = 0#_) (left : l.left = 0)
    (address : s.loadCommandD1 = false →
      s.transferAddress = s.baseAddress + BitVec.ofNat _ (l.accepted * 2 ^ b))
    (first : p.burstEnable = true → (p.burstRealignEnable && s.firstTransfer) = true →
      l.accepted = 0 ∧ s.shortFirstBurstCountD1.toNat = firstBurst p l.command ∧
        Planned s (words b l.command - firstBurst p l.command))
    (later : p.burstEnable = true → (p.burstRealignEnable && s.firstTransfer) = false →
      Planned s (words b l.command - l.accepted))
    (hreg : Regular ⟨s, l⟩ i) : Bursting (step s i) (l.next s i) := by
  have htc : transferComplete s i = false := transferComplete_of_write write
  have hload : loadCommand s i = false := loadCommand_of_active active
  have hreset : resetMasterActive s i = false := by simp [resetMasterActive, htc]
  have hbc : burstComplete s i = false := burstComplete_of_stalled htc
  have hfast : burstBeginFast s i = false := burstBeginFast_of_incomplete hbc
  have hrw : resetWrite s i = false := resetWrite_of_stalled htc
  have hledger : l.next s i = l := Ledger.next_of_stalled hload htc
  have haddress : (step s i).transferAddress =
      (step s i).baseAddress + BitVec.ofNat _ (l.accepted * 2 ^ b) := by
    cases hc with
    | idle inactive => simp [active] at inactive
    | loaded _ _ loaded _ none _ _ zero => simp [step, hload, hbc, loaded, none, zero]
    | moving _ loaded => simpa [step, hload, hbc, loaded] using address loaded
  obtain ⟨hpos, hle, hrest⟩ := waiting_burst hc hlt active write first later hreg
  rw [hledger]
  cases hidle : burstBeginFromIdle s i with
  | false =>
    have hbegin : burstBegin s i = false := by simp [burstBegin, hfast, hidle]
    apply Bursting.waiting
    · simp [step, hreset, hload, active]
    · simp [step, hrw, setWrite, hidle, write]
    · simp [step, hbegin, htc, counter]
    · exact left
    · exact fun _ => haddress
    · intro hp hf
      have hf' : (p.burstRealignEnable && s.firstTransfer) = true := by
        simpa [step, hload, htc] using hf
      obtain ⟨h0, h1, h2⟩ := first hp hf'
      exact ⟨h0, by simpa [step, hload] using h1, h2.step hload⟩
    · intro hp hf
      exact (later hp (by simpa [step, hload, htc] using hf)).step hload
  | true =>
    have hne := hreg.fromIdle hidle
    have hbegin : burstBegin s i = true := by simp [burstBegin, hidle, hne]
    have hcounter : (step s i).burstCounter = burstCount s i := by simp [step, hbegin]
    apply Bursting.posting
    · simp [step, hreset, hload, active]
    · simp [step, hrw, setWrite, hidle]
    · rw [hcounter]; exact hpos
    · rw [hcounter]; exact hle
    · exact .inl ⟨left, by rw [hcounter]; simp [step, hbegin], haddress⟩
    · intro hp
      rw [hcounter]
      exact (hrest hp).step hload

/-- A cycle in which the bus does not accept the word that the writer offers. -/
theorem next_stalled (active : s.masterActive = true) (loaded : s.loadCommandD1 = false)
    (write : s.write = true) (counter : 0 < s.burstCounter.toNat)
    (within : s.burstCounter.toNat ≤ words b l.command - l.accepted)
    (beat : l.left = 0 ∧ s.burstCountD1 = s.burstCounter ∧
        s.transferAddress = s.baseAddress + BitVec.ofNat _ (l.accepted * 2 ^ b) ∨
      l.left = s.burstCounter.toNat)
    (rest : p.burstEnable = true →
      Planned s (words b l.command - l.accepted - s.burstCounter.toNat))
    (htc : transferComplete s i = false) : Bursting (step s i) (l.next s i) := by
  have hload : loadCommand s i = false := loadCommand_of_active active
  have hbc : burstComplete s i = false := burstComplete_of_stalled htc
  have hfast : burstBeginFast s i = false := burstBeginFast_of_incomplete hbc
  have hbegin : burstBegin s i = false := by
    simp [burstBegin, hfast, fromIdle_eq_false counter]
  have hledger : l.next s i = l := Ledger.next_of_stalled hload htc
  have hcounter : (step s i).burstCounter = s.burstCounter := by simp [step, hbegin, htc]
  rw [hledger]
  apply Bursting.posting
  · simp [step, resetMasterActive, htc, hload, active]
  · simp [step, resetWrite, htc, hbc, write]
  · rw [hcounter]; exact counter
  · rw [hcounter]; exact within
  · rw [hcounter]
    simpa [step, hbegin, hload, hbc, loaded] using beat
  · intro hp
    rw [hcounter]
    exact (rest hp).step hload

theorem left_step (counter : 0 < s.burstCounter.toNat)
    (beat : l.left = 0 ∧ s.burstCountD1 = s.burstCounter ∧
        s.transferAddress = s.baseAddress + BitVec.ofNat _ (l.accepted * 2 ^ b) ∨
      l.left = s.burstCounter.toNat)
    (htc : transferComplete s i = true) : (l.next s i).left = s.burstCounter.toNat - 1 := by
  rcases beat with ⟨h0, hd1, -⟩ | hl
  · simp [Ledger.next, htc, h0, hd1]
  · simp [Ledger.next, htc, hl, counter.ne']

/-- A beat in the middle of a burst. -/
theorem next_beat (active : s.masterActive = true) (write : s.write = true)
    (more : 1 < s.burstCounter.toNat)
    (within : s.burstCounter.toNat ≤ words b l.command - l.accepted)
    (rest : p.burstEnable = true →
      Planned s (words b l.command - l.accepted - s.burstCounter.toNat))
    (hne : s.nextLengthCounter ≠ 0#_) (htc : transferComplete s i = true)
    (hleft : (l.next s i).left = s.burstCounter.toNat - 1) :
    Bursting (step s i) (l.next s i) := by
  have hload : loadCommand s i = false := loadCommand_of_active active
  obtain ⟨hcommand, haccepted⟩ := Ledger.next_of_accepted (l := l) hload htc
  have hfromIdle : burstBeginFromIdle s i = false := fromIdle_eq_false (by omega)
  have hbc : burstComplete s i = false := by
    have hone : s.burstCounter ≠ 1#_ := by
      intro hone
      rw [hone, one_burstWidth] at more
      omega
    simp [burstComplete, hone]
  have hfast : burstBeginFast s i = false := burstBeginFast_of_incomplete hbc
  have hbegin : burstBegin s i = false := by simp [burstBegin, hfast, hfromIdle]
  have hcounter := burstCounter_step (by omega) hbegin htc
  apply Bursting.posting
  · simp [step, resetMasterActive, hne, hload, active]
  · simp [step, resetWrite, hne, hbc, setWrite, hfromIdle, write]
  · omega
  · rw [hcounter, hcommand, haccepted]; omega
  · exact .inr (by rw [hleft, hcounter])
  · intro hp
    rw [hcounter, hcommand, haccepted]
    rw [show words b l.command - (l.accepted + 1) - (s.burstCounter.toNat - 1) =
      words b l.command - l.accepted - s.burstCounter.toNat by omega]
    exact (rest hp).step hload

section LastBeat

variable (active : s.masterActive = true) (hone : s.burstCounter = 1#_)
  (htc : transferComplete s i = true) (hleft : (l.next s i).left = 0)

include active hone htc hleft

/-- The last beat of a command. -/
theorem next_done (hzero : s.nextLengthCounter = 0#_) : Bursting (step s i) (l.next s i) := by
  have hload : loadCommand s i = false := loadCommand_of_active active
  have hbegin : burstBegin s i = false := by simp [burstBegin, hzero]
  apply Bursting.idle
  · simp [step, resetMasterActive, htc, hload, hzero]
  · simp [step, hbegin, htc, hone]
  · exact hleft

/-- The last beat of a burst, on which the next burst begins. -/
theorem next_burst (write : s.write = true)
    (length : s.nextLengthCounter.toNat = (words b l.command - 1 - l.accepted) * 2 ^ b)
    (rest : p.burstEnable = true → Planned s (words b l.command - l.accepted - 1))
    (some : l.accepted + 1 < words b l.command) (hne : s.nextLengthCounter ≠ 0#_)
    (hfast : burstBeginFast s i = true)
    (haddress : (step s i).transferAddress =
      (step s i).baseAddress + BitVec.ofNat _ ((l.accepted + 1) * 2 ^ b))
    (hreg : Regular ⟨s, l⟩ i) : Bursting (step s i) (l.next s i) := by
  have hload : loadCommand s i = false := loadCommand_of_active active
  obtain ⟨hcommand, haccepted⟩ := Ledger.next_of_accepted (l := l) hload htc
  have hfromIdle : burstBeginFromIdle s i = false :=
    fromIdle_eq_false (by rw [hone, one_burstWidth]; exact Nat.one_pos)
  have hbegin : burstBegin s i = true := by simp [burstBegin, hfast, hne]
  have hcounter : (step s i).burstCounter = burstCount s i := by simp [step, hbegin]
  obtain ⟨hpos, hle, hrest⟩ := fast_burst active length rest some htc hfast hne hreg
  apply Bursting.posting
  · simp [step, resetMasterActive, hne, hload, active]
  · simp [step, resetWrite, hne, hfast, setWrite, hfromIdle, write]
  · rw [hcounter]; exact hpos
  · rw [hcounter, hcommand, haccepted]; exact hle
  · refine .inl ⟨hleft, by rw [hcounter]; simp [step, hbegin], ?_⟩
    rw [haccepted]
    exact haddress
  · intro hp
    rw [hcounter, hcommand, haccepted]
    exact (hrest hp).step hload

/-- The last beat of a burst, after which the writer waits for words. -/
theorem next_pause
    (rest : p.burstEnable = true → Planned s (words b l.command - l.accepted - 1))
    (hne : s.nextLengthCounter ≠ 0#_) (hfast : burstBeginFast s i = false)
    (haddress : (step s i).transferAddress =
      (step s i).baseAddress + BitVec.ofNat _ ((l.accepted + 1) * 2 ^ b)) :
    Bursting (step s i) (l.next s i) := by
  have hload : loadCommand s i = false := loadCommand_of_active active
  obtain ⟨hcommand, haccepted⟩ := Ledger.next_of_accepted (l := l) hload htc
  have hfromIdle : burstBeginFromIdle s i = false :=
    fromIdle_eq_false (by rw [hone, one_burstWidth]; exact Nat.one_pos)
  have hbc : burstComplete s i = true := by simp [burstComplete, hone, htc]
  have hbegin : burstBegin s i = false := by simp [burstBegin, hfast, hfromIdle]
  have hfirst : (step s i).firstTransfer = false := by
    simp only [step, hload, htc, Bool.and_true, Bool.false_eq_true, if_false]
    cases s.firstTransfer <;> simp
  apply Bursting.waiting
  · simp [step, resetMasterActive, hne, hload, active]
  · simp [step, resetWrite, hfast, hbc]
  · simp [step, hbegin, htc, hone]
  · exact hleft
  · intro _
    rw [haccepted]
    exact haddress
  · intro _ hf
    simp [hfirst] at hf
  · intro hp _
    rw [hcommand, haccepted, ← Nat.sub_sub]
    exact (rest hp).step hload

end LastBeat

theorem next_posting (hc : Counting s l) (hlt : words b l.command * 2 ^ b < 2 ^ p.lengthWidth)
    (active : s.masterActive = true)
    (write : s.write = true) (counter : 0 < s.burstCounter.toNat)
    (within : s.burstCounter.toNat ≤ words b l.command - l.accepted)
    (beat : l.left = 0 ∧ s.burstCountD1 = s.burstCounter ∧
        s.transferAddress = s.baseAddress + BitVec.ofNat _ (l.accepted * 2 ^ b) ∨
      l.left = s.burstCounter.toNat)
    (rest : p.burstEnable = true →
      Planned s (words b l.command - l.accepted - s.burstCounter.toNat))
    (hreg : Regular ⟨s, l⟩ i) : Bursting (step s i) (l.next s i) := by
  cases hc with
  | idle inactive => simp [active] at inactive
  | loaded _ idle => simp [write] at idle
  | moving _ loaded fits some base length tcounter =>
  cases htc : transferComplete s i with
  | false => exact next_stalled active loaded write counter within beat rest htc
  | true =>
    have hload : loadCommand s i = false := loadCommand_of_active active
    have hleft := left_step counter beat htc
    by_cases hone : s.burstCounter = 1#_
    · have hcount : s.burstCounter.toNat = 1 := by rw [hone, one_burstWidth]
      have hbc : burstComplete s i = true := by simp [burstComplete, hone, htc]
      have haddress : (step s i).transferAddress =
          (step s i).baseAddress + BitVec.ofNat _ ((l.accepted + 1) * 2 ^ b) := by
        have htoNat := Short.toNat_le ⟨fits.1, hlt⟩ (Nat.succ_le_of_lt some)
        rw [← tcounter] at htoNat
        simp only [step, hload, hbc, Bool.true_or, if_true, Bool.false_eq_true, if_false]
        rw [← BitVec.ofNat_toNat, htoNat]
      rw [hcount] at hleft rest
      by_cases hzero : s.nextLengthCounter = 0#_
      · exact next_done active hone htc hleft hzero
      · have hmore : l.accepted + 1 < words b l.command := by
          rw [eq_zero_iff_of_toNat length] at hzero
          omega
        cases hfast : burstBeginFast s i with
        | true =>
          exact next_burst active hone htc hleft write length rest hmore hzero hfast haddress hreg
        | false => exact next_pause active hone htc hleft rest hzero hfast haddress
    · have more : 1 < s.burstCounter.toNat := by
        by_contra hle
        apply hone
        apply BitVec.eq_of_toNat_eq
        rw [one_burstWidth]
        omega
      have hne : s.nextLengthCounter ≠ 0#_ := by
        rw [Ne, eq_zero_iff_of_toNat length]
        omega
      exact next_beat active write more within rest hne htc hleft

end Bursting

/-- The writer for commands whose length is a value of the length register. -/
def burstWriter (p : MasterParams b) : Circuit (Monitored p) (Inputs b) :=
  (writer p).restrict fun c i => loadCommand c.hw i = true → Short p i.snkCommandData

theorem words_lt {c : Monitored p} (h : (burstWriter p).Reachable c) :
    words b c.ledger.command * 2 ^ b < 2 ^ p.lengthWidth := by
  refine h.invariant (I := fun c => words b c.ledger.command * 2 ^ b < 2 ^ p.lengthWidth) ?_ ?_
  · rintro c rfl
    simp [Monitored.reset, words]
  · rintro c i - hc ⟨-, ha⟩
    show words b (c.ledger.next c.hw i).command * 2 ^ b < _
    cases hload : loadCommand c.hw i with
    | false => simpa [Ledger.next, hload] using hc
    | true => simpa [Ledger.next, hload] using (ha hload).2

theorem bursting {c : Monitored p} (h : ((burstWriter p).restrict Regular).Reachable c) :
    Bursting c.hw c.ledger := by
  refine h.invariant (I := fun c => Bursting c.hw c.ledger) ?_ ?_
  · rintro c rfl
    apply Bursting.idle <;> rfl
  · rintro ⟨s, l⟩ i hr hb ⟨-, hreg⟩
    have hc : Counting s l := counting hr.of_restrict.of_restrict
    cases hb with
    | idle active counter left => exact Bursting.next_idle hc active counter left
    | waiting active write counter left address first later =>
      exact Bursting.next_waiting hc (words_lt hr.of_restrict) active write counter left address
        first later hreg
    | posting active write counter within beat rest =>
      exact Bursting.next_posting hc (words_lt hr.of_restrict) active write counter within beat rest
        hreg

/-- In every run whose cycles are regular, the bursts of a command cover its words from its base
address on, each with as many beats as it announces; the writer never waits for more words than the
command has left; and it is ready for a command only between bursts. -/
theorem burst_contract {c : Monitored p} (h : ((burstWriter p).restrict Regular).Reachable c)
    {i : Inputs b} (hreg : Regular c i) : Contract c i := by
  obtain ⟨s, l⟩ := c
  have hc : Counting s l := counting h.of_restrict.of_restrict
  have hlt := words_lt h.of_restrict
  have hb : Bursting s l := bursting h
  cases hb with
  | idle active counter left =>
    have hw := hc.write_eq_false active
    constructor
    · exact fun _ => ⟨hw, counter, left, hc.accepted_eq active⟩
    · simp [active]
    · simp [hw]
    · simp [hw]
  | waiting active write counter left address first later =>
    constructor
    · simp [snkCommandReady, active]
    · exact fun _ _ => (waiting_burst hc hlt active write first later hreg).2.1
    · simp [write]
    · simp [write]
  | posting active write counter within beat rest =>
    constructor
    · simp [snkCommandReady, active]
    · simp [write]
    · intro _ (hl : l.left = 0)
      rcases beat with ⟨-, hd1, haddress⟩ | hbeat
      · have hbase : s.baseAddress = (commandAddress b l.command).setWidth _ := by
          cases hc with
          | idle inactive => simp [active] at inactive
          | loaded _ _ _ _ _ base | moving _ _ _ _ base => exact base
        rw [hbase] at haddress
        exact ⟨haddress, by rw [hd1]; exact counter, by rw [hd1]; exact within, hd1.symm⟩
      · omega
    · intro _ (hl : l.left ≠ 0)
      rcases beat with ⟨h0, -⟩ | hbeat
      · exact absurd h0 hl
      · exact ⟨hbeat.symm, by rw [hbeat]; exact within⟩

set_option synthInstance.maxSize 512 in
instance (c : Monitored p) (i : Inputs b) : Decidable (Regular c i) :=
  decidable_of_iff (_ ∧ _ ∧ _)
    ⟨fun ⟨h1, h2, h3⟩ => ⟨h1, h2, h3⟩, fun ⟨h1, h2, h3⟩ => ⟨h1, h2, h3⟩⟩

instance (c : Monitored p) (i : Inputs b) : Decidable ((burstWriter p).admits c i) :=
  inferInstanceAs (Decidable ((writer p).admits c i ∧ (_ → _)))

instance (c : Monitored p) (i : Inputs b) :
    Decidable (((burstWriter p).restrict Regular).admits c i) :=
  inferInstanceAs (Decidable ((burstWriter p).admits c i ∧ Regular c i))

/-- A cycle in which the command bus shows `c`, and the stream `x`. -/
def Inputs.cycle (c : Command) (commandValid : Bool) (x : Word 2) (valid : Bool) : Inputs 2 :=
  ⟨false, x, valid, c, commandValid, 0#32⟩

theorem burst_contract_two_words :
    let inputs : List (Inputs 2) := [.cycle ⟨0#64, 8#32⟩ false 5#32 true,
      .cycle ⟨0#64, 8#32⟩ false 6#32 true, .cycle ⟨0#64, 8#32⟩ true 0#32 false,
      .cycle ⟨0#64, 8#32⟩ false 0#32 false]
    let c := run ((burstWriter .shipped).restrict Regular).step .reset inputs
    c.hw.write = true ∧ c.ledger.left = 0 ∧ c.hw.burstCountD1.toNat = 2 ∧
      c.hw.burstCounter = c.hw.burstCountD1 := by
  refine ⟨by decide, by decide, by decide, ?_⟩
  have hrun := (Circuit.Reachable.init (C := (burstWriter .shipped).restrict Regular) rfl).run
    [.cycle ⟨0#64, 8#32⟩ false 5#32 true, .cycle ⟨0#64, 8#32⟩ false 6#32 true,
      .cycle ⟨0#64, 8#32⟩ true 0#32 false, .cycle ⟨0#64, 8#32⟩ false 0#32 false] (by decide +kernel)
  have hcontract := burst_contract hrun (i := .cycle ⟨0#64, 8#32⟩ false 0#32 false)
    (by decide +kernel)
  exact (hcontract.firstBeat (by decide +kernel) (by decide +kernel)).2.2.2

/-- A command of one word whose word comes after the length counter has reached zero leaves the
burst counter at its maximum when the writer is ready again. -/
theorem late_word_breaks_contract :
    let inputs : List (Inputs 2) := [.cycle ⟨0#64, 4#32⟩ true 0#32 false,
      .cycle ⟨0#64, 4#32⟩ false 5#32 true, .cycle ⟨0#64, 4#32⟩ false 0#32 false,
      .cycle ⟨0#64, 4#32⟩ false 0#32 false]
    let c := run (burstWriter .shipped).step .reset inputs
    (burstWriter .shipped).Reachable c ∧
      ¬Contract c (.cycle ⟨0#64, 4#32⟩ false 0#32 false) := by
  refine ⟨(Circuit.Reachable.init rfl).run _ (by decide +kernel), fun h => ?_⟩
  exact absurd (h.ready (by decide +kernel)).2.1 (by decide +kernel)

end PatternWriter

end AvalonCores.MemoryTester
