import Mathlib.Tactic
import AvalonCores.Sync.Execution
import AvalonCores.MemoryTester.WriterBursts

/-! The words that `mtm_pattern_writer` moves from its stream to its memory port.  `Supplied`
relates the fill of the FIFO to the beats that the current burst has left.  It needs no `Regular`
cycles: a burst of the wrong size is still a burst whose words the FIFO holds. -/

namespace AvalonCores.MemoryTester.PatternWriter

open AvalonCores.Sync

variable {b : ℕ} {p : MasterParams b}

section Step

variable {s : State p} {l : Ledger} {i : Inputs b}

/-- The registered short burst counts of an active writer hold at least one word. -/
structure Sized (s : State p) : Prop where
  first : p.burstEnable = true → s.masterActive = true → 0 < s.shortFirstBurstCountD1.toNat
  last : p.burstEnable = true → s.masterActive = true → 0 < s.shortLastBurstCountD1.toNat

/-- What the fill of the FIFO has to do with the words that the writer offers: while it offers one,
the FIFO holds the rest of the burst.  A burst out of idle with the length counter at zero leaves
the burst counter at zero; it ends with its first word. -/
structure Supplied (s : State p) : Prop where
  depth : s.fifo.length ≤ p.fifoDepth
  some : s.write = true → s.fifo ≠ []
  burst : s.write = true → s.burstCounter.toNat ≤ s.fifo.length
  last : s.write = true → s.burstCounter = 0#_ → s.nextLengthCounter = 0#_

theorem Sized.reset : Sized (PatternWriter.reset : State p) := by
  constructor <;> simp [PatternWriter.reset]

theorem Sized.next (h : Sized s) (ha : loadCommand s i = true → 0 < words b i.snkCommandData) :
    Sized (step s i) := by
  cases hload : loadCommand s i with
  | false =>
    constructor
    · intro hp hs
      simpa [step, hload] using h.first hp (masterActive_of_step hload hs)
    · intro hp hs
      simpa [step, hload] using h.last hp (masterActive_of_step hload hs)
  | true =>
    constructor
    · intro hp _
      simpa [step, hload, shortFirstBurstCount_toNat hp] using firstBurst_pos (ha hload)
    · intro hp _
      simpa [step, hload, shortLastBurstCount_toNat hp] using lastBurst_pos

theorem Sized.burstCount_pos (h : Sized s) (active : s.masterActive = true) :
    0 < (burstCount s i).toNat := by
  cases hp : p.burstEnable with
  | false =>
    rw [burstCount_disabled hp]
    exact Nat.one_pos
  | true =>
    simp only [burstCount, selectBurstCount, hp, if_true]
    split_ifs
    · exact h.first hp active
    · exact h.last hp active
    · rw [ofNat_burstWidth le_rfl]
      exact p.maxBurstCount_pos

theorem Counting.of_write (h : Counting s l) (write : s.write = true) :
    s.masterActive = true ∧ s.loadCommandD1 = false := by
  cases h with
  | idle _ idle | loaded _ idle => simp [write] at idle
  | moving active loaded => exact ⟨active, loaded⟩

/-- The length counter of a command that has just been loaded. -/
theorem Counting.length_of_loaded (h : Counting s l)
    (hlt : words b l.command * 2 ^ b < 2 ^ p.lengthWidth) (loaded : s.loadCommandD1 = true) :
    s.nextLengthCounter ≠ 0#_ := by
  cases h with
  | idle _ _ loading | moving _ loading => simp [loaded] at loading
  | loaded _ _ _ fits _ _ length =>
    have htoNat := Short.toNat_le ⟨fits.1, hlt⟩ le_rfl
    rw [← length] at htoNat
    rw [Ne, eq_zero_iff_of_toNat htoNat]
    exact fits.1.ne'

/-- The FIFO loses the word that the memory port accepts and gains the one that the stream gives. -/
theorem Supplied.length_step (h : Supplied s) :
    (step s i).fifo.length + (transferComplete s i).toNat =
      s.fifo.length + (fifoWrite s i).toNat := by
  rw [← fifoRead_eq]
  refine ShowAhead.next_length (fun hread => h.some ?_) _ _
  simp only [fifoRead, Bool.and_eq_true] at hread
  exact hread.1

theorem Supplied.fifoWrite_lt (h : Supplied s) (hw : fifoWrite s i = true) :
    s.fifo.length < p.fifoDepth := by
  have hdepth := h.depth
  simp only [fifoWrite, snkReady, Bool.and_eq_true, decide_eq_true_eq] at hw
  omega

theorem Supplied.depth_step (h : Supplied s) : (step s i).fifo.length ≤ p.fifoDepth := by
  have hlength := h.length_step (i := i)
  have hdepth := h.depth
  cases hw : fifoWrite s i with
  | false =>
    rw [hw, Bool.toNat_false] at hlength
    omega
  | true =>
    have hlt := h.fifoWrite_lt hw
    rw [hw, Bool.toNat_true] at hlength
    omega

/-- No burst begins in a cycle in which the writer offers a word that is not accepted. -/
theorem Supplied.burstBegin_stalled (h : Supplied s) (write : s.write = true)
    (htc : transferComplete s i = false) : burstBegin s i = false := by
  have hfast : burstBeginFast s i = false :=
    burstBeginFast_of_incomplete (burstComplete_of_stalled htc)
  by_cases hzero : s.burstCounter = 0#_
  · simp [burstBegin, h.last write hzero]
  · have hidle : burstBeginFromIdle s i = false := by simp [burstBeginFromIdle, burstIdle, hzero]
    simp [burstBegin, hfast, hidle]

namespace Supplied

theorem reset : Supplied (PatternWriter.reset : State p) := by
  constructor <;> simp [PatternWriter.reset]

/-- The writer offers no word in the next cycle. -/
theorem of_write_eq_false (h : Supplied s) (write : (step s i).write = false) :
    Supplied (step s i) where
  depth := h.depth_step
  some hw := by simp [write] at hw
  burst hw := by simp [write] at hw
  last hw := by simp [write] at hw

/-- A cycle in which the writer waits for words, or has no command. -/
theorem next_waiting (h : Supplied s) (hsized : Sized s)
    (hloaded : s.loadCommandD1 = true → s.nextLengthCounter ≠ 0#_) (write : s.write = false) :
    Supplied (step s i) := by
  have htc : transferComplete s i = false := transferComplete_of_write write
  have hbc : burstComplete s i = false := burstComplete_of_stalled htc
  have hfast : burstBeginFast s i = false := burstBeginFast_of_incomplete hbc
  have hrw : resetWrite s i = false := resetWrite_of_stalled htc
  cases hidle : burstBeginFromIdle s i with
  | false => exact h.of_write_eq_false (by simp [step, hrw, setWrite, hidle, write])
  | true =>
    have hbegin : burstBegin s i = (s.nextLengthCounter != 0#_) := by
      simp [burstBegin, hfast, hidle]
    simp only [burstBeginFromIdle, burstIdle, Bool.and_eq_true, decide_eq_true_eq,
      beq_iff_eq] at hidle
    obtain ⟨⟨active, hzero⟩, hfill⟩ := hidle
    have hpos := hsized.burstCount_pos (i := i) active
    have hload : loadCommand s i = false := loadCommand_of_active active
    have hlength := h.length_step (i := i)
    rw [htc, Bool.toNat_false] at hlength
    refine ⟨h.depth_step, fun _ => ?_, fun _ => ?_, fun _ hcounter => ?_⟩
    · rw [← List.length_pos_iff]
      omega
    · by_cases hnl : s.nextLengthCounter = 0#_
      · simp [step, hbegin, hnl, htc, hzero]
      · have hcount : (step s i).burstCounter = burstCount s i := by simp [step, hbegin, hnl]
        rw [hcount]
        omega
    · by_cases hnl : s.nextLengthCounter = 0#_
      · have hd1 : s.loadCommandD1 = false := by
          by_contra hne
          exact hloaded (by simpa using hne) hnl
        simp [step, hload, htc, hd1, hnl]
      · have hcount : (step s i).burstCounter = burstCount s i := by simp [step, hbegin, hnl]
        rw [hcount] at hcounter
        simp [hcounter] at hpos

/-- A cycle in which the memory port does not accept the word that the writer offers. -/
theorem next_stalled (h : Supplied s) (hc : Counting s l) (write : s.write = true)
    (htc : transferComplete s i = false) : Supplied (step s i) := by
  obtain ⟨active, loaded⟩ := hc.of_write write
  have hload : loadCommand s i = false := loadCommand_of_active active
  have hbegin := h.burstBegin_stalled write htc
  have hcounter : (step s i).burstCounter = s.burstCounter := by simp [step, hbegin, htc]
  have hnl : (step s i).nextLengthCounter = s.nextLengthCounter := by
    simp [step, hload, htc, loaded]
  have hlength := h.length_step (i := i)
  rw [htc, Bool.toNat_false] at hlength
  refine ⟨h.depth_step, fun _ => ?_, fun _ => ?_, fun _ => ?_⟩
  · have := List.length_pos_iff.mpr (h.some write)
    rw [← List.length_pos_iff]
    omega
  · have := h.burst write
    rw [hcounter]
    omega
  · rw [hcounter, hnl]
    exact h.last write

/-- A cycle in which the memory port accepts a word.  The burst goes on with the words that the FIFO
still holds, or the next one begins with more words in the FIFO than it has beats. -/
theorem next_accepted (h : Supplied s) (hsized : Sized s) (hc : Counting s l)
    (write : s.write = true) (htc : transferComplete s i = true) : Supplied (step s i) := by
  obtain ⟨active, -⟩ := hc.of_write write
  have hlength := h.length_step (i := i)
  rw [htc, Bool.toNat_true] at hlength
  have hburst := h.burst write
  by_cases hnl : s.nextLengthCounter = 0#_
  · exact h.of_write_eq_false (by simp [step, resetWrite, hnl, htc])
  have hpos : 0 < s.burstCounter.toNat := by
    rw [Nat.pos_iff_ne_zero]
    intro hzero
    exact hnl (h.last write (BitVec.eq_of_toNat_eq (by simpa using hzero)))
  have hfromIdle : burstBeginFromIdle s i = false := fromIdle_eq_false hpos
  have hcounter : (step s i).write = true → 0 < (step s i).burstCounter.toNat ∧
      (step s i).burstCounter.toNat + 1 ≤ s.fifo.length := by
    by_cases hone : s.burstCounter = 1#_
    · have hbc : burstComplete s i = true := by simp [burstComplete, hone, htc]
      intro hwrite
      have hfast : burstBeginFast s i = true := by
        by_contra hne
        simp [step, resetWrite, hbc, hne] at hwrite
      have hcount : (step s i).burstCounter = burstCount s i := by
        simp [step, burstBegin, hfast, hnl]
      simp only [burstBeginFast, Bool.and_eq_true, decide_eq_true_eq] at hfast
      rw [hcount]
      exact ⟨hsized.burstCount_pos active, hfast.2⟩
    · have hbc : burstComplete s i = false := by simp [burstComplete, hone]
      have hbegin : burstBegin s i = false := by
        simp [burstBegin, burstBeginFast, hbc, hfromIdle]
      have hmore : s.burstCounter.toNat ≠ 1 := by
        rw [← one_burstWidth (p := p)]
        exact fun heq => hone (BitVec.eq_of_toNat_eq heq)
      have hcount := burstCounter_step hpos hbegin htc
      exact fun _ => ⟨by omega, by omega⟩
  refine ⟨h.depth_step, fun hw => ?_, fun hw => ?_, fun hw hzero => ?_⟩
  · have := hcounter hw
    rw [← List.length_pos_iff]
    omega
  · have := hcounter hw
    omega
  · have := hcounter hw
    simp [hzero] at this

theorem next (h : Supplied s) (hsized : Sized s) (hc : Counting s l)
    (hlt : words b l.command * 2 ^ b < 2 ^ p.lengthWidth) : Supplied (step s i) := by
  cases write : s.write with
  | false => exact h.next_waiting hsized (hc.length_of_loaded hlt) write
  | true =>
    cases htc : transferComplete s i with
    | false => exact h.next_stalled hc write htc
    | true => exact h.next_accepted hsized hc write htc

/-- A word that the memory port does not accept stays where it is, with its address. -/
theorem hold (h : Supplied s) (hc : Counting s l) (write : s.write = true)
    (hwait : i.masterWaitrequest = true) (j : Inputs b) :
    (step s i).write = true ∧ masterWritedata (step s i) j = masterWritedata s i ∧
      (step s i).transferAddress = s.transferAddress ∧
      (step s i).burstCountD1 = s.burstCountD1 := by
  have htc : transferComplete s i = false := by simp [transferComplete, hwait]
  obtain ⟨-, loaded⟩ := hc.of_write write
  have hbc : burstComplete s i = false := burstComplete_of_stalled htc
  have hbegin := h.burstBegin_stalled write htc
  refine ⟨by simp [step, resetWrite, htc, hbc, write], ?_, by simp [step, hbc, loaded],
    by simp [step, hbegin, loaded]⟩
  obtain ⟨x, q, hq⟩ := List.exists_cons_of_ne_nil (h.some write)
  simp [masterWritedata, step, fifoRead_eq, htc, ShowAhead.next, ShowAhead.front, hq]

end Supplied

end Step

theorem supplied {c : Monitored p} (h : (burstWriter p).Reachable c) :
    Sized c.hw ∧ Supplied c.hw := by
  refine h.invariant (I := fun c => Sized c.hw ∧ Supplied c.hw) ?_ ?_
  · rintro c rfl
    exact ⟨Sized.reset, Supplied.reset⟩
  · rintro c i hr ⟨hsized, hs⟩ ⟨-, hshort⟩
    exact ⟨hsized.next fun hload => (hshort hload).1,
      hs.next hsized (counting hr.of_restrict) (words_lt hr)⟩

section Execution

variable {st : ℕ → Monitored p} {i : ℕ → Inputs b}

/-- The words that the FIFO has taken from the stream before cycle `n`. -/
def streamed (st : ℕ → Monitored p) (i : ℕ → Inputs b) : ℕ → List (Word b) :=
  collected (fun t => accepts (st t).hw (i t)) fun t => (i t).snkData

/-- The words that the memory port has accepted before cycle `n`. -/
def written (st : ℕ → Monitored p) (i : ℕ → Inputs b) : ℕ → List (Word b) :=
  collected (fun t => transferComplete (st t).hw (i t)) fun t => masterWritedata (st t).hw (i t)

/-- The writer loaded a command in cycle `t₀` and has worked on it up to cycle `t`. -/
structure Serving (st : ℕ → Monitored p) (i : ℕ → Inputs b) (t₀ t : ℕ) : Prop where
  lt : t₀ < t
  load : loadCommand (st t₀).hw (i t₀) = true
  active : ∀ u, t₀ < u → u ≤ t → (st u).hw.masterActive = true

/-- A run in which the writer moves the words of its stream, in order, each once, and for each
command as many as the command asks for. -/
structure Moves (st : ℕ → Monitored p) (i : ℕ → Inputs b) : Prop where
  kth : ∀ n k, k < (written st i n).length →
    (written st i n)[k]? = (streamed st i n)[k]?.map byteReversal
  inOrder : ∀ n, written st i n ++ (st n).hw.fifo.map byteReversal =
    (streamed st i n).map byteReversal
  notEmpty : ∀ t, fifoRead (st t).hw (i t) = true → (st t).hw.fifo ≠ []
  notFull : ∀ t, fifoWrite (st t).hw (i t) = true → (st t).hw.fifo.length < p.fifoDepth
  hold : ∀ t, (st t).hw.write = true → (i t).masterWaitrequest = true →
    (st (t + 1)).hw.write = true ∧
      masterWritedata (st (t + 1)).hw (i (t + 1)) = masterWritedata (st t).hw (i t) ∧
      (st (t + 1)).hw.transferAddress = (st t).hw.transferAddress ∧
      (st (t + 1)).hw.burstCountD1 = (st t).hw.burstCountD1
  complete : ∀ t, (st t).hw.masterActive = true → (st (t + 1)).hw.masterActive = false →
    ∃ t₀, Serving st i t₀ t ∧ (written st i (t + 1)).length =
      (written st i t₀).length + words b (i t₀).snkCommandData

theorem written_append_fifo (h : (burstWriter p).Execution st i) (n : ℕ) :
    written st i n ++ (st n).hw.fifo.map byteReversal = (streamed st i n).map byteReversal := by
  have hwritten : written st i n = (collected (fun t => transferComplete (st t).hw (i t))
      (fun t => ShowAhead.front (st t).hw.fifo (i t).fifoIdle) n).map byteReversal := by
    simp [written, collected, masterWritedata]
  rw [hwritten, ← List.map_append]
  congr 1
  clear hwritten
  induction n with
  | zero =>
    have hinit : st 0 = .reset := h.init
    simp [collected, streamed, hinit, Monitored.reset, PatternWriter.reset]
  | succ n ih =>
    have hs := (supplied (h.reachable n)).2
    have hfifo : (st (n + 1)).hw.fifo = ShowAhead.next (st n).hw.fifo
        (transferComplete (st n).hw (i n)) (fifoWrite (st n).hw (i n)) (i n).snkData := by
      rw [h.step, ← fifoRead_eq]
      rfl
    rw [streamed, collected_succ, collected_succ, hfifo]
    refine ShowAhead.next_history ih (fun htc => hs.some ?_) _ _ _
    simp only [transferComplete, Bool.and_eq_true] at htc
    exact htc.1

theorem written_length_succ (st : ℕ → Monitored p) (i : ℕ → Inputs b) (n : ℕ) :
    (written st i (n + 1)).length =
      (written st i n).length + (transferComplete (st n).hw (i n)).toNat :=
  collected_length_succ _ _ n

/-- An active writer works on a command that it has loaded, and the memory port has accepted the
words that the ledger counts since. -/
theorem serving (h : (burstWriter p).Execution st i) (n : ℕ)
    (active : (st n).hw.masterActive = true) : ∃ t₀, Serving st i t₀ n ∧
      (st n).ledger.command = (i t₀).snkCommandData ∧
      (written st i n).length = (written st i t₀).length + (st n).ledger.accepted := by
  induction n with
  | zero =>
    have hinit : st 0 = .reset := h.init
    simp [hinit, Monitored.reset, PatternWriter.reset] at active
  | succ n ih =>
    have hledger : (st (n + 1)).ledger = (st n).ledger.next (st n).hw (i n) := by
      rw [h.step]
      rfl
    cases hprev : (st n).hw.masterActive with
    | true =>
      obtain ⟨t₀, hserving, hcommand, hlength⟩ := ih hprev
      have hload : loadCommand (st n).hw (i n) = false := loadCommand_of_active hprev
      refine ⟨t₀, ⟨hserving.lt.trans (Nat.lt_succ_self n), hserving.load, fun u hu hle => ?_⟩,
        ?_, ?_⟩
      · rcases Nat.le_succ_iff.mp hle with hle | rfl
        · exact hserving.active u hu hle
        · exact active
      · rw [hledger, (Ledger.next_of_not_load hload).1, hcommand]
      · rw [hledger, (Ledger.next_of_not_load hload).2, written_length_succ, hlength, add_assoc]
    | false =>
      have hload : loadCommand (st n).hw (i n) = true := by
        by_contra hne
        rw [h.step] at active
        have := masterActive_of_step (by simpa using hne) active
        simp [hprev] at this
      have htc : transferComplete (st n).hw (i n) = false :=
        transferComplete_of_write ((counting (h.reachable n).of_restrict).write_eq_false hprev)
      refine ⟨n, ⟨Nat.lt_succ_self n, hload, fun u hu hle => ?_⟩, ?_, ?_⟩
      · obtain rfl : u = n + 1 := by omega
        exact active
      · rw [hledger]
        simp [Ledger.next, hload]
      · rw [hledger, written_length_succ, htc]
        simp [Ledger.next, hload]

/-- Whatever the stream gives and the memory port accepts, the writer moves its words. -/
theorem execution_moves (h : (burstWriter p).Execution st i) : Moves st i where
  kth n k hk := by
    rw [← List.getElem?_map, ← written_append_fifo h, List.getElem?_append_left hk]
  inOrder := written_append_fifo h
  notEmpty t hread := by
    simp only [fifoRead, Bool.and_eq_true] at hread
    exact (supplied (h.reachable t)).2.some hread.1
  notFull t := (supplied (h.reachable t)).2.fifoWrite_lt
  hold t write hwait := by
    rw [h.step]
    exact (supplied (h.reachable t)).2.hold (counting (h.reachable t).of_restrict) write hwait _
  complete t active inactive := by
    obtain ⟨t₀, hserving, hcommand, hlength⟩ := serving h t active
    have hload : loadCommand (st t).hw (i t) = false := loadCommand_of_active active
    have hdone := (counting (h.reachable (t + 1)).of_restrict).accepted_eq inactive
    have hledger : (st (t + 1)).ledger = (st t).ledger.next (st t).hw (i t) := by
      rw [h.step]
      rfl
    obtain ⟨hsame, haccepted⟩ := Ledger.next_of_not_load (l := (st t).ledger) hload
    rw [hledger, hsame, haccepted] at hdone
    refine ⟨t₀, hserving, ?_⟩
    rw [written_length_succ, hlength, add_assoc, hdone, hcommand]

end Execution

/-- Commands of two words follow one another, the stream gives a word in every cycle, and the memory
port waits in every other one. -/
def waiting (t : ℕ) : Inputs 2 :=
  ⟨t % 2 == 0, BitVec.ofNat _ (0x01000000 * t), true, ⟨0#64, 8#32⟩, true, 0#_⟩

theorem moves_waiting :
    Moves (trajectory (burstWriter .shipped).step .reset waiting) waiting ∧
      written (trajectory (burstWriter .shipped).step .reset waiting) waiting 8 = [0#_, 1#_] := by
  refine ⟨execution_moves (Circuit.execution_trajectory rfl fun c n => ?_), by decide +kernel⟩
  exact ⟨fun _ => (by decide : Fits .shipped ⟨0#64, 8#32⟩),
    fun _ => (by decide : Short .shipped ⟨0#64, 8#32⟩)⟩

end AvalonCores.MemoryTester.PatternWriter
