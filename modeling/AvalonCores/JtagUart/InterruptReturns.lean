import Mathlib.Tactic
import AvalonCores.JtagUart.Traffic

/-! The interrupt routine returns, whatever the host does meanwhile.  Each time that it polls the
core and goes on, it moves a byte or turns an interrupt off, and of either there is a bounded number
to do before a call of read or write comes in between. -/

namespace AvalonCores.JtagUart

open Sync Sync.RingBuffer

namespace Isr

/-- What the routine knows of the interrupts that it serves: they are on, and there is a byte behind
the first read of the data register. -/
def Serves (link : Link) (irqEnable : BitVec 32) : Isr → Prop
  | .poll | .txDummy => True
  | .rx control data => (irqEnable.getLsbD 0 = true ∧
      (control &&& controlWiMsk ≠ 0#32 → irqEnable.getLsbD 1 = true)) ∧
    (data &&& dataRvalidMsk = 0#32 → link.hw.rfifo ≠ [] ∧ data &&& dataRavailMsk ≠ 0#32)
  | .rxDone control _ => irqEnable.getLsbD 0 = true ∧
    (control &&& controlWiMsk ≠ 0#32 → irqEnable.getLsbD 1 = true)
  | .rxDummy control => control &&& controlWiMsk ≠ 0#32 → irqEnable.getLsbD 1 = true
  | .tx _ | .txDone _ => irqEnable.getLsbD 1 = true

/-- The work that is left before the next poll, or, below the rank of `poll`, before the next byte
or write of the control register. -/
def rank : Isr → ℕ
  | .txDone space => if 0 < space then 1 else 6
  | .tx space => if 0 < space then 2 else 7
  | .rxDone _ data => if data &&& dataRavailMsk ≠ 0#32 then 3 else 8
  | .rx _ data => if data &&& dataRvalidMsk = 0#32 then 4 else 9
  | .poll => 5
  | .txDummy => 6
  | .rxDummy _ => 8

theorem rank_le (p : Isr) : p.rank ≤ 9 := by
  cases p <;> simp only [rank] <;> (try split_ifs) <;> omega

theorem rank_afterRx (control : BitVec 32) : (afterRx control).rank < 8 := by
  rw [afterRx]
  split_ifs
  · simp only [rank]
    split_ifs <;> omega
  · decide

theorem serves_afterRx {control irqEnable : BitVec 32} {link : Link}
    (h : control &&& controlWiMsk ≠ 0#32 → irqEnable.getLsbD 1 = true) :
    (afterRx control).Serves link irqEnable := by
  rw [afterRx]
  split_ifs with hwi
  · exact h hwi
  · trivial

end Isr

namespace State

/-- The bytes that the routine may move, and the interrupts that it may turn off. -/
def budget (s : State) : ℕ :=
  (bufLen - 1 - s.rxRing.length) + s.txRing.length + (s.machine.sp.irqEnable.getLsbD 0).toNat +
    (s.machine.sp.irqEnable.getLsbD 1).toNat

/-- Each step of the routine lowers this. -/
def work (s : State) : ℕ := 6 * s.budget + (s.isr.map Isr.rank).getD 0

def Serves (s : State) : Prop := ∀ p ∈ s.isr, p.Serves s.machine.link s.machine.sp.irqEnable

/-- What a step of the routine does when it does not return. -/
def Proceeds (s : State) (x z : Core.Host) : Prop :=
  (s.step (.isr x z)).Serves ∧
    ((s.step (.isr x z)).isr ≠ none → (s.step (.isr x z)).work < s.work)

theorem proceeds_of {s : State} {x z : Core.Host} {p : Isr} (hp : s.isr = some p)
    (hq : ∀ q ∈ (s.step (.isr x z)).isr,
      q.Serves (s.step (.isr x z)).machine.link (s.step (.isr x z)).machine.sp.irqEnable ∧
        6 * (s.step (.isr x z)).budget + q.rank < 6 * s.budget + p.rank) : s.Proceeds x z := by
  refine ⟨fun q hmem => (hq q hmem).1, fun hne => ?_⟩
  obtain ⟨q, hmem⟩ := Option.ne_none_iff_exists'.mp hne
  simpa [work, hp, hmem] using (hq q hmem).2

end State

namespace Inv

variable {s : State} {rx tx : List (BitVec 8)} {x z : Core.Host}

theorem proceeds_poll (h : Inv s rx tx) (hp : s.isr = some .poll) : s.Proceeds x z := by
  have hien := Link.ien_access (a := .iordControl) (x := x) (z := z) h.ready fun _ => by simp
  refine State.proceeds_of hp ?_
  simp only [State.step, hp, Isr.step]
  intro q hq
  have hwe : (s.machine.link.access .iordControl x z).1 &&& controlWiMsk ≠ 0#32 →
      s.machine.sp.irqEnable.getLsbD 1 = true := by
    intro hwi
    have hpen := Link.wi_iff.mp hwi
    simp only [Core.ipenAE, Bool.and_eq_true] at hpen
    rw [← h.ienAE]
    simpa [Link.next, Core.step, Access.bus, Core.write] using hpen.1
  split_ifs at hq with hnone hri
  · cases hq
  · obtain rfl := Option.some.inj hq
    have hre : s.machine.sp.irqEnable.getLsbD 0 = true := by
      have hpen := Link.ri_iff.mp hri
      simp only [Core.ipenAF, Bool.and_eq_true] at hpen
      rw [← h.ienAF]
      simpa [Link.next, Core.step, Access.bus, Core.write] using hpen.1
    refine ⟨⟨⟨hre, hwe⟩, fun _ => ⟨Link.rfifo_ne_of_ri h.ready h.sound hri, by decide⟩⟩, ?_⟩
    refine Nat.add_lt_add_left ?_ _
    simp only [Isr.rank]
    decide
  · obtain rfl := Option.some.inj hq
    have hwi : (s.machine.link.access .iordControl x z).1 &&& controlWiMsk ≠ 0#32 := by
      intro hwi
      refine hnone ?_
      rw [BitVec.and_or_distrib_left, not_not.mp hri, hwi, BitVec.or_zero]
    refine ⟨Isr.serves_afterRx hwe, Nat.add_lt_add_left ?_ _⟩
    have hspace := Link.space_pos_of_wi h.ready h.sound hwi
    rw [Isr.afterRx, if_pos hwi, Isr.rank, if_pos hspace]
    decide

theorem proceeds_rx (h : Inv s rx tx) (hs : s.Serves) {control data : BitVec 32}
    (hp : s.isr = some (.rx control data)) : s.Proceeds x z := by
  obtain ⟨hen, hbyte⟩ := hs _ hp
  refine State.proceeds_of hp ?_
  have hlow : Isr.rank (.rxDone control data) < Isr.rank (.rx control data) := by
    simp only [Isr.rank]
    split_ifs with hmore hvalid hvalid
    · decide
    · decide
    · exact absurd (hbyte hvalid).2 hmore
    · decide
  by_cases hfull : (s.machine.sp.rxIn + 1) % bufLen = s.machine.sp.rxOut
  · simp only [State.step, hp, Isr.step, if_pos hfull]
    intro q hq
    obtain rfl := Option.some.inj hq
    exact ⟨hen, Nat.add_lt_add_left hlow _⟩
  simp only [State.step, hp, Isr.step, if_neg hfull]
  obtain ⟨hempty, -⟩ := Link.iordData (x := x) (z := z) h.ready
  by_cases hvalid : (s.machine.link.access .iordData x z).1 &&& dataRvalidMsk = 0#32
  · simp only [if_pos hvalid]
    intro q hq
    obtain rfl := Option.some.inj hq
    refine ⟨hen, Nat.add_lt_add_left ?_ _⟩
    have hold : data &&& dataRvalidMsk ≠ 0#32 := fun hold => (hbyte hold).1 (hempty.mp hvalid)
    simp only [Isr.rank, if_neg hold]
    split_ifs <;> decide
  · simp only [if_neg hvalid]
    intro q hq
    obtain rfl := Option.some.inj hq
    refine ⟨⟨hen, fun hvalid' => absurd hvalid' hvalid⟩, ?_⟩
    have hpush := h.rxQueue.push hfull (dataByte (s.machine.link.access .iordData x z).1)
    have hroom := hpush.room
    have hrx : s.rxRing = rx := h.rxQueue.words_eq
    have hrx' := hpush.words_eq
    simp only [slot] at hrx'
    simp only [State.budget, State.rxRing, State.txRing, State.sp, hrx'] at hrx ⊢
    simp only [List.length_append, List.length_cons, List.length_nil] at hroom ⊢
    simp only [Isr.rank, if_neg hvalid, hrx]
    split_ifs <;> omega

theorem proceeds_rxDone (hs : s.Serves) {control data : BitVec 32}
    (hp : s.isr = some (.rxDone control data)) : s.Proceeds x z := by
  obtain ⟨hre, hwe⟩ := hs _ hp
  refine State.proceeds_of hp ?_
  by_cases hmore : data &&& dataRavailMsk ≠ 0#32
  · have hclear := clear_re s.machine.sp.irqEnable
    simp only [State.step, hp, Isr.step, if_pos hmore]
    intro q hq
    obtain rfl := Option.some.inj hq
    refine ⟨fun hwi => hclear.2.trans (hwe hwi), ?_⟩
    simp only [State.budget, State.rxRing, State.txRing, State.sp, Machine.writeControl, hclear.1,
      hclear.2, hre, Isr.rank, if_pos hmore, Bool.toNat_false, Bool.toNat_true]
    omega
  · simp only [State.step, hp, Isr.step, if_neg hmore]
    intro q hq
    obtain rfl := Option.some.inj hq
    refine ⟨Isr.serves_afterRx hwe, Nat.add_lt_add_left ?_ _⟩
    simpa only [Isr.rank, if_neg hmore] using Isr.rank_afterRx control

theorem proceeds_rxDummy (hs : s.Serves) {control : BitVec 32}
    (hp : s.isr = some (.rxDummy control)) : s.Proceeds x z := by
  refine State.proceeds_of hp ?_
  simp only [State.step, hp, Isr.step]
  intro q hq
  obtain rfl := Option.some.inj hq
  exact ⟨Isr.serves_afterRx (hs _ hp), Nat.add_lt_add_left (Isr.rank_afterRx control) _⟩

theorem proceeds_tx (h : Inv s rx tx) (hs : s.Serves) {space : ℕ}
    (hp : s.isr = some (.tx space)) : s.Proceeds x z := by
  have hwe : s.machine.sp.irqEnable.getLsbD 1 = true := hs _ hp
  refine State.proceeds_of hp ?_
  by_cases hmore : 0 < space ∧ s.machine.sp.txOut ≠ s.machine.sp.txIn
  · simp only [State.step, hp, Isr.step, if_pos hmore]
    intro q hq
    obtain rfl := Option.some.inj hq
    refine ⟨hwe, ?_⟩
    have hne : tx ≠ [] := fun hnil => hmore.2 (h.txQueue.empty_iff.mpr hnil)
    obtain ⟨y, tx, rfl⟩ := List.exists_cons_of_ne_nil hne
    have htx : s.txRing = y :: tx := h.txQueue.words_eq
    have htx' := h.txQueue.pop.words_eq
    simp only [slot] at htx'
    simp only [State.budget, State.rxRing, State.txRing, State.sp, htx'] at htx ⊢
    simp only [Isr.rank, if_pos hmore.1, htx, List.length_cons]
    split_ifs <;> omega
  · simp only [State.step, hp, Isr.step, if_neg hmore]
    intro q hq
    obtain rfl := Option.some.inj hq
    refine ⟨hwe, Nat.add_lt_add_left ?_ _⟩
    simp only [Isr.rank]
    split_ifs <;> decide

theorem proceeds_txDone (hs : s.Serves) {space : ℕ}
    (hp : s.isr = some (.txDone space)) : s.Proceeds x z := by
  have hwe : s.machine.sp.irqEnable.getLsbD 1 = true := hs _ hp
  refine State.proceeds_of hp ?_
  by_cases hpos : 0 < space
  · have hclear := clear_we s.machine.sp.irqEnable
    simp only [State.step, hp, Isr.step, if_pos hpos]
    intro q hq
    obtain rfl := Option.some.inj hq
    refine ⟨trivial, ?_⟩
    simp only [State.budget, State.rxRing, State.txRing, State.sp, Machine.writeControl, hclear.1,
      hclear.2, hwe, Isr.rank, if_pos hpos, Bool.toNat_false, Bool.toNat_true]
    omega
  · simp only [State.step, hp, Isr.step, if_neg hpos]
    intro q hq
    obtain rfl := Option.some.inj hq
    refine ⟨trivial, Nat.add_lt_add_left ?_ _⟩
    simp only [Isr.rank, if_neg hpos]
    decide

theorem proceeds_txDummy (hp : s.isr = some .txDummy) : s.Proceeds x z := by
  refine State.proceeds_of hp ?_
  simp only [State.step, hp, Isr.step]
  intro q hq
  obtain rfl := Option.some.inj hq
  exact ⟨trivial, Nat.add_lt_add_left (by decide) _⟩

/-- A step of the routine. -/
theorem proceeds (h : Inv s rx tx) (hs : s.Serves) (hne : s.isr ≠ none) : s.Proceeds x z := by
  obtain ⟨p, hp⟩ := Option.ne_none_iff_exists'.mp hne
  cases p with
  | poll => exact h.proceeds_poll hp
  | rx control data => exact h.proceeds_rx hs hp
  | rxDone control data => exact proceeds_rxDone hs hp
  | rxDummy control => exact proceeds_rxDummy hs hp
  | tx space => exact h.proceeds_tx hs hp
  | txDone space => exact proceeds_txDone hs hp
  | txDummy => exact proceeds_txDummy hp

/-- Nothing but a step of the routine changes what it knows and the work that is left. -/
theorem proceeds_idle (h : Inv s rx tx) (hs : s.Serves) :
    (s.step (.idle x)).Serves ∧ (s.step (.idle x)).work = s.work := by
  refine ⟨fun p hp => ?_, rfl⟩
  have hserves := hs p hp
  have hpasses := Link.passes_idle h.ready x
  cases p with
  | rx control data =>
    exact ⟨hserves.1, fun hvalid => ⟨hpasses.rfifo_ne (hserves.2 hvalid).1, (hserves.2 hvalid).2⟩⟩
  | _ => exact hserves

end Inv

/-- Only the routine itself and cycles without an access come while it runs. -/
theorem State.Enabled.of_isr {s : State} {a : Action} (h : s.Enabled a) (hne : s.isr ≠ none) :
    (∃ x, a = .idle x) ∨ ∃ x z, a = .isr x z := by
  cases a with
  | idle x => exact .inl ⟨x, rfl⟩
  | isr x z => exact .inr ⟨x, z, rfl⟩
  | interrupt | timeout x | setTimeout timeout => exact absurd h hne
  | read space nonblock | reader x z | write data nonblock | writer x z => exact absurd h.1 hne

/-- The routine begins with a poll. -/
theorem State.isr_of_none {s : State} {a : Action} (ha : s.Enabled a) (hne : s.isr = none) :
    (s.step a).isr = none ∨ a = .interrupt ∧ (s.step a).isr = some .poll := by
  cases a with
  | interrupt => exact .inr ⟨rfl, rfl⟩
  | isr x z => exact absurd hne ha
  | reader x z =>
    simp only [State.step]
    split
    · exact .inl hne
    · split <;> exact .inl hne
  | writer x z =>
    simp only [State.step]
    split
    · exact .inl hne
    · split <;> exact .inl hne
  | _ => exact .inl hne

theorem serves_reachable {s : State} (h : circuit.Reachable s) : s.Serves := by
  refine Circuit.Reachable.invariant ?_ ?_ h
  · rintro s ⟨sp, before, alarmStarted, x, x', -, rfl⟩ p hp
    cases hp
  · intro s a hr hs ha
    by_cases hne : s.isr = none
    · intro p hp
      change (s.step a).isr = some p at hp
      rcases State.isr_of_none ha hne with hnone | ⟨-, hpoll⟩
      · rw [hnone] at hp
        cases hp
      · obtain rfl := Option.some.inj (hpoll.symm.trans hp)
        trivial
    · rcases State.Enabled.of_isr ha hne with ⟨x, rfl⟩ | ⟨x, z, rfl⟩
      · exact ((inv_reachable hr).proceeds_idle hs).1
      · exact ((inv_reachable hr).proceeds hs hne).1

/-- The steps of the routine in one activation. -/
def isrBound : ℕ := 12 * bufLen + 9

def Action.isIsr : Action → Bool
  | .isr _ _ => true
  | _ => false

theorem work_le {s : State} (h : circuit.Reachable s) : s.work ≤ isrBound := by
  have hroom := (inv_reachable h).txQueue.room
  have hre := Bool.toNat_le (s.machine.sp.irqEnable.getLsbD 0)
  have hwe := Bool.toNat_le (s.machine.sp.irqEnable.getLsbD 1)
  have hrank : (s.isr.map Isr.rank).getD 0 ≤ 9 := by
    cases s.isr with
    | none => exact Nat.zero_le _
    | some p => exact p.rank_le
  simp only [State.work, State.budget, isrBound]
  omega

theorem countP_le_work {s : State} (h : circuit.Reachable s) :
    ∀ {as : List Action}, circuit.Admitted s as →
      circuit.Always (fun s a => s.isr ≠ none ∧ (s.step a).isr ≠ none) s as →
      as.countP Action.isIsr ≤ s.work
  | [], _, _ => Nat.zero_le _
  | a :: as, ha, hrun => by
    have hrest := countP_le_work (h.step ha.1) ha.2 hrun.2
    have hinv := inv_reachable h
    have hs := serves_reachable h
    rcases State.Enabled.of_isr ha.1 hrun.1.1 with ⟨x, rfl⟩ | ⟨x, z, rfl⟩
    · rw [List.countP_cons_of_neg (by simp [Action.isIsr])]
      exact hrest.trans (hinv.proceeds_idle hs).2.le
    · rw [List.countP_cons_of_pos (by simp [Action.isIsr])]
      exact hrest.trans_lt ((hinv.proceeds hs hrun.1.1).2 hrun.1.2)

/-- The routine makes no more than `isrBound` steps before it returns. -/
theorem interrupt_returns {s : State} (h : circuit.Reachable s) (as : List Action)
    (ha : circuit.Admitted s as)
    (hrun : circuit.Always (fun s a => s.isr ≠ none ∧ (s.step a).isr ≠ none) s as) :
    as.countP Action.isIsr ≤ isrBound :=
  (countP_le_work h ha hrun).trans (work_le h)

/-- The routine takes two bytes to the core. -/
theorem interrupt_returns_two_bytes :
    ((transmitting.drop 14).take 6).countP Action.isIsr ≤ isrBound :=
  interrupt_returns (start_reachable.run (transmitting.take 14) (by decide +kernel))
    ((transmitting.drop 14).take 6) (by decide +kernel) (by decide +kernel)

end AvalonCores.JtagUart
