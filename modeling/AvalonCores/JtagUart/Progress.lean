import Mathlib.Tactic
import AvalonCores.Sync.Execution
import AvalonCores.Sync.Fairness
import AvalonCores.JtagUart.InterruptReturns

/-! Runs without an end in which interrupts are served.  No interrupt stays pending there, since the
routine would go on without an end. -/

namespace AvalonCores.JtagUart

open Filter Sync Sync.RingBuffer

/-- An interrupt that stays pending is served, and the routine goes on until it returns. -/
structure Fair (st : ℕ → State) (act : ℕ → Action) : Prop where
  interrupt : ∃ᶠ n in atTop,
    Core.avIrq (st n).link.hw = false ∨ (st n).isr ≠ none ∨ act n = .interrupt
  isr : ∃ᶠ n in atTop, (st n).isr = none ∨ ∃ x z, act n = .isr x z

/-- An interrupt that the routine finds when it polls the core. -/
def State.Pending (s : State) : Prop :=
  (s.link.hw.ienAE = true ∧ s.link.hw.fifoAE = true ∧ s.link.hw.wfifo = []) ∨
    (s.link.hw.ienAF = true ∧ s.link.hw.pauseIrq = true)

theorem State.Pending.avIrq {s : State} (h : s.Pending) : Core.avIrq s.link.hw = true := by
  rcases h with ⟨hien, hae, -⟩ | ⟨hien, hpause⟩
  · simp [Core.avIrq, Core.ipenAE, hien, hae]
  · simp [Core.avIrq, Core.ipenAF, hien, hpause]

namespace Inv

variable {s : State} {rx tx : List (BitVec 8)} {a : Action} {x z : Core.Host}

theorem poll_goes_on (h : Inv s rx tx) (hpending : s.Pending) :
    (s.machine.link.access .iordControl x z).1 &&& (controlRiMsk ||| controlWiMsk) ≠ 0#32 := by
  intro hnone
  rw [BitVec.and_or_distrib_left, BitVec.or_eq_zero_iff] at hnone
  rcases hpending with ⟨hien, -, hempty⟩ | ⟨hien, hpause⟩
  · refine Link.wi_iff.mpr ?_ hnone.2
    simp only [State.link] at hien hempty
    simp [Core.ipenAE, Link.next, Core.step, Access.bus, Core.write, hien, hempty, Core.fill]
  · refine Link.ri_iff.mpr ?_ hnone.1
    have hmid := Link.pauseIrq_next (i := ⟨Access.iordControl.bus, x⟩) h.ready.read0 hpause
    simp only [State.link] at hien
    simp only [Core.ipenAF, hmid, Bool.true_or, Bool.and_true]
    simp [Link.next, Core.step, Access.bus, Core.write, hien]

/-- The routine does not return with an interrupt pending. -/
theorem isr_goes_on (h : Inv s rx tx) (hpending : s.Pending) (hne : s.isr ≠ none) :
    (s.step (.isr x z)).isr ≠ none := by
  obtain ⟨p, hp⟩ := Option.ne_none_iff_exists'.mp hne
  cases p with
  | poll =>
    simp only [State.step, hp, Isr.step, if_neg (h.poll_goes_on hpending)]
    split_ifs <;> simp
  | rx | rxDone | tx | txDone =>
    simp only [State.step, hp, Isr.step]
    split_ifs <;> simp
  | rxDummy | txDummy => simp [State.step, hp, Isr.step]

end Inv

variable {st : ℕ → State} {act : ℕ → Action}

theorem grows (h : circuit.Execution st act) {n m : ℕ} (hnm : n ≤ m) :
    Link.Grows (st n).link (st m).link := by
  induction m, hnm using Nat.le_induction with
  | base => exact .rfl
  | succ m _ ih =>
    rw [h.step]
    exact ih.trans (State.step_grows _ _)

/-- No interrupt stays pending. -/
theorem frequently_not_pending (h : circuit.Execution st act) (hfair : Fair st act) :
    ∃ᶠ n in atTop, ¬(st n).Pending := by
  intro hnot
  have hpending : ∀ᶠ n in atTop, (st n).Pending := by simpa using hnot
  have hstays : ∀ᶠ n in atTop, (st n).isr ≠ none → (st (n + 1)).isr ≠ none := by
    filter_upwards [hpending] with n hn hne
    have hinv := inv_reachable (h.reachable n)
    rw [h.step]
    rcases State.Enabled.of_isr (h.admits n) hne with ⟨x, ha⟩ | ⟨x, z, ha⟩ <;> rw [ha]
    · exact hne
    · exact hinv.isr_goes_on hn hne
  have hbegins : ∃ᶠ n in atTop, (st n).isr ≠ none := by
    intro hnever
    have hnone : ∀ᶠ n in atTop, (st n).isr = none := by simpa using hnever
    obtain ⟨n, hserved, hpend, hnow, hnext⟩ := (hfair.interrupt.and_eventually
      (hpending.and (hnone.and (eventually_succ hnone)))).exists
    rcases hserved with hirq | hne | hact
    · rw [hpend.avIrq] at hirq
      cases hirq
    · exact hne hnow
    · rw [h.step, hact] at hnext
      cases hnext
  have hruns := eventually_of_stable hstays hbegins
  -- the work that is left bounds the steps of the routine
  have hwork : ∀ᶠ n in atTop, (st (n + 1)).work ≤ (st n).work ∧
      ((∃ x z, act n = .isr x z) → (st (n + 1)).work < (st n).work) := by
    filter_upwards [hruns, eventually_succ hruns] with n hne hnext
    have hinv := inv_reachable (h.reachable n)
    have hs := serves_reachable (h.reachable n)
    rw [h.step] at hnext ⊢
    rcases State.Enabled.of_isr (h.admits n) hne with ⟨x, ha⟩ | ⟨x, z, ha⟩
    · rw [ha]
      refine ⟨(hinv.proceeds_idle hs).2.le, ?_⟩
      rintro ⟨y, z, hy⟩
      cases hy
    · rw [ha] at hnext ⊢
      have hlt := (hinv.proceeds hs hne).2 hnext
      exact ⟨hlt.le, fun _ => hlt⟩
  have hends : ∀ᶠ n in atTop, ¬∃ x z, act n = .isr x z :=
    eventually_not_of_variant (f := fun n => (st n).work) (hwork.mono fun n hn => hn.1)
      (hwork.mono fun n hn => hn.2)
  obtain ⟨n, hisr, hne, hend⟩ := (hfair.isr.and_eventually (hruns.and hends)).exists
  exact hisr.elim hne hend

end AvalonCores.JtagUart
