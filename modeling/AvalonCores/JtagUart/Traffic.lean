import Mathlib.Tactic
import AvalonCores.JtagUart.Delivery

/-! What a step of the system does to the core: an access to the control register, cycles without an
access, or one byte moved by the interrupt routine.  All but the last leave pending interrupts
pending, and let the bytes go on to the host. -/

namespace AvalonCores.JtagUart

open AvalonCores.Sync AvalonCores.Sync.RingBuffer AvalonCores.JtagUart.Core

namespace Link

/-- A cycle without an access, or an access to the control register. -/
inductive Move (l : Link) : Link → Prop
  | idle (x : Host) : Move l (l.idle x)
  | readControl (x z : Host) : Move l (l.access .iordControl x z).2
  | writeControl (d : BitVec 32) (x z : Host) : Move l (l.access (.iowrControl d) x z).2

abbrev Moves : Link → Link → Prop := Relation.ReflTransGen Move

/-- The bytes that have left the FIFO to the host. -/
def sent (l : Link) : List (BitVec 8) := l.toHost ++ if l.hw.rVal then [l.hw.rDat] else []

variable {l l' : Link} {i : Core.Inputs}

theorem written_eq : l.written = l.sent ++ l.hw.wfifo := rfl

theorem toHost_next : (l.next i).toHost = l.sent := rfl

theorem sent_next :
    (l.next i).sent = l.sent ++ if rdWfifo l.hw i then [l.hw.wfifo.headD l.hw.rDat] else [] := by
  cases hr : rdWfifo l.hw i <;> simp [sent, next, step, hr]

/-- Nothing that has come in or gone out comes back. -/
structure Grows (l l' : Link) : Prop where
  fromHost : l.fromHost <+: l'.fromHost
  toHost : l.toHost <+: l'.toHost
  sent : l.sent <+: l'.sent
  written : l.written <+: l'.written

theorem Grows.rfl : Grows l l :=
  ⟨List.prefix_rfl, List.prefix_rfl, List.prefix_rfl, List.prefix_rfl⟩

theorem Grows.trans {l'' : Link} (h : Grows l l') (h' : Grows l' l'') : Grows l l'' :=
  ⟨h.fromHost.trans h'.fromHost, h.toHost.trans h'.toHost, h.sent.trans h'.sent,
    h.written.trans h'.written⟩

theorem grows_next (l : Link) (i : Core.Inputs) : Grows l (l.next i) where
  fromHost := List.prefix_append _ _
  toHost := List.prefix_append _ _
  sent := by
    rw [sent_next]
    exact List.prefix_append _ _
  written := by
    rw [written_next]
    exact List.prefix_append _ _

theorem grows_access (l : Link) (a : Access) (x z : Host) : Grows l (l.access a x z).2 :=
  (grows_next l _).trans (grows_next _ _)

theorem Move.grows (h : Move l l') : Grows l l' := by
  cases h with
  | idle x => exact grows_next l _
  | readControl x z => exact grows_access l _ x z
  | writeControl d x z => exact grows_access l _ x z

theorem Move.ready (h : Move l l') (hr : l.Ready) : l'.Ready := by
  cases h with
  | idle x => exact ready_idle x
  | readControl x z => exact ready_access hr
  | writeControl d x z => exact ready_access hr

theorem Move.passes (h : Move l l') (hr : l.Ready) : Passes l l' := by
  cases h with
  | idle x => exact passes_idle hr x
  | readControl x z => exact passes_iordControl hr
  | writeControl d x z => exact passes_iowrControl hr

/-- An access leaves an almost empty FIFO to be seen. -/
theorem fifoAE_access (h : l.Ready) (hw : l.hw.wfifo = []) (a : Access) (x z : Host) :
    (l.access a x z).2.hw.fifoAE = true := by
  have hmid : (l.next ⟨a.bus, x⟩).hw.wfifo = [] := by
    simp [next, step, h.fifoWr, hw]
  simp [access, next, step, fill] at hmid ⊢
  simp [hmid]

theorem Move.fifoAE (h : Move l l') (hr : l.Ready) (hw : l.hw.wfifo = []) :
    l'.hw.fifoAE = true := by
  cases h with
  | idle x => simp [Link.idle, next, step, hw, fill]
  | readControl x z => exact fifoAE_access hr hw _ x z
  | writeControl d x z => exact fifoAE_access hr hw _ x z

theorem pauseIrq_next (h0 : l.hw.read0 = false) (h : l.hw.pauseIrq = true) :
    (l.next i).hw.pauseIrq = true := by
  simp [next, step, h0, h]

theorem Move.pauseIrq (h : Move l l') (hr : l.Ready) (hp : l.hw.pauseIrq = true) :
    l'.hw.pauseIrq = true := by
  cases h with
  | idle x => exact pauseIrq_next hr.read0 hp
  | readControl x z =>
    exact pauseIrq_next (by simp [next, step, Access.bus]) (pauseIrq_next hr.read0 hp)
  | writeControl d x z =>
    exact pauseIrq_next (by simp [next, step, Access.bus, Core.read]) (pauseIrq_next hr.read0 hp)

/-- What moves keep while no byte enters the core. -/
theorem Moves.ready (h : Moves l l') (hr : l.Ready) : l'.Ready := by
  induction h with
  | refl => exact hr
  | tail _ hm ih => exact hm.ready ih

theorem Moves.passes (h : Moves l l') (hr : l.Ready) : Passes l l' := by
  induction h with
  | refl => exact ⟨rfl, fun _ ht => ht, le_rfl, id⟩
  | tail hms hm ih => exact ih.trans (hm.passes (Moves.ready hms hr))

theorem Moves.grows (h : Moves l l') : Grows l l' := by
  induction h with
  | refl => exact .rfl
  | tail _ hm ih => exact ih.trans hm.grows

theorem Moves.fifoAE (h : Moves l l') (hr : l.Ready) (hw : l.hw.wfifo = [])
    (hae : l.hw.fifoAE = true) : l'.hw.fifoAE = true := by
  induction h with
  | refl => exact hae
  | tail hms hm _ =>
    refine hm.fifoAE (Moves.ready hms hr) (List.eq_nil_of_length_eq_zero ?_)
    have hle := (Moves.passes hms hr).wfifo_le
    simpa [hw] using hle

theorem Moves.pauseIrq (h : Moves l l') (hr : l.Ready) (hp : l.hw.pauseIrq = true) :
    l'.hw.pauseIrq = true := by
  induction h with
  | refl => exact hp
  | tail hms hm ih => exact hm.pauseIrq (Moves.ready hms hr) ih

end Link

/-- The places at which the routine turns the interrupt of bit `k` off. -/
def Isr.Clears : Isr → ℕ → Prop
  | .rxDone _ _, 0 => True
  | .txDone space, 1 => 0 < space
  | _, _ => False

namespace State

variable {s : State} {a : Action}

/-- The step reads a byte from the core into the buffer. -/
structure TakesByte (s : State) (a : Action) : Prop where
  isr : ∃ x z, a = .isr x z ∧ (s.step a).link = (s.link.access .iordData x z).2
  place : ∃ control data, s.isr = some (.rx control data)
  room : (s.machine.sp.rxIn + 1) % bufLen ≠ s.machine.sp.rxOut

/-- The step writes the oldest byte of the buffer to the core. -/
structure GivesByte (s : State) (a : Action) : Prop where
  isr : ∃ x z, a = .isr x z ∧ (s.step a).link =
    (s.link.access (.iowrData ((s.machine.sp.txBuf s.machine.sp.txOut).signExtend 32)) x z).2
  place : ∃ space, s.isr = some (.tx space) ∧ 0 < space
  more : s.machine.sp.txOut ≠ s.machine.sp.txIn

theorem moves_reader (c : ReadCall) (m : Machine) (x z : Core.Host) :
    Link.Moves m.link (c.step m x z).1.link := by
  cases hpc : c.pc <;> simp only [ReadCall.step, hpc]
  case copy => split_ifs <;> exact .refl
  case finish =>
    by_cases hbytes : c.bytes ≠ []
    · rw [if_pos hbytes]
      exact .single (.writeControl _ x z)
    · rw [if_neg hbytes]
  all_goals exact .refl

theorem moves_writer (c : WriteCall) (m : Machine) (x z : Core.Host) :
    Link.Moves m.link (c.step m x z).1.link := by
  cases hpc : c.pc <;> simp only [WriteCall.step, hpc]
  case copy => split_ifs <;> exact .refl
  case enable => exact .single (.writeControl _ x z)
  all_goals exact .refl

theorem moves_isr {p : Isr} (hp : s.isr = some p) (x z : Core.Host) :
    Link.Moves s.link (s.step (.isr x z)).link ∨ s.TakesByte (.isr x z) ∨
      s.GivesByte (.isr x z) := by
  cases p with
  | poll =>
    simp only [step, hp, Isr.step]
    exact .inl (.single (.readControl x z))
  | rx control data =>
    by_cases hroom : (s.machine.sp.rxIn + 1) % bufLen = s.machine.sp.rxOut
    · simp only [step, hp, Isr.step]
      rw [if_pos hroom]
      exact .inl .refl
    · refine .inr (.inl ⟨⟨x, z, rfl, ?_⟩, ⟨control, data, hp⟩, hroom⟩)
      simp only [step, hp, Isr.step]
      rw [if_neg hroom]
      split_ifs <;> rfl
  | rxDone control data =>
    simp only [step, hp, Isr.step]
    split_ifs
    · exact .inl (.single (.writeControl _ x z))
    · exact .inl .refl
  | rxDummy control =>
    simp only [step, hp, Isr.step]
    exact .inl (.single (.readControl x z))
  | tx space =>
    by_cases hmore : 0 < space ∧ s.machine.sp.txOut ≠ s.machine.sp.txIn
    · refine .inr (.inr ⟨⟨x, z, rfl, ?_⟩, ⟨space, hp, hmore.1⟩, hmore.2⟩)
      simp only [step, hp, Isr.step]
      rw [if_pos hmore]
      rfl
    · simp only [step, hp, Isr.step]
      rw [if_neg hmore]
      exact .inl .refl
  | txDone space =>
    simp only [step, hp, Isr.step]
    split_ifs
    · exact .inl (.single (.writeControl _ x z))
    · exact .inl .refl
  | txDummy =>
    simp only [step, hp, Isr.step]
    exact .inl (.single (.readControl x z))

theorem moves_timeout (m : Machine) (x : Fin 4 → Core.Host) :
    Link.Moves m.link (m.timeoutRoutine x).link := by
  simp only [Machine.timeoutRoutine]
  split_ifs
  · exact .tail (.single (.readControl (x 0) (x 1))) (.writeControl _ (x 2) (x 3))
  · exact .single (.readControl (x 0) (x 1))
  · exact .single (.readControl (x 0) (x 1))

theorem link_setTimeout (m : Machine) (timeout : BitVec 32) :
    (m.setTimeout timeout).link = m.link := by
  rw [Machine.setTimeout]
  split_ifs <;> rfl

/-- What a step does to the core. -/
theorem step_link (s : State) (a : Action) :
    Link.Moves s.link (s.step a).link ∨ s.TakesByte a ∨ s.GivesByte a := by
  cases a with
  | isr x z =>
    cases hp : s.isr with
    | none =>
      simp only [step, hp]
      exact .inl .refl
    | some p => exact moves_isr hp x z
  | idle x => exact .inl (.single (.idle x))
  | timeout x => exact .inl (moves_timeout s.machine x)
  | setTimeout timeout =>
    refine .inl ?_
    change Link.Moves s.link (s.machine.setTimeout timeout).link
    rw [link_setTimeout]
    exact .refl
  | reader x z =>
    refine .inl ?_
    cases hc : s.reader with
    | none =>
      simp only [step, hc]
      exact .refl
    | some c =>
      have hmoves := moves_reader c s.machine x z
      cases hpc : c.pc <;> simp only [step, hc, hpc]
      case returned => exact .refl
      all_goals exact hmoves
  | writer x z =>
    refine .inl ?_
    cases hc : s.writer with
    | none =>
      simp only [step, hc]
      exact .refl
    | some c =>
      have hmoves := moves_writer c s.machine x z
      cases hpc : c.pc <;> simp only [step, hc, hpc]
      case returned => exact .refl
      all_goals exact hmoves
  | interrupt => exact .inl .refl
  | read space nonblock => exact .inl .refl
  | write data nonblock => exact .inl .refl

theorem step_grows (s : State) (a : Action) : Link.Grows s.link (s.step a).link := by
  rcases step_link s a with hm | ht | hg
  · exact hm.grows
  · obtain ⟨x, z, -, heq⟩ := ht.isr
    rw [heq]
    exact Link.grows_access _ _ x z
  · obtain ⟨x, z, -, heq⟩ := hg.isr
    rw [heq]
    exact Link.grows_access _ _ x z

theorem irqEnable_timeout (m : Machine) (x : Fin 4 → Core.Host) :
    (m.timeoutRoutine x).sp.irqEnable = m.sp.irqEnable := by
  simp only [Machine.timeoutRoutine]
  split_ifs <;> rfl

theorem irqEnable_setTimeout (m : Machine) (timeout : BitVec 32) :
    (m.setTimeout timeout).sp.irqEnable = m.sp.irqEnable := by
  by_cases h : m.sp.timeout ≠ intMax
  · rw [Machine.setTimeout, if_pos h]
  · rw [Machine.setTimeout, if_neg h]

theorem irqEnable_reader (c : ReadCall) (m : Machine) (x z : Core.Host) {k : ℕ}
    (h : m.sp.irqEnable.getLsbD k = true) :
    (c.step m x z).1.sp.irqEnable.getLsbD k = true := by
  cases hpc : c.pc <;> simp only [ReadCall.step, hpc]
  case copy => split_ifs <;> exact h
  case finish =>
    by_cases hbytes : c.bytes ≠ []
    · simp [if_pos hbytes, Machine.writeControl, h]
    · simpa only [if_neg hbytes] using h
  all_goals exact h

theorem irqEnable_writer (c : WriteCall) (m : Machine) (x z : Core.Host) {k : ℕ}
    (h : m.sp.irqEnable.getLsbD k = true) :
    (c.step m x z).1.sp.irqEnable.getLsbD k = true := by
  cases hpc : c.pc <;> simp only [WriteCall.step, hpc]
  case copy => split_ifs <;> exact h
  case enable => simp [Machine.writeControl, h]
  all_goals exact h

theorem irqEnable_isr (p : Isr) (m : Machine) (x z : Core.Host) {k : ℕ} (hk : k < 2)
    (h : m.sp.irqEnable.getLsbD k = true) (hkeeps : ¬p.Clears k) :
    (p.step m x z).1.sp.irqEnable.getLsbD k = true := by
  cases p with
  | rxDone control data =>
    obtain rfl : k = 1 := by
      by_contra hne
      obtain rfl : k = 0 := by omega
      exact hkeeps trivial
    simp only [Isr.step]
    split_ifs
    · exact (clear_re _).2.trans h
    · exact h
  | txDone space =>
    simp only [Isr.step]
    split_ifs with hpos
    · obtain rfl : k = 0 := by
        by_contra hne
        obtain rfl : k = 1 := by omega
        exact hkeeps hpos
      exact (clear_we _).2.trans h
    · exact h
  | rx | tx =>
    simp only [Isr.step]
    split_ifs <;> exact h
  | poll | rxDummy | txDummy => exact h

/-- Only the routine turns an interrupt off. -/
theorem irqEnable_step {k : ℕ} (hk : k < 2) (hon : s.machine.sp.irqEnable.getLsbD k = true)
    (hkeeps : ∀ p ∈ s.isr, ¬p.Clears k) :
    (s.step a).machine.sp.irqEnable.getLsbD k = true := by
  cases a with
  | isr x z =>
    cases hp : s.isr with
    | none =>
      simp only [step, hp]
      exact hon
    | some p =>
      simp only [step, hp]
      exact irqEnable_isr p s.machine x z hk hon (hkeeps p hp)
  | timeout x =>
    change (s.machine.timeoutRoutine x).sp.irqEnable.getLsbD k = true
    rw [irqEnable_timeout, hon]
  | setTimeout timeout =>
    change (s.machine.setTimeout timeout).sp.irqEnable.getLsbD k = true
    rw [irqEnable_setTimeout, hon]
  | reader x z =>
    cases hc : s.reader with
    | none =>
      simp only [step, hc]
      exact hon
    | some c =>
      have hstep := irqEnable_reader c s.machine x z hon
      cases hpc : c.pc <;> simp only [step, hc, hpc]
      case returned => exact hon
      all_goals exact hstep
  | writer x z =>
    cases hc : s.writer with
    | none =>
      simp only [step, hc]
      exact hon
    | some c =>
      have hstep := irqEnable_writer c s.machine x z hon
      cases hpc : c.pc <;> simp only [step, hc, hpc]
      case returned => exact hon
      all_goals exact hstep
  | _ => exact hon

end State

end AvalonCores.JtagUart
