import Mathlib.Tactic
import AvalonCores.JtagUart.Invariant

/-! The steps of the interrupt routine and of the alarm keep the invariant of the driver. -/

namespace AvalonCores.JtagUart

open Sync Sync.RingBuffer

theorem bufLen_pos : 0 < bufLen := by decide

/-- Clearing a bit of `irq_enable`. -/
theorem clear_re (x : BitVec 32) :
    (x &&& ~~~controlReMsk).getLsbD 0 = false ∧
      (x &&& ~~~controlReMsk).getLsbD 1 = x.getLsbD 1 := by
  simp [controlReMsk]

theorem clear_we (x : BitVec 32) :
    (x &&& ~~~controlWeMsk).getLsbD 1 = false ∧
      (x &&& ~~~controlWeMsk).getLsbD 0 = x.getLsbD 0 := by
  simp [controlWeMsk]

theorem signExtend_setWidth (y : BitVec 8) : (y.signExtend 32).setWidth 8 = y := by
  refine BitVec.eq_of_getLsbD_eq fun k hk => ?_
  rw [BitVec.getLsbD_setWidth, BitVec.getLsbD_signExtend]
  simp [hk, show k < 32 by omega]

namespace Inv

variable {s : State} {rx tx : List (BitVec 8)} {x x' : Core.Host}

theorem isr_poll (h : Inv s rx tx) (hp : s.isr = some .poll) :
    Inv (s.step (.isr x x')) rx tx := by
  simp only [State.step, hp, Isr.step]
  refine (h.readControl x x').withIsr fun q hq => ?_
  split_ifs at hq with hnone hri
  · cases hq
  · obtain rfl := Option.some.inj hq
    exact ⟨.inr (Link.rfifo_ne_of_ri h.ready h.sound hri), Link.space_le h.ready h.sound⟩
  · obtain rfl := Option.some.inj hq
    exact .afterRx (Link.space_le h.ready h.sound)

theorem isr_rx (h : Inv s rx tx) {control data : BitVec 32} (hp : s.isr = some (.rx control data)) :
    ∃ rx', Inv (s.step (.isr x x')) rx' tx := by
  obtain ⟨hbyte, hroom⟩ := h.isr _ hp
  simp only [State.step, hp, Isr.step]
  split_ifs with hfull hvalid
  · -- the buffer is full
    refine ⟨rx, h.withIsr fun q hq => ?_⟩
    obtain rfl := Option.some.inj hq
    refine ⟨?_, hroom⟩
    rintro rfl
    have hlen := h.rxQueue.full_iff.mp hfull
    simp [bufLen] at hlen
  all_goals
    have hr := Link.ready_access (a := .iordData) (x := x) (z := x') h.ready
    have hs : (s.machine.link.access .iordData x x').2.Sound := h.sound.access
    have hien := Link.ien_access (a := .iordData) (x := x) (z := x') h.ready fun _ => by simp
    obtain ⟨hempty, hwritten, hwfifo, hfrom⟩ := Link.iordData (x := x) (z := x') h.ready
    have hfrom := hfrom _ h.fromHost
  · -- the core has no byte
    have hnil := hempty.mp hvalid
    rw [if_pos hnil, List.append_nil] at hfrom
    refine ⟨rx, { h with
      ready := hr
      sound := hs
      fromHost := hfrom
      toHost := by
        change Link.written _ ++ tx = s.written
        rw [hwritten, h.toHost]
      isr := fun q hq => ?_
      ienAF := hien.2.trans h.ienAF
      ienAE := hien.1.trans h.ienAE }⟩
    obtain rfl := Option.some.inj hq
    exact ⟨hbyte.resolve_right fun hne => hne hnil, hroom.of_le hwfifo⟩
  · -- the byte enters the buffer
    have hne : s.machine.link.hw.rfifo ≠ [] := fun hnil => hvalid (hempty.mpr hnil)
    rw [if_neg hne] at hfrom
    refine ⟨rx ++ [dataByte (s.machine.link.access .iordData x x').1], { h with
      ready := hr
      sound := hs
      fromHost := by simpa [State.read] using hfrom
      rxQueue := h.rxQueue.push hfull _
      reader := fun c hc => ?_
      toHost := by
        change Link.written _ ++ tx = s.written
        rw [hwritten, h.toHost]
      isr := fun q hq => ?_
      ienAF := hien.2.trans h.ienAF
      ienAE := hien.1.trans h.ienAE
      readEnabled := fun _ => .inl (by simp) }⟩
    · exact (h.reader c hc).append _
    · obtain rfl := Option.some.inj hq
      exact ⟨.inl (by simp), hroom.of_le hwfifo⟩

theorem isr_rxDone (h : Inv s rx tx) {control data : BitVec 32}
    (hp : s.isr = some (.rxDone control data)) : Inv (s.step (.isr x x')) rx tx := by
  obtain ⟨hne, hroom⟩ := h.isr _ hp
  simp only [State.step, hp, Isr.step]
  split_ifs with hmore
  · have hclear := clear_re s.machine.sp.irqEnable
    have hp' : Link.Passes s.machine.link _ :=
      Link.passes_iowrControl (x := x) (z := x')
        (d := s.machine.sp.irqEnable &&& ~~~controlReMsk) h.ready
    refine (h.writeControl _ _ x x' rfl rfl (fun _ => .inl hne) fun hwe =>
      h.writeEnabled (hclear.2 ▸ hwe)).withIsr fun q hq => ?_
    obtain rfl := Option.some.inj hq
    exact hroom.of_le hp'.wfifo_le
  · refine h.withIsr fun q hq => ?_
    obtain rfl := Option.some.inj hq
    exact .afterRx hroom

theorem isr_rxDummy (h : Inv s rx tx) {control : BitVec 32}
    (hp : s.isr = some (.rxDummy control)) : Inv (s.step (.isr x x')) rx tx := by
  have hroom : s.machine.link.Room control := h.isr _ hp
  have hp' : Link.Passes s.machine.link _ :=
    Link.passes_iordControl (x := x) (z := x') h.ready
  simp only [State.step, hp, Isr.step]
  refine (h.readControl x x').withIsr fun q hq => ?_
  obtain rfl := Option.some.inj hq
  exact .afterRx (hroom.of_le hp'.wfifo_le)

theorem isr_tx (h : Inv s rx tx) {space : ℕ} (hp : s.isr = some (.tx space)) :
    ∃ tx', Inv (s.step (.isr x x')) rx tx' := by
  have hspace : space + s.machine.link.hw.wfifo.length ≤ Core.depth := h.isr _ hp
  simp only [State.step, hp, Isr.step]
  split_ifs with hmore
  · -- the oldest byte goes to the core
    have hne : tx ≠ [] := fun hnil => hmore.2 (h.txQueue.empty_iff.mpr hnil)
    obtain ⟨y, tx, rfl⟩ := List.exists_cons_of_ne_nil hne
    have hy : s.machine.sp.txBuf s.machine.sp.txOut = y := by
      have hcell := h.txQueue.cell (i := 0) (by simp)
      simpa [slot_zero h.txQueue.head_lt] using hcell
    have hroom : s.machine.link.hw.wfifo.length < Core.depth := by omega
    obtain ⟨hwritten, hlen⟩ := Link.iowrData (x := x) (z := x')
      (d := (s.machine.sp.txBuf s.machine.sp.txOut).signExtend 32) h.ready hroom
    obtain ⟨hfrom, -⟩ := Link.iowrData_rfifo (x := x) (z := x')
      (d := (s.machine.sp.txBuf s.machine.sp.txOut).signExtend 32) h.ready
    have hien := Link.ien_access (x := x) (z := x')
      (a := .iowrData ((s.machine.sp.txBuf s.machine.sp.txOut).signExtend 32)) h.ready
      fun _ => by simp
    refine ⟨tx, { h with
      ready := Link.ready_access h.ready
      sound := h.sound.access
      fromHost := hfrom _ h.fromHost
      toHost := ?_
      txQueue := h.txQueue.pop
      writer := fun c hc => (h.writer c hc).pop
      isr := fun q hq => ?_
      ienAF := hien.2.trans h.ienAF
      ienAE := hien.1.trans h.ienAE
      writeEnabled := fun hwe => .inr ((h.writeEnabled hwe).resolve_left hne) }⟩
    · change Link.written _ ++ tx = s.written
      rw [hwritten, hy, signExtend_setWidth, List.append_assoc]
      exact h.toHost
    · obtain rfl := Option.some.inj hq
      change space - 1 + (s.machine.link.access _ x x').2.hw.wfifo.length ≤ Core.depth
      have hpos := hmore.1
      omega
  · refine ⟨tx, h.withIsr fun q hq => ?_⟩
    obtain rfl := Option.some.inj hq
    intro hpos
    exact h.txQueue.empty_iff.mp (by_contra fun hne => hmore ⟨hpos, hne⟩)

theorem isr_txDone (h : Inv s rx tx) {space : ℕ} (hp : s.isr = some (.txDone space)) :
    Inv (s.step (.isr x x')) rx tx := by
  have hempty : 0 < space → tx = [] := h.isr _ hp
  simp only [State.step, hp, Isr.step]
  split_ifs with hpos
  · have hclear := clear_we s.machine.sp.irqEnable
    refine (h.writeControl _ _ x x' rfl rfl (fun hre => h.readEnabled (hclear.2 ▸ hre)) fun _ =>
      .inl (hempty hpos)).withIsr fun q hq => ?_
    obtain rfl := Option.some.inj hq
    trivial
  · refine h.withIsr fun q hq => ?_
    obtain rfl := Option.some.inj hq
    trivial

theorem isr_txDummy (h : Inv s rx tx) (hp : s.isr = some .txDummy) :
    Inv (s.step (.isr x x')) rx tx := by
  simp only [State.step, hp, Isr.step]
  refine (h.readControl x x').withIsr fun q hq => ?_
  obtain rfl := Option.some.inj hq
  trivial

/-- A step of the interrupt routine. -/
theorem isr_step (h : Inv s rx tx) (hp : s.isr ≠ none) :
    ∃ rx' tx', Inv (s.step (.isr x x')) rx' tx' := by
  obtain ⟨p, hp⟩ := Option.ne_none_iff_exists'.mp hp
  cases p with
  | poll => exact ⟨rx, tx, h.isr_poll hp⟩
  | rx control data =>
    obtain ⟨rx', h'⟩ := h.isr_rx hp
    exact ⟨rx', tx, h'⟩
  | rxDone control data => exact ⟨rx, tx, h.isr_rxDone hp⟩
  | rxDummy control => exact ⟨rx, tx, h.isr_rxDummy hp⟩
  | tx space => exact ⟨rx, h.isr_tx hp⟩
  | txDone space => exact ⟨rx, tx, h.isr_txDone hp⟩
  | txDummy => exact ⟨rx, tx, h.isr_txDummy hp⟩

/-- The time since the host was last there does not matter. -/
theorem setTime (h : Inv s rx tx) (timeout hostInactive : BitVec 32) :
    Inv { s with machine := { s.machine with sp := { s.machine.sp with
      timeout := timeout
      hostInactive := hostInactive } } } rx tx :=
  { h with ready := h.ready }

/-- A call of the alarm. -/
theorem timeout (h : Inv s rx tx) (y : Fin 4 → Core.Host) : Inv (s.step (.timeout y)) rx tx := by
  have hread := h.readControl (y 0) (y 1)
  simp only [State.step, Machine.timeoutRoutine]
  split_ifs
  · have hdata : ∀ k < 2, (s.machine.sp.irqEnable ||| controlAcMsk).getLsbD k =
        s.machine.sp.irqEnable.getLsbD k := by
      intro k hk
      interval_cases k <;> simp [controlAcMsk]
    exact (hread.writeControl _ _ (y 2) (y 3) (hdata 0 (by decide)) (hdata 1 (by decide))
      h.readEnabled h.writeEnabled).setTime _ _
  · exact hread.setTime _ _
  · exact hread

theorem setTimeout (h : Inv s rx tx) (timeout : BitVec 32) :
    Inv (s.step (.setTimeout timeout)) rx tx := by
  simp only [State.step, Machine.setTimeout]
  split_ifs
  · exact h.setTime _ _
  · exact h.setTime _ _
  · exact h

end Inv

end AvalonCores.JtagUart
