import Mathlib.Tactic
import AvalonCores.JtagUart.Interrupt

/-! The steps of a call of `altera_avalon_jtag_uart_write` keep the invariant of the driver. -/

namespace AvalonCores.JtagUart

open Sync Sync.RingBuffer

theorem set_we (x : BitVec 32) :
    (x ||| controlWeMsk).getLsbD 1 = true ∧ (x ||| controlWeMsk).getLsbD 0 = x.getLsbD 0 := by
  simp [controlWeMsk]

namespace Inv

variable {s : State} {rx tx : List (BitVec 8)} {x x' : Core.Host} {c c' : WriteCall}

/-- A step that takes over no bytes. -/
theorem withWriter (h : Inv s rx tx) (hc : s.writer = some c)
    (hknows : c'.Knows s.machine.sp.txIn s.machine.sp.txOut tx) (hdata : c'.data = c.data)
    (hdone : c'.done = c.done) (hcopied : c'.copied = c.copied) (hen : c.Enables → c'.Enables) :
    Inv { s with writer := some c' } rx tx :=
  { h with
    toHost := by
      rw [h.toHost, State.written, State.written, hc]
      simp [hdata, hdone]
    txQueue := by
      have hq := h.txQueue
      rw [State.staged, hc] at hq
      simpa [State.staged, WriteCall.staged, hdata, hdone, hcopied] using hq
    writer := by
      rintro d hd
      obtain rfl := Option.some.inj hd
      exact hknows
    writeEnabled := fun hwe => by
      refine (h.writeEnabled hwe).imp_right ?_
      rintro ⟨d, hd, hend⟩
      refine ⟨c', rfl, ?_⟩
      obtain rfl : c = d := Option.some.inj (hc.symm.trans hd)
      exact hen hend }

theorem writer_loadOut (h : Inv s rx tx) (hc : s.writer = some c) (hpc : c.pc = .loadOut) :
    Inv (s.step (.writer x x')) rx tx := by
  have hk := h.writer c hc
  have hhere := hk.here
  rw [hpc] at hhere
  obtain ⟨⟨hcopied, hcount⟩, hin⟩ := hhere
  have hlt := h.txQueue.head_lt
  have hroom : tx.length < bufLen := by have := h.txQueue.room; omega
  have htail : c.txIn = slot bufLen s.machine.sp.txOut tx.length := hin.trans h.txQueue.tail_eq
  have hn := run_of_producer (n := tx.length) hlt hroom
  have hlt' : c.txIn < bufLen := hin ▸ h.txQueue.tail_lt
  rw [← htail] at hn
  simp only [State.step, hc, hpc, WriteCall.step, hn]
  by_cases h0 : min (bufLen - 1 - tx.length) (bufLen - c.txIn) = 0
  · -- the buffer is full
    simp only [h0, if_true]
    refine h.withWriter hc ⟨hk.done_le, hcopied, fun _ => ⟨hlt, 0, ?_, (slot_zero hlt).symm⟩⟩
      rfl rfl rfl fun _ => by simp [WriteCall.Enables]
    omega
  · simp only [h0, if_false]
    refine h.withWriter hc ⟨hk.done_le, ⟨?_, (?_ : _ ≤ c.count), ?_⟩, ⟨hin, ?_⟩, ?_⟩ rfl rfl rfl
      fun _ => by simp [WriteCall.Enables]
    all_goals
      dsimp only
      split_ifs <;> omega

theorem writer_copy (h : Inv s rx tx) (hidle : s.isr = none) (hc : s.writer = some c)
    (hpc : c.pc = .copy) : ∃ tx', Inv (s.step (.writer x x')) rx tx' := by
  have hk := h.writer c hc
  have hhere := hk.here
  rw [hpc] at hhere
  obtain ⟨⟨hn, hcount, hroom⟩, ⟨hin, hend⟩, hcopied⟩ := hhere
  have hq := h.txQueue
  simp only [State.staged, hc, Option.map_some, Option.getD_some] at hq
  have hlen : c.staged.length = c.copied := by
    rw [WriteCall.staged, List.length_take, List.length_drop]
    exact Nat.min_eq_left (hcopied.trans hcount)
  by_cases hmore : c.copied < c.n
  · -- the next byte of the copy
    have hget : c.done + c.copied < c.data.length := by
      simp only [WriteCall.count] at hcount
      omega
    have hstaged : c.staged ++ [c.data.getD (c.done + c.copied) 0#8] =
        (c.data.drop c.done).take (c.copied + 1) := by
      have hdrop : c.copied < (c.data.drop c.done).length := by rw [List.length_drop]; omega
      rw [WriteCall.staged, ← List.take_append_getElem hdrop, List.getElem_drop,
        List.getD_eq_getElem?_getD, List.getElem?_eq_getElem hget, Option.getD_some]
    have hcell : slot bufLen s.machine.sp.txIn c.staged.length = c.txIn + c.copied := by
      rw [hlen, ← hin]
      exact slot_eq_add (by omega)
    have hstage := hq.stage (by omega) (c.data.getD (c.done + c.copied) 0#8)
    rw [hcell, hstaged] at hstage
    simp only [State.step, hc, hpc, WriteCall.step, hmore, if_true]
    exact ⟨tx, { h with
      toHost := by
        rw [h.toHost, State.written, State.written, hc]
        rfl
      txQueue := hstage
      writer := by
        rintro d hd
        obtain rfl := Option.some.inj hd
        exact ⟨hk.done_le, ⟨hn, hcount, hroom⟩, ⟨hin, hend⟩, hmore⟩
      writeEnabled := fun _ => .inr ⟨_, rfl, by simp [WriteCall.Enables]⟩ }⟩
  · -- the tail moves over the bytes copied
    have hall : c.copied = c.n := by omega
    have hpublish := hq.publish
    rw [hlen, hall, ← hin] at hpublish
    simp only [State.step, hc, hpc, WriteCall.step, hmore, if_false]
    refine ⟨tx ++ c.staged, { h with
      toHost := ?_
      txQueue := by simpa [State.staged, WriteCall.staged, slot] using hpublish
      writer := ?_
      isr := fun p hp => by
        rw [hidle] at hp
        cases hp
      writeEnabled := fun _ => .inr ⟨_, rfl, by simp [WriteCall.Enables]⟩ }⟩
    · rw [← List.append_assoc, h.toHost, State.written, State.written, hc]
      simp [WriteCall.staged, hall, List.take_add]
    · rintro d hd
      obtain rfl := Option.some.inj hd
      refine ⟨?_, rfl⟩
      simp only [WriteCall.count] at hcount
      have hdone := hk.done_le
      dsimp only
      omega

theorem writer_enable (h : Inv s rx tx) (hc : s.writer = some c) (hpc : c.pc = .enable) :
    Inv (s.step (.writer x x')) rx tx := by
  have hk := h.writer c hc
  have hhere := hk.here
  rw [hpc] at hhere
  have hset := set_we s.machine.sp.irqEnable
  have hw := h.writeControl (s.machine.sp.irqEnable ||| controlWeMsk) _ x x' rfl rfl
    (fun hre => h.readEnabled (hset.2 ▸ hre)) fun hwe => by rw [hset.1] at hwe; cases hwe
  simp only [State.step, hc, hpc, WriteCall.step]
  exact { hw with
    toHost := by
      rw [hw.toHost, State.written, State.written, hc]
      rfl
    txQueue := by
      have hq := hw.txQueue
      rw [State.staged, hc] at hq
      exact hq
    writer := by
      rintro d hd
      obtain rfl := Option.some.inj hd
      exact ⟨hk.done_le, hhere⟩
    writeEnabled := fun hwe => by
      change (s.machine.sp.irqEnable ||| controlWeMsk).getLsbD 1 = false at hwe
      rw [hset.1] at hwe
      cases hwe }

theorem writer_returned (h : Inv s rx tx) (hc : s.writer = some c) {r : ℤ}
    (hpc : c.pc = .returned r) : Inv (s.step (.writer x x')) rx tx := by
  have hhere := (h.writer c hc).here
  rw [hpc] at hhere
  simp only [State.step, hc, hpc]
  exact { h with
    toHost := by
      rw [h.toHost, State.written, State.written, hc]
      simp
    txQueue := by
      have hq := h.txQueue
      rw [State.staged, hc] at hq
      simpa [State.staged, WriteCall.staged, hhere.1] using hq
    writer := fun d hd => by cases hd
    writeEnabled := fun hwe => by
      refine .inl ((h.writeEnabled hwe).resolve_right ?_)
      rintro ⟨d, hd, hen⟩
      obtain rfl : c = d := Option.some.inj (hc.symm.trans hd)
      simp [WriteCall.Enables, hpc] at hen }

/-- A step of a call of write. -/
theorem writer_step (h : Inv s rx tx) (hidle : s.isr = none) (hs : s.writer ≠ none) :
    ∃ tx', Inv (s.step (.writer x x')) rx tx' := by
  obtain ⟨c, hc⟩ := Option.ne_none_iff_exists'.mp hs
  have hk := h.writer c hc
  have hhere := hk.here
  cases hpc : c.pc <;> rw [hpc] at hhere
  case loadOut => exact ⟨tx, h.writer_loadOut hc hpc⟩
  case copy => exact h.writer_copy hidle hc hpc
  case enable => exact ⟨tx, h.writer_enable hc hpc⟩
  case returned r => exact ⟨tx, h.writer_returned hc hpc⟩
  all_goals
    refine ⟨tx, ?_⟩
    simp only [State.step, hc, hpc, WriteCall.step]
    refine h.withWriter hc ⟨hk.done_le, ?_⟩ rfl rfl rfl fun hen => by
      simp only [WriteCall.Enables, hpc] at hen ⊢
      (try split_ifs) <;> simp_all
  case fill =>
    split_ifs with hcount
    · exact ⟨hhere, hcount⟩
    · exact ⟨hhere, fun hpos => absurd hpos hcount⟩
  case loadIn => exact ⟨hhere, rfl⟩
  case after =>
    split_ifs with hcount hnonblock
    · exact hhere.1
    · exact ⟨hhere.1, hcount, hhere.2 hcount⟩
    · exact hhere.1
  case spin => split_ifs <;> exact hhere
  case spinHost => split_ifs <;> exact hhere
  case recheck => split_ifs <;> exact hhere.1
  case finish => exact ⟨hhere, rfl⟩

/-- A call of write begins. -/
theorem write (h : Inv s rx tx) (hs : s.writer = none) (data : List (BitVec 8))
    (nonblock : Bool) : Inv (s.step (.write data nonblock)) rx tx :=
  { h with
    toHost := by
      have hwritten : (s.step (.write data nonblock)).written = s.written := by
        simp [State.step, State.written, hs, WriteCall.start]
      rw [hwritten]
      exact h.toHost
    txQueue := by
      have hq := h.txQueue
      rw [State.staged, hs] at hq
      simpa [State.step, State.staged, WriteCall.start, WriteCall.staged] using hq
    writer := by
      rintro d hd
      obtain rfl := Option.some.inj hd
      exact ⟨by simp [WriteCall.start], rfl⟩
    writeEnabled := fun hwe => by
      refine .inl ((h.writeEnabled hwe).resolve_right ?_)
      rintro ⟨d, hd, -⟩
      rw [hs] at hd
      cases hd }

end Inv

end AvalonCores.JtagUart
