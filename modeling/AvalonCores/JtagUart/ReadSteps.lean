import Mathlib.Tactic
import AvalonCores.JtagUart.Interrupt

/-! The steps of a call of `altera_avalon_jtag_uart_read` keep the invariant of the driver. -/

namespace AvalonCores.JtagUart

open Sync Sync.RingBuffer

theorem set_re (x : BitVec 32) :
    (x ||| controlReMsk).getLsbD 0 = true ∧ (x ||| controlReMsk).getLsbD 1 = x.getLsbD 1 := by
  simp [controlReMsk]

namespace Inv

variable {s : State} {rx tx : List (BitVec 8)} {x x' : Core.Host} {c c' : ReadCall}

/-- A step that takes no bytes. -/
theorem withReader (h : Inv s rx tx) (hc : s.reader = some c)
    (hknows : c'.Knows s.machine.sp.rxOut rx) (hbytes : c'.bytes = c.bytes)
    (hpc : ∀ r, c'.pc ≠ .returned r) : Inv { s with reader := some c' } rx tx :=
  { h with
    fromHost := by
      rw [h.fromHost, State.read, State.read, hc]
      simp [hbytes]
    reader := by
      rintro d hd
      obtain rfl := Option.some.inj hd
      exact hknows
    readEnabled := fun hre => by
      refine (h.readEnabled hre).imp_right ?_
      rintro ⟨d, hd, hen⟩
      refine ⟨c', rfl, ?_, hpc⟩
      obtain rfl : c = d := Option.some.inj (hc.symm.trans hd)
      rw [hbytes]
      exact hen.1 }

theorem reader_loadOut (h : Inv s rx tx) (hc : s.reader = some c) (hpc : c.pc = .loadOut) :
    Inv (s.step (.reader x x')) rx tx := by
  have hk := h.reader c hc
  have hhere := hk.here
  rw [hpc] at hhere
  obtain ⟨⟨hcopied, hspace⟩, k, hle, hin⟩ := hhere
  have hlt := h.rxQueue.head_lt
  have hroom : rx.length < bufLen := by simpa using h.rxQueue.room
  have hn := run_of_consumer (k := k) hlt (by omega)
  rw [← hin] at hn
  simp only [State.step, hc, hpc, ReadCall.step, hn]
  refine h.withReader hc ⟨hk.length, ?_⟩ rfl fun r => by dsimp only; split_ifs <;> simp
  by_cases h0 : min k (bufLen - s.machine.sp.rxOut) = 0
  · -- no byte was there
    obtain rfl : k = 0 := by omega
    simp only [h0, if_true]
    exact ⟨hcopied, fun _ => hin.trans (slot_zero hlt)⟩
  · simp only [h0, if_false]
    exact ⟨by dsimp only; split_ifs <;> omega, ⟨rfl, by dsimp only; split_ifs <;> omega⟩, 0,
      Nat.zero_le _, hcopied⟩

theorem reader_copy (h : Inv s rx tx) (hidle : s.isr = none) (hc : s.reader = some c)
    (hpc : c.pc = .copy) : ∃ rx', Inv (s.step (.reader x x')) rx' tx := by
  have hk := h.reader c hc
  have hhere := hk.here
  rw [hpc] at hhere
  obtain ⟨⟨hn, hspace, hle⟩, ⟨hout, hend⟩, k, hkn, hcopied⟩ := hhere
  have hlen : c.copied.length = k := by rw [hcopied, List.length_take]; omega
  by_cases hmore : c.copied.length < c.n
  · -- the next byte of the copy
    simp only [State.step, hc, hpc, ReadCall.step, hmore, if_true]
    have hkr : k < rx.length := by omega
    have hcell : s.machine.sp.rxBuf (c.out + k) = rx[k] := by
      rw [hout, ← slot_eq_add (d := bufLen) (i := k) (by omega)]
      exact h.rxQueue.cell hkr
    refine ⟨rx, h.withReader hc ⟨hk.length, ?_⟩ rfl fun r => by simp⟩
    refine ⟨⟨hn, hspace, hle⟩, ⟨hout, hend⟩, k + 1, Nat.succ_le_of_lt (hlen ▸ hmore), ?_⟩
    rw [hlen, hcell, hcopied, List.take_append_getElem]
  · -- the head moves over the bytes copied
    obtain rfl : k = c.n := by omega
    have hbytes : c.bytes ++ c.copied ≠ [] := by
      intro hnil
      have hzero := congrArg List.length hnil
      simp only [List.length_append, List.length_nil] at hzero
      omega
    simp only [State.step, hc, hpc, ReadCall.step, hmore, if_false]
    refine ⟨rx.drop c.n, { h with
      fromHost := ?_
      rxQueue := ?_
      reader := ?_
      isr := fun p hp => by
        rw [hidle] at hp
        cases hp
      readEnabled := fun _ => .inr ⟨_, rfl, ?_, ?_⟩ }⟩
    · rw [h.fromHost, State.read, State.read, hc, hcopied]
      simp
    · rw [hout]
      exact h.rxQueue.drop hle
    · rintro d hd
      obtain rfl := Option.some.inj hd
      refine ⟨by have := hk.length; simp only [List.length_append]; omega, ?_⟩
      dsimp only
      split_ifs with hmore'
      · exact ⟨rfl, hmore'⟩
      · exact ⟨rfl, fun hnil => absurd hnil hbytes⟩
    · exact hbytes
    · intro r
      dsimp only
      split_ifs <;> simp

theorem reader_finish (h : Inv s rx tx) (hc : s.reader = some c) (hpc : c.pc = .finish) :
    Inv (s.step (.reader x x')) rx tx := by
  have hk := h.reader c hc
  by_cases hbytes : c.bytes ≠ []
  · simp only [State.step, hc, hpc, ReadCall.step, if_pos hbytes]
    have hset := set_re s.machine.sp.irqEnable
    have hw := h.writeControl (s.machine.sp.irqEnable ||| controlReMsk) _ x x' rfl rfl
      (fun hre => by rw [hset.1] at hre; cases hre) fun hwe => h.writeEnabled (hset.2 ▸ hwe)
    exact { hw with
      fromHost := by
        rw [hw.fromHost, State.read, State.read, hc]
        rfl
      reader := by
        rintro d hd
        obtain rfl := Option.some.inj hd
        exact ⟨hk.length, by simp [ReadCall.At, ReadCall.result, hbytes]⟩
      readEnabled := fun hre => by
        change (s.machine.sp.irqEnable ||| controlReMsk).getLsbD 0 = false at hre
        rw [hset.1] at hre
        cases hre }
  · simp only [State.step, hc, hpc, ReadCall.step, if_neg hbytes]
    rw [not_not] at hbytes
    exact { h with
      fromHost := by
        rw [h.fromHost, State.read, State.read, hc]
        rfl
      reader := by
        rintro d hd
        obtain rfl := Option.some.inj hd
        exact ⟨hk.length, by simp [ReadCall.At, ReadCall.result, hbytes]⟩
      readEnabled := fun hre => by
        refine .inl ((h.readEnabled hre).resolve_right ?_)
        rintro ⟨d, hd, hen⟩
        obtain rfl : c = d := Option.some.inj (hc.symm.trans hd)
        exact hen.1 hbytes }

theorem reader_returned (h : Inv s rx tx) (hc : s.reader = some c) {r : ℤ}
    (hpc : c.pc = .returned r) : Inv (s.step (.reader x x')) rx tx := by
  simp only [State.step, hc, hpc]
  exact { h with
    fromHost := by
      rw [h.fromHost, State.read, State.read, hc]
      simp
    reader := fun d hd => by cases hd
    readEnabled := fun hre => by
      refine .inl ((h.readEnabled hre).resolve_right ?_)
      rintro ⟨d, hd, hen⟩
      obtain rfl : c = d := Option.some.inj (hc.symm.trans hd)
      exact hen.2 r hpc }

/-- A step of a call of read. -/
theorem reader_step (h : Inv s rx tx) (hidle : s.isr = none) (hs : s.reader ≠ none) :
    ∃ rx', Inv (s.step (.reader x x')) rx' tx := by
  obtain ⟨c, hc⟩ := Option.ne_none_iff_exists'.mp hs
  have hk := h.reader c hc
  have hhere := hk.here
  cases hpc : c.pc <;> rw [hpc] at hhere
  case loadOut => exact ⟨rx, h.reader_loadOut hc hpc⟩
  case copy => exact h.reader_copy hidle hc hpc
  case finish => exact ⟨rx, h.reader_finish hc hpc⟩
  case returned r => exact ⟨rx, h.reader_returned hc hpc⟩
  all_goals
    refine ⟨rx, ?_⟩
    simp only [State.step, hc, hpc, ReadCall.step]
    refine h.withReader hc ⟨hk.length, ?_⟩ rfl fun r => by dsimp only; (try split_ifs) <;> simp
  case outer =>
    split_ifs with hspace
    · exact ⟨hhere, hspace⟩
    · exact hhere
  case loadIn => exact ⟨hhere, rx.length, le_rfl, h.rxQueue.tail_eq⟩
  case check =>
    split_ifs with hbytes hnonblock
    · exact hhere.1
    · exact hhere.1
    · rw [not_not] at hbytes
      exact ⟨hhere.1, hbytes, hhere.2 hbytes⟩
  case spin => split_ifs <;> exact hhere
  case spinHost => split_ifs <;> exact hhere
  case recheck => split_ifs <;> exact hhere.1

/-- A call of read begins. -/
theorem read (h : Inv s rx tx) (hs : s.reader = none) (space : ℕ) (nonblock : Bool) :
    Inv (s.step (.read space nonblock)) rx tx :=
  { h with
    fromHost := by
      have hread : (s.step (.read space nonblock)).read = s.read := by
        simp [State.step, State.read, hs, ReadCall.start]
      rw [hread]
      exact h.fromHost
    reader := by
      rintro d hd
      obtain rfl := Option.some.inj hd
      exact ⟨by simp [ReadCall.start], rfl⟩
    readEnabled := fun hre => by
      refine .inl ((h.readEnabled hre).resolve_right ?_)
      rintro ⟨d, hd, -⟩
      rw [hs] at hd
      cases hd }

end Inv

end AvalonCores.JtagUart
