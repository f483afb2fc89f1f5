import Mathlib.Tactic
import AvalonCores.JtagUart.ReadSteps
import AvalonCores.JtagUart.WriteSteps

/-! In every run of the processor with its JTAG UART, the bytes from the host come to the
application in order and those of the application to the host, none lost and none twice, and no
call waits for an interrupt that is off. -/

namespace AvalonCores.JtagUart

open Sync Sync.RingBuffer

namespace Link

variable {l : Link}

theorem ready_reset : reset.Ready := ⟨rfl, rfl, rfl⟩

theorem idles (hr : l.Ready) (hs : l.Sound) (before : List Core.Host) :
    (before.foldl idle l).Ready ∧ (before.foldl idle l).Sound ∧
      Passes l (before.foldl idle l) := by
  induction before generalizing l with
  | nil => exact ⟨hr, hs, ⟨rfl, fun _ h => h, le_rfl, id⟩⟩
  | cons x before ih =>
    obtain ⟨hr', hs', hp⟩ := ih (ready_idle x) (hs.next _)
    exact ⟨hr', hs', (passes_idle hr x).trans hp⟩

end Link

theorem inv_booted {sp : UartState} (hsp : sp.Zero) (before : List Core.Host)
    (alarmStarted : Bool) (h h' : Core.Host) :
    Inv (State.booted sp before alarmStarted h h') [] [] := by
  obtain ⟨hr, hs, hp⟩ := Link.idles Link.ready_reset .reset before
  have hp' := hp.trans (Link.passes_iowrControl (x := h) (z := h') (d := controlReMsk) hr)
  have hien := Link.ien_iowrControl (x := h) (z := h') (d := controlReMsk) hr
  have hqueue : ∀ mem : ℕ → BitVec 8, Queue bufLen mem 0 0 [] [] := fun _ => .nil bufLen_pos
  exact
    { ready := Link.ready_access hr
      sound := hs.access
      fromHost := hp'.fromHost [] rfl
      rxQueue := by simpa [State.booted, Machine.init, Machine.writeControl, hsp.rxIn, hsp.rxOut]
        using hqueue sp.rxBuf
      reader := fun c hc => by cases hc
      toHost := by
        change Link.written _ ++ [] = []
        rw [List.append_nil]
        exact hp'.written
      txQueue := by simpa [State.booted, State.staged, Machine.init, Machine.writeControl, hsp.txIn,
        hsp.txOut] using hqueue sp.txBuf
      writer := fun c hc => by cases hc
      isr := fun p hp => by cases hp
      ienAF := hien.2
      ienAE := hien.1
      readEnabled := fun hre => by
        change controlReMsk.getLsbD 0 = false at hre
        exact absurd hre (by decide)
      writeEnabled := fun _ => .inl rfl }

/-- Each step that may happen keeps the invariant. -/
theorem Inv.step {s : State} {rx tx : List (BitVec 8)} (h : Inv s rx tx) {a : Action}
    (ha : s.Enabled a) : ∃ rx' tx', Inv (s.step a) rx' tx' := by
  cases a with
  | idle x => exact ⟨rx, tx, h.idle x⟩
  | interrupt =>
    refine ⟨rx, tx, h.withIsr fun q hq => ?_⟩
    obtain rfl := Option.some.inj hq
    trivial
  | isr x x' => exact h.isr_step ha
  | timeout x => exact ⟨rx, tx, h.timeout x⟩
  | setTimeout timeout => exact ⟨rx, tx, h.setTimeout timeout⟩
  | read space nonblock => exact ⟨rx, tx, h.read ha.2 space nonblock⟩
  | reader x x' =>
    obtain ⟨rx', h'⟩ := h.reader_step ha.1 ha.2
    exact ⟨rx', tx, h'⟩
  | write data nonblock => exact ⟨rx, tx, h.write ha.2 data nonblock⟩
  | writer x x' =>
    obtain ⟨tx', h'⟩ := h.writer_step ha.1 ha.2
    exact ⟨rx, tx', h'⟩

theorem exists_inv {s : State} (h : circuit.Reachable s) : ∃ rx tx, Inv s rx tx := by
  refine Circuit.Reachable.invariant (I := fun s => ∃ rx tx, Inv s rx tx) ?_ ?_ h
  · rintro s ⟨sp, before, alarmStarted, x, x', hsp, rfl⟩
    exact ⟨[], [], inv_booted hsp before alarmStarted x x'⟩
  · rintro s a - ⟨_, _, hinv⟩ ha
    exact hinv.step ha

/-- The invariant, with the words that are in the buffers. -/
theorem inv_reachable {s : State} (h : circuit.Reachable s) : Inv s s.rxRing s.txRing := by
  obtain ⟨rx, tx, hinv⟩ := exists_inv h
  have hrx : s.rxRing = rx := hinv.rxQueue.words_eq
  have htx : s.txRing = tx := hinv.txQueue.words_eq
  rwa [hrx, htx]

/-- The bytes from the host are in order with the application, in the buffer and in the core; a
call returns the number of the bytes that it has taken, or an error without any. -/
structure State.Receives (s : State) : Prop where
  inOrder : s.link.fromHost = s.read ++ s.rxRing ++ s.link.hw.rfifo
  result : ∀ c ∈ s.reader, ∀ r, c.pc = .returned r → r = c.result ∧ c.bytes.length ≤ c.request

/-- The bytes of the application are in order with the host, in the core and in the buffer; a call
returns the number of the bytes that it has taken over, or an error without any. -/
structure State.Transmits (s : State) : Prop where
  inOrder : s.link.written ++ s.txRing = s.written
  room : s.link.hw.wfifo.length ≤ Core.depth
  result : ∀ c ∈ s.writer, ∀ r, c.pc = .returned r → r = c.result ∧ c.done ≤ c.data.length

/-- The host does nothing. -/
def quiet : Core.Host := ⟨false, false, false, 0#_⟩

def State.start : State :=
  .booted ⟨10#32, 0#_, 0#_, 0, 0, 0, 0, fun _ => 0#_, fun _ => 0#_⟩ [] true quiet quiet

theorem init_start : circuit.init .start :=
  ⟨_, [], true, quiet, quiet, ⟨rfl, rfl, rfl, rfl⟩, rfl⟩

theorem start_reachable : circuit.Reachable .start := .init init_start

theorem bytes_received {s : State} (h : circuit.Reachable s) : s.Receives := by
  have hinv := inv_reachable h
  refine ⟨hinv.fromHost, fun c hc r hpc => ?_⟩
  have hk := hinv.reader c hc
  have hhere := hk.here
  have hlength := hk.length
  rw [hpc] at hhere
  exact ⟨hhere, by omega⟩

/-- A call of read waits; the host sends a byte and makes a pause, which brings the routine. -/
def receiving : List Action :=
  .read 4 false :: List.replicate 6 (.reader quiet quiet) ++
    [.idle ⟨false, true, false, 0x41#8⟩, .idle ⟨false, false, true, 0#_⟩, .interrupt] ++
    List.replicate 5 (.isr quiet quiet) ++ List.replicate 12 (.reader quiet quiet)

theorem bytes_received_one_byte :
    (run State.step .start receiving).readLog = [0x41#8] ∧
      (run State.step .start receiving).Receives :=
  ⟨by decide +kernel, bytes_received (start_reachable.run receiving (by decide +kernel))⟩

theorem bytes_transmitted {s : State} (h : circuit.Reachable s) : s.Transmits := by
  have hinv := inv_reachable h
  refine ⟨hinv.toHost, hinv.sound.wfifo_le, fun c hc r hpc => ?_⟩
  have hk := hinv.writer c hc
  have hhere := hk.here
  rw [hpc] at hhere
  exact ⟨hhere.2, hk.done_le⟩

/-- A call of write returns; the routine takes its bytes to the core, and the host receives one of
them. -/
def transmitting : List Action :=
  .write [0x48#8, 0x69#8] false :: List.replicate 11 (.writer quiet quiet) ++
    [.idle quiet, .interrupt] ++ List.replicate 7 (.isr quiet quiet) ++
    [.idle ⟨true, false, false, 0#_⟩, .idle quiet]

theorem bytes_transmitted_two_bytes :
    (run State.step .start transmitting).link.toHost = [0x48#8] ∧
      (run State.step .start transmitting).Transmits :=
  ⟨by decide +kernel, bytes_transmitted (start_reachable.run transmitting (by decide +kernel))⟩

/-- The places at which a call of read waits for a byte. -/
def ReadCall.Waits (c : ReadCall) (s : State) : Prop :=
  (c.pc = .spin ∨ c.pc = .spinHost ∨ c.pc = .recheck) ∧ c.rxIn = s.sp.rxIn

/-- The places at which a call of write waits for room. -/
def WriteCall.Waits (c : WriteCall) (s : State) : Prop :=
  (c.pc = .spin ∨ c.pc = .spinHost ∨ c.pc = .recheck) ∧ c.out = s.sp.txOut

/-- A call waits only while the buffer has nothing for it, and with its interrupt on.  Without a
call, the read interrupt is off only with bytes in the buffer, and the write interrupt only without
any. -/
structure State.Awake (s : State) : Prop where
  reader : ∀ c ∈ s.reader, c.Waits s → s.rxRing = [] ∧ s.link.hw.ienAF = true
  writer : ∀ c ∈ s.writer, c.Waits s → s.txRing.length + 1 = bufLen ∧ s.link.hw.ienAE = true
  noReader : s.reader = none → s.link.hw.ienAF = false → s.rxRing ≠ []
  noWriter : s.writer = none → s.link.hw.ienAE = false → s.txRing = []

theorem no_lost_wakeup {s : State} (h : circuit.Reachable s) : s.Awake := by
  have hinv := inv_reachable h
  refine ⟨fun c hc hw => ?_, fun c hc hw => ?_, fun hnone hoff => ?_, fun hnone hoff => ?_⟩
  · have hhere := (hinv.reader c hc).here
    have hwait : c.bytes = [] ∧ c.rxIn = s.machine.sp.rxOut := by
      rcases hw.1 with hpc | hpc | hpc <;> rw [hpc] at hhere <;> exact hhere.2
    have hempty : s.rxRing = [] := hinv.rxQueue.empty_iff.mp (hwait.2.symm.trans hw.2)
    refine ⟨hempty, ?_⟩
    by_contra hoff
    rw [Bool.not_eq_true] at hoff
    rcases hinv.readEnabled (hinv.ienAF.symm.trans hoff) with hne | ⟨d, hd, hen⟩
    · exact hne hempty
    · obtain rfl : c = d := Option.some.inj (hc.symm.trans hd)
      exact hen.1 hwait.1
  · have hhere := (hinv.writer c hc).here
    have hblocked : c.Blocked s.machine.sp.txOut s.txRing := by
      rcases hw.1 with hpc | hpc | hpc <;> rw [hpc] at hhere <;> exact hhere.2.2
    obtain ⟨hout, k, hlen, heq⟩ := hblocked
    obtain rfl : k = 0 := by
      have h0 : slot bufLen c.out 0 = slot bufLen c.out k :=
        (slot_zero hout).trans (hw.2.trans heq)
      exact (slot_inj hout bufLen_pos (by omega) h0).symm
    refine ⟨hlen, ?_⟩
    by_contra hoff
    rw [Bool.not_eq_true] at hoff
    rcases hinv.writeEnabled (hinv.ienAE.symm.trans hoff) with hnil | ⟨d, hd, hen⟩
    · simp [hnil, bufLen] at hlen
    · obtain rfl : c = d := Option.some.inj (hc.symm.trans hd)
      rcases hw.1 with hpc | hpc | hpc <;> simp [WriteCall.Enables, hpc] at hen
  · refine (hinv.readEnabled (hinv.ienAF.symm.trans hoff)).resolve_right ?_
    rintro ⟨c, hc, -⟩
    rw [hnone] at hc
    cases hc
  · refine (hinv.writeEnabled (hinv.ienAE.symm.trans hoff)).resolve_right ?_
    rintro ⟨c, hc, -⟩
    rw [hnone] at hc
    cases hc

theorem no_lost_wakeup_empty_buffer :
    (run State.step .start (receiving.take 7)).link.hw.ienAF = true ∧
      (run State.step .start (receiving.take 7)).Awake :=
  ⟨by decide +kernel,
    no_lost_wakeup (start_reachable.run (receiving.take 7) (by decide +kernel))⟩

end AvalonCores.JtagUart
