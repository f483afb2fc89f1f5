import Mathlib.Tactic
import AvalonCores.JtagUart.System

/-! What holds between any two steps of the processor, its JTAG UART and the host: where the bytes
of each direction are, what the routine and the calls in progress know of them at each of their
places, and which interrupts are enabled. -/

namespace AvalonCores.JtagUart

open Sync Sync.RingBuffer

/-- The call has yet to enable the read interrupt, for the bytes that it has taken. -/
def ReadCall.Enables (c : ReadCall) : Prop := c.bytes ≠ [] ∧ ∀ r, c.pc ≠ .returned r

/-- The call has yet to enable the write interrupt. -/
def WriteCall.Enables (c : WriteCall) : Prop :=
  c.pc = .fill ∨ c.pc = .loadIn ∨ c.pc = .loadOut ∨ c.pc = .copy ∨ c.pc = .enable

namespace ReadCall

/-- What the code of the call says about the result. -/
def result (c : ReadCall) : ℤ :=
  if c.bytes ≠ [] then c.bytes.length else if c.nonblock then -ewouldblock else -eio

/-- What the call knows of the buffer at each place, when the buffer has the words `rx` from
`rxOut` on. -/
def At (c : ReadCall) (rxOut : ℕ) (rx : List (BitVec 8)) : ReadPc → Prop
  | .outer | .finish => c.copied = []
  | .loadIn => c.copied = [] ∧ 0 < c.space
  | .loadOut => (c.copied = [] ∧ 0 < c.space) ∧ ∃ k ≤ rx.length, c.rxIn = slot bufLen rxOut k
  | .copy => (0 < c.n ∧ c.n ≤ c.space ∧ c.n ≤ rx.length) ∧
    (c.out = rxOut ∧ c.out + c.n ≤ bufLen) ∧ ∃ k ≤ c.n, c.copied = rx.take k
  | .check => c.copied = [] ∧ (c.bytes = [] → c.rxIn = rxOut)
  | .spin | .spinHost | .recheck => c.copied = [] ∧ c.bytes = [] ∧ c.rxIn = rxOut
  | .returned r => r = c.result

structure Knows (c : ReadCall) (rxOut : ℕ) (rx : List (BitVec 8)) : Prop where
  length : c.bytes.length + c.space = c.request
  here : c.At rxOut rx c.pc

end ReadCall

namespace WriteCall

/-- The bytes of the copy under way. -/
def staged (c : WriteCall) : List (BitVec 8) := (c.data.drop c.done).take c.copied

def result (c : WriteCall) : ℤ :=
  if 0 < c.done then c.done else if c.nonblock then -ewouldblock else -eio

/-- The call has found the buffer full; the routine has taken bytes since then if `txOut` is not
what the call has seen. -/
def Blocked (c : WriteCall) (txOut : ℕ) (tx : List (BitVec 8)) : Prop :=
  c.out < bufLen ∧ ∃ k, tx.length + k + 1 = bufLen ∧ txOut = slot bufLen c.out k

/-- What the call knows of the buffer at each place, when the buffer has the words `tx` from
`txOut` up to `txIn`. -/
def At (c : WriteCall) (txIn txOut : ℕ) (tx : List (BitVec 8)) : WritePc → Prop
  | .fill | .finish => c.copied = 0
  | .loadIn => c.copied = 0 ∧ 0 < c.count
  | .loadOut => (c.copied = 0 ∧ 0 < c.count) ∧ c.txIn = txIn
  | .copy => (0 < c.n ∧ c.n ≤ c.count ∧ c.n + tx.length < bufLen) ∧
    (c.txIn = txIn ∧ c.txIn + c.n ≤ bufLen) ∧ c.copied ≤ c.n
  | .enable | .after => c.copied = 0 ∧ (0 < c.count → c.Blocked txOut tx)
  | .spin | .spinHost | .recheck => c.copied = 0 ∧ 0 < c.count ∧ c.Blocked txOut tx
  | .returned r => c.copied = 0 ∧ r = c.result

structure Knows (c : WriteCall) (txIn txOut : ℕ) (tx : List (BitVec 8)) : Prop where
  done_le : c.done ≤ c.data.length
  here : c.At txIn txOut tx c.pc

end WriteCall

/-- The core has the room that its control register has shown. -/
def Link.Room (link : Link) (control : BitVec 32) : Prop :=
  ((control &&& controlWspaceMsk) >>> controlWspaceOfst).toNat + link.hw.wfifo.length ≤ Core.depth

/-- What the routine knows of the core and the buffers. -/
def Isr.Knows (link : Link) (rx tx : List (BitVec 8)) : Isr → Prop
  | .poll | .txDummy => True
  | .rx control _ => (rx ≠ [] ∨ link.hw.rfifo ≠ []) ∧ link.Room control
  | .rxDone control _ => rx ≠ [] ∧ link.Room control
  | .rxDummy control => link.Room control
  | .tx space => space + link.hw.wfifo.length ≤ Core.depth
  | .txDone space => 0 < space → tx = []

/-- The bytes that a call of write has put past those it has given to the routine. -/
def State.staged (s : State) : List (BitVec 8) := (s.writer.map WriteCall.staged).getD []

/-- The state with the bytes `rx` and `tx` in the buffers. -/
structure Inv (s : State) (rx tx : List (BitVec 8)) : Prop where
  ready : s.machine.link.Ready
  sound : s.machine.link.Sound
  fromHost : s.machine.link.fromHost = s.read ++ rx ++ s.machine.link.hw.rfifo
  rxQueue : Queue bufLen s.machine.sp.rxBuf s.machine.sp.rxOut s.machine.sp.rxIn rx []
  reader : ∀ c ∈ s.reader, c.Knows s.machine.sp.rxOut rx
  toHost : s.machine.link.written ++ tx = s.written
  txQueue : Queue bufLen s.machine.sp.txBuf s.machine.sp.txOut s.machine.sp.txIn tx s.staged
  writer : ∀ c ∈ s.writer, c.Knows s.machine.sp.txIn s.machine.sp.txOut tx
  isr : ∀ p ∈ s.isr, Isr.Knows s.machine.link rx tx p
  ienAF : s.machine.link.hw.ienAF = s.machine.sp.irqEnable.getLsbD 0
  ienAE : s.machine.link.hw.ienAE = s.machine.sp.irqEnable.getLsbD 1
  readEnabled : s.machine.sp.irqEnable.getLsbD 0 = false → rx ≠ [] ∨ ∃ c ∈ s.reader, c.Enables
  writeEnabled : s.machine.sp.irqEnable.getLsbD 1 = false → tx = [] ∨ ∃ c ∈ s.writer, c.Enables

theorem Link.Room.of_le {l l' : Link} {control : BitVec 32} (h : l.Room control)
    (hle : l'.hw.wfifo.length ≤ l.hw.wfifo.length) : l'.Room control :=
  (Nat.add_le_add_left hle _).trans h

/-- The routine puts bytes into the buffer. -/
theorem ReadCall.Knows.append {c : ReadCall} {rxOut : ℕ} {rx : List (BitVec 8)}
    (h : c.Knows rxOut rx) (more : List (BitVec 8)) : c.Knows rxOut (rx ++ more) := by
  have hhere := h.here
  refine ⟨h.length, ?_⟩
  cases hpc : c.pc <;> rw [hpc] at hhere
  case loadOut =>
    obtain ⟨hspace, k, hk, heq⟩ := hhere
    exact ⟨hspace, k, by simp; omega, heq⟩
  case copy =>
    obtain ⟨⟨hn, hspace, hle⟩, hout, k, hk, heq⟩ := hhere
    refine ⟨⟨hn, hspace, by simp; omega⟩, hout, k, hk, ?_⟩
    rw [heq, List.take_append_of_le_length (by omega)]
  all_goals exact hhere

theorem WriteCall.Blocked.pop {c : WriteCall} {txOut : ℕ} {y : BitVec 8} {tx : List (BitVec 8)}
    (h : c.Blocked txOut (y :: tx)) : c.Blocked (slot bufLen txOut 1) tx := by
  obtain ⟨hout, k, hlen, heq⟩ := h
  refine ⟨hout, k + 1, by simp at hlen; omega, ?_⟩
  rw [heq, slot_slot]

/-- The routine takes a byte out of the buffer. -/
theorem WriteCall.Knows.pop {c : WriteCall} {txIn txOut : ℕ} {y : BitVec 8}
    {tx : List (BitVec 8)} (h : c.Knows txIn txOut (y :: tx)) :
    c.Knows txIn (slot bufLen txOut 1) tx := by
  have hhere := h.here
  refine ⟨h.done_le, ?_⟩
  cases hpc : c.pc <;> rw [hpc] at hhere
  case copy =>
    obtain ⟨⟨hn, hcount, hroom⟩, hin, hcopied⟩ := hhere
    exact ⟨⟨hn, hcount, by simp at hroom; omega⟩, hin, hcopied⟩
  case enable | after => exact ⟨hhere.1, fun hcount => (hhere.2 hcount).pop⟩
  case spin | spinHost | recheck => exact ⟨hhere.1, hhere.2.1, hhere.2.2.pop⟩
  all_goals exact hhere

namespace Isr.Knows

variable {l l' : Link} {rx tx : List (BitVec 8)}

theorem passes {p : Isr} (h : p.Knows l rx tx) (hp : Link.Passes l l') : p.Knows l' rx tx := by
  cases p with
  | poll => trivial
  | txDummy => trivial
  | rx control data => exact ⟨h.1.imp_right hp.rfifo_ne, h.2.of_le hp.wfifo_le⟩
  | rxDone control data => exact ⟨h.1, h.2.of_le hp.wfifo_le⟩
  | rxDummy control => exact Link.Room.of_le h hp.wfifo_le
  | tx space => exact (Nat.add_le_add_left hp.wfifo_le _).trans h
  | txDone space => exact h

theorem afterRx {control : BitVec 32} (h : l.Room control) : (afterRx control).Knows l rx tx := by
  rw [Isr.afterRx]
  split
  · exact h
  · trivial

end Isr.Knows

namespace Inv

variable {s : State} {rx tx : List (BitVec 8)}

/-- Cycles without a byte for the processor or from it. -/
theorem passes (h : Inv s rx tx) {l : Link} (hp : Link.Passes s.machine.link l) (hr : l.Ready)
    (hs : l.Sound)
    (hien : l.hw.ienAE = s.machine.link.hw.ienAE ∧ l.hw.ienAF = s.machine.link.hw.ienAF) :
    Inv { s with machine := { s.machine with link := l } } rx tx :=
  { h with
    ready := hr
    sound := hs
    fromHost := hp.fromHost _ h.fromHost
    toHost := by
      change l.written ++ tx = s.written
      rw [hp.written, h.toHost]
    isr := fun p hmem => (h.isr p hmem).passes hp
    ienAF := hien.2.trans h.ienAF
    ienAE := hien.1.trans h.ienAE }

theorem idle (h : Inv s rx tx) (x : Core.Host) : Inv (s.step (.idle x)) rx tx :=
  h.passes (Link.passes_idle h.ready x) (Link.ready_idle x) (h.sound.next _) (Link.idle_ien x)

theorem readControl (h : Inv s rx tx) (x x' : Core.Host) :
    Inv { s with machine := s.machine.readControl x x' } rx tx :=
  h.passes (Link.passes_iordControl h.ready) (Link.ready_access h.ready) h.sound.access
    (Link.ien_access h.ready fun _ => by simp)

/-- A write of the control register that leaves an interrupt off only where the invariant allows
it. -/
theorem writeControl (h : Inv s rx tx) (irqEnable data : BitVec 32) (x x' : Core.Host)
    (h0 : data.getLsbD 0 = irqEnable.getLsbD 0) (h1 : data.getLsbD 1 = irqEnable.getLsbD 1)
    (hre : irqEnable.getLsbD 0 = false → rx ≠ [] ∨ ∃ c ∈ s.reader, c.Enables)
    (hwe : irqEnable.getLsbD 1 = false → tx = [] ∨ ∃ c ∈ s.writer, c.Enables) :
    Inv { s with machine := s.machine.writeControl irqEnable data x x' } rx tx := by
  have hp : Link.Passes s.machine.link (s.machine.link.access (.iowrControl data) x x').2 :=
    Link.passes_iowrControl h.ready
  have hien := Link.ien_iowrControl (x := x) (z := x') (d := data) h.ready
  exact { h with
    ready := Link.ready_access h.ready
    sound := h.sound.access
    fromHost := hp.fromHost _ h.fromHost
    toHost := by
      change Link.written _ ++ tx = s.written
      rw [Machine.writeControl, hp.written, h.toHost]
    isr := fun p hmem => (h.isr p hmem).passes hp
    ienAF := hien.2.trans h0
    ienAE := hien.1.trans h1
    readEnabled := hre
    writeEnabled := hwe }

theorem withIsr (h : Inv s rx tx) {p : Option Isr}
    (hp : ∀ q ∈ p, Isr.Knows s.machine.link rx tx q) : Inv { s with isr := p } rx tx :=
  { h with isr := hp }

end Inv

end AvalonCores.JtagUart
