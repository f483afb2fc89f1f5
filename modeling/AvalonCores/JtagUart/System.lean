import Mathlib.Tactic
import AvalonCores.Sync.RingQueue
import AvalonCores.JtagUart.Driver

/-! The processor with its JTAG UART.  Calls of the read and write functions, the interrupt routine,
the alarm and the host take their steps in any order, except that a call makes no step during the
interrupt routine. -/

namespace AvalonCores.JtagUart

open Sync Sync.RingBuffer

/-- The calls in progress, and the bytes that finished calls have returned to the application and
taken over from it. -/
structure State where
  machine : Machine
  isr : Option Isr
  reader : Option ReadCall
  writer : Option WriteCall
  readLog : List (BitVec 8)
  writeLog : List (BitVec 8)

/-- What may happen next.  Each access of the processor brings the activity `h` of the host in the
cycles that it takes. -/
inductive Action
  | idle (h : Core.Host)
  | interrupt
  | isr (h h' : Core.Host)
  | timeout (h : Fin 4 → Core.Host)
  | setTimeout (timeout : BitVec 32)
  | read (space : ℕ) (nonblock : Bool)
  | reader (h h' : Core.Host)
  | write (data : List (BitVec 8)) (nonblock : Bool)
  | writer (h h' : Core.Host)

namespace State

variable (s : State)

def link : Link := s.machine.link

def sp : UartState := s.machine.sp

/-- The bytes between the core and the read function. -/
def rxRing : List (BitVec 8) := words bufLen s.sp.rxBuf s.sp.rxOut s.sp.rxIn

/-- The bytes between the write function and the core. -/
def txRing : List (BitVec 8) := words bufLen s.sp.txBuf s.sp.txOut s.sp.txIn

/-- The bytes that have been taken from the buffer for the application. -/
def read : List (BitVec 8) := s.readLog ++ (s.reader.map ReadCall.bytes).getD []

/-- The bytes that have been taken over from the application. -/
def written : List (BitVec 8) :=
  s.writeLog ++ (s.writer.map fun c => c.data.take c.done).getD []

def step : Action → State
  | .idle h => { s with machine := { s.machine with link := s.link.idle h } }
  | .interrupt => { s with isr := some .poll }
  | .isr h h' =>
    match s.isr with
    | none => s
    | some p => { s with machine := (p.step s.machine h h').1, isr := (p.step s.machine h h').2 }
  | .timeout h => { s with machine := s.machine.timeoutRoutine h }
  | .setTimeout timeout => { s with machine := s.machine.setTimeout timeout }
  | .read space nonblock => { s with reader := some (.start space nonblock) }
  | .reader h h' =>
    match s.reader with
    | none => s
    | some c =>
      match c.pc with
      | .returned _ => { s with reader := none, readLog := s.readLog ++ c.bytes }
      | _ =>
        { s with machine := (c.step s.machine h h').1, reader := some (c.step s.machine h h').2 }
  | .write data nonblock => { s with writer := some (.start data nonblock) }
  | .writer h h' =>
    match s.writer with
    | none => s
    | some c =>
      match c.pc with
      | .returned _ => { s with writer := none, writeLog := s.writeLog ++ c.data.take c.done }
      | _ =>
        { s with machine := (c.step s.machine h h').1, writer := some (c.step s.machine h h').2 }

/-- A call begins when the one before has returned, and the processor does one thing at a time. -/
def Enabled : Action → Prop
  | .idle _ => True
  | .isr _ _ => s.isr ≠ none
  | .interrupt | .timeout _ | .setTimeout _ => s.isr = none
  | .read _ _ => s.isr = none ∧ s.reader = none
  | .reader _ _ => s.isr = none ∧ s.reader ≠ none
  | .write _ _ => s.isr = none ∧ s.writer = none
  | .writer _ _ => s.isr = none ∧ s.writer ≠ none

instance : DecidablePred s.Enabled
  | .idle _ => .isTrue trivial
  | .isr _ _ => inferInstanceAs (Decidable (s.isr ≠ none))
  | .interrupt | .timeout _ | .setTimeout _ => inferInstanceAs (Decidable (s.isr = none))
  | .read _ _ => inferInstanceAs (Decidable (s.isr = none ∧ s.reader = none))
  | .reader _ _ => inferInstanceAs (Decidable (s.isr = none ∧ s.reader ≠ none))
  | .write _ _ => inferInstanceAs (Decidable (s.isr = none ∧ s.writer = none))
  | .writer _ _ => inferInstanceAs (Decidable (s.isr = none ∧ s.writer ≠ none))

/-- The state after the initialization, with `before` the activity of the host since the reset. -/
def booted (sp : UartState) (before : List Core.Host) (alarmStarted : Bool) (h h' : Core.Host) :
    State where
  machine := Machine.init ⟨sp, before.foldl Link.idle Link.reset⟩ alarmStarted h h'
  isr := none
  reader := none
  writer := none
  readLog := []
  writeLog := []

end State

/-- The driver's state is zero at the start but for the timeout. -/
structure UartState.Zero (sp : UartState) : Prop where
  rxIn : sp.rxIn = 0
  rxOut : sp.rxOut = 0
  txIn : sp.txIn = 0
  txOut : sp.txOut = 0

def circuit : Circuit State Action where
  init s := ∃ sp before alarmStarted h h', sp.Zero ∧ s = State.booted sp before alarmStarted h h'
  admits := State.Enabled
  step := State.step

instance (s : State) (a : Action) : Decidable (circuit.admits s a) :=
  inferInstanceAs (Decidable (s.Enabled a))

end AvalonCores.JtagUart
