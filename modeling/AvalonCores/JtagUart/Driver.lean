import Mathlib.Tactic
import AvalonCores.JtagUart.Access

/-! The interrupt-driven driver of the JTAG UART, step by step.  Its interrupt routine moves bytes
between the core and two circular buffers, and its read and write functions move them between these
buffers and the application.  A step reads or writes the shared state once, so that an interrupt
may come between any two of them. -/

namespace AvalonCores.JtagUart

def bufLen : ℕ := 2048

def intMax : BitVec 32 := 0x7FFFFFFF#32

def eio : ℤ := 5

def ewouldblock : ℤ := 11

/-- The fields of `altera_avalon_jtag_uart_state` that the functions use.  Without an operating
system, the semaphores and event flags have no effect. -/
structure UartState where
  timeout : BitVec 32
  irqEnable : BitVec 32
  hostInactive : BitVec 32
  rxIn : ℕ
  rxOut : ℕ
  txIn : ℕ
  txOut : ℕ
  rxBuf : ℕ → BitVec 8
  txBuf : ℕ → BitVec 8

/-- The driver's state and the core that it drives. -/
structure Machine where
  sp : UartState
  link : Link

namespace Machine

variable (m : Machine)

/-- A write of `irq_enable` to the control register. -/
def writeControl (irqEnable data : BitVec 32) (h h' : Core.Host) : Machine where
  sp := { m.sp with irqEnable := irqEnable }
  link := (m.link.access (.iowrControl data) h h').2

/-- A read of the control register. -/
def readControl (h h' : Core.Host) : Machine :=
  { m with link := (m.link.access .iordControl h h').2 }

/-- `altera_avalon_jtag_uart_init`.  The alarm may not start. -/
def init (alarmStarted : Bool) (h h' : Core.Host) : Machine :=
  let m := m.writeControl controlReMsk controlReMsk h h'
  { m with sp := { m.sp with
      hostInactive := 0#32
      timeout := if alarmStarted then m.sp.timeout else intMax } }

/-- `altera_avalon_jtag_uart_timeout`. -/
def timeoutRoutine (h : Fin 4 → Core.Host) : Machine :=
  let control := (m.link.access .iordControl (h 0) (h 1)).1
  let m := m.readControl (h 0) (h 1)
  if control &&& controlAcMsk ≠ 0#32 then
    let m := m.writeControl m.sp.irqEnable (m.sp.irqEnable ||| controlAcMsk) (h 2) (h 3)
    { m with sp := { m.sp with hostInactive := 0#32 } }
  else if m.sp.hostInactive < intMax - 2#32 then
    { m with sp := { m.sp with hostInactive := m.sp.hostInactive + 1#32 } }
  else m

/-- `altera_avalon_jtag_uart_ioctl` with the request `TIOCSTIMEOUT`. -/
def setTimeout (timeout : BitVec 32) : Machine :=
  if m.sp.timeout ≠ intMax then
    { m with sp := { m.sp with
        timeout := if (2#32).sle timeout && timeout.slt intMax then timeout else intMax - 1#32 } }
  else m

end Machine

/-- The places in `altera_avalon_jtag_uart_irq` between two accesses, with its local variables. -/
inductive Isr
  | poll
  | rx (control data : BitVec 32)
  | rxDone (control data : BitVec 32)
  | rxDummy (control : BitVec 32)
  | tx (space : ℕ)
  | txDone (space : ℕ)
  | txDummy
deriving DecidableEq, Repr

namespace Isr

/-- The part of the routine after the read interrupt. -/
def afterRx (control : BitVec 32) : Isr :=
  if control &&& controlWiMsk ≠ 0#32 then
    .tx ((control &&& controlWspaceMsk) >>> controlWspaceOfst).toNat
  else .poll

/-- One step of the routine, which returns at `none`. -/
def step (m : Machine) (h h' : Core.Host) : Isr → Machine × Option Isr
  | .poll =>
    let control := (m.link.access .iordControl h h').1
    (m.readControl h h',
      if control &&& (controlRiMsk ||| controlWiMsk) = 0#32 then none
      else if control &&& controlRiMsk ≠ 0#32 then some (.rx control (1#32 <<< dataRavailOfst))
      else some (afterRx control))
  | .rx control data =>
    if (m.sp.rxIn + 1) % bufLen = m.sp.rxOut then (m, some (.rxDone control data))
    else
      let data := (m.link.access .iordData h h').1
      let m := { m with link := (m.link.access .iordData h h').2 }
      if data &&& dataRvalidMsk = 0#32 then (m, some (.rxDone control data))
      else
        ({ m with sp := { m.sp with
            rxBuf := Function.update m.sp.rxBuf m.sp.rxIn (dataByte data)
            rxIn := (m.sp.rxIn + 1) % bufLen } }, some (.rx control data))
  | .rxDone control data =>
    if data &&& dataRavailMsk ≠ 0#32 then
      let irqEnable := m.sp.irqEnable &&& ~~~controlReMsk
      (m.writeControl irqEnable irqEnable h h', some (.rxDummy control))
    else (m, some (afterRx control))
  | .rxDummy control => (m.readControl h h', some (afterRx control))
  | .tx space =>
    if 0 < space ∧ m.sp.txOut ≠ m.sp.txIn then
      ({ sp := { m.sp with txOut := (m.sp.txOut + 1) % bufLen }
         link := (m.link.access (.iowrData ((m.sp.txBuf m.sp.txOut).signExtend 32)) h h').2 },
        some (.tx (space - 1)))
    else (m, some (.txDone space))
  | .txDone space =>
    if 0 < space then
      let irqEnable := m.sp.irqEnable &&& ~~~controlWeMsk
      (m.writeControl irqEnable irqEnable h h', some .txDummy)
    else (m, some .poll)
  | .txDummy => (m.readControl h h', some .poll)

end Isr

/-- The places in `altera_avalon_jtag_uart_read`. -/
inductive ReadPc
  | outer
  | loadIn
  | loadOut
  | copy
  | check
  | spin
  | spinHost
  | recheck
  | finish
  | returned (result : ℤ)
deriving DecidableEq, Repr

/-- A call of `altera_avalon_jtag_uart_read` for up to `request` bytes.  The buffer of the caller
holds `bytes`, and `copied` of the copy that is under way. -/
structure ReadCall where
  request : ℕ
  nonblock : Bool
  pc : ReadPc
  bytes : List (BitVec 8)
  copied : List (BitVec 8)
  space : ℕ
  rxIn : ℕ
  out : ℕ
  n : ℕ
deriving DecidableEq, Repr

namespace ReadCall

/-- A negative count acts like a count of 0. -/
def start (request : ℕ) (nonblock : Bool) : ReadCall :=
  ⟨request, nonblock, .outer, [], [], request, 0, 0, 0⟩

def step (m : Machine) (h h' : Core.Host) (c : ReadCall) : Machine × ReadCall :=
  match c.pc with
  | .outer => (m, { c with pc := if 0 < c.space then .loadIn else .finish })
  | .loadIn => (m, { c with pc := .loadOut, rxIn := m.sp.rxIn })
  | .loadOut =>
    let out := m.sp.rxOut
    let n := if out ≤ c.rxIn then c.rxIn - out else bufLen - out
    (m, { c with
      pc := if n = 0 then .check else .copy
      out := out
      n := if c.space < n then c.space else n })
  | .copy =>
    if c.copied.length < c.n then
      (m, { c with copied := c.copied ++ [m.sp.rxBuf (c.out + c.copied.length)] })
    else
      ({ m with sp := { m.sp with rxOut := (c.out + c.n) % bufLen } },
        { c with
          pc := if 0 < c.space - c.n then .loadIn else .check
          bytes := c.bytes ++ c.copied
          copied := []
          space := c.space - c.n })
  | .check =>
    (m, { c with pc := if c.bytes ≠ [] then .finish else if c.nonblock then .finish else .spin })
  | .spin => (m, { c with pc := if c.rxIn = m.sp.rxIn then .spinHost else .recheck })
  | .spinHost =>
    (m, { c with pc := if m.sp.hostInactive < m.sp.timeout then .spin else .recheck })
  | .recheck => (m, { c with pc := if c.rxIn = m.sp.rxIn then .finish else .outer })
  | .finish =>
    if c.bytes ≠ [] then
      let irqEnable := m.sp.irqEnable ||| controlReMsk
      (m.writeControl irqEnable irqEnable h h', { c with pc := .returned c.bytes.length })
    else (m, { c with pc := .returned (if c.nonblock then -ewouldblock else -eio) })
  | .returned _ => (m, c)

end ReadCall

/-- The places in `altera_avalon_jtag_uart_write`. -/
inductive WritePc
  | fill
  | loadIn
  | loadOut
  | copy
  | enable
  | after
  | spin
  | spinHost
  | recheck
  | finish
  | returned (result : ℤ)
deriving DecidableEq, Repr

/-- A call of `altera_avalon_jtag_uart_write` for the bytes `data`, of which the first `done` are in
the buffer, and `copied` more of the copy that is under way. -/
structure WriteCall where
  data : List (BitVec 8)
  nonblock : Bool
  pc : WritePc
  done : ℕ
  copied : ℕ
  txIn : ℕ
  out : ℕ
  n : ℕ
deriving DecidableEq, Repr

namespace WriteCall

def start (data : List (BitVec 8)) (nonblock : Bool) : WriteCall :=
  ⟨data, nonblock, .fill, 0, 0, 0, 0, 0⟩

/-- The bytes that the function has not yet taken over. -/
def count (c : WriteCall) : ℕ := c.data.length - c.done

def step (m : Machine) (h h' : Core.Host) (c : WriteCall) : Machine × WriteCall :=
  match c.pc with
  | .fill => (m, { c with pc := if 0 < c.count then .loadIn else .enable })
  | .loadIn => (m, { c with pc := .loadOut, txIn := m.sp.txIn })
  | .loadOut =>
    let out := m.sp.txOut
    let n :=
      if c.txIn < out then out - 1 - c.txIn
      else if 0 < out then bufLen - c.txIn
      else bufLen - 1 - c.txIn
    (m, { c with
      pc := if n = 0 then .enable else .copy
      out := out
      n := if c.count < n then c.count else n })
  | .copy =>
    if c.copied < c.n then
      ({ m with sp := { m.sp with
          txBuf := Function.update m.sp.txBuf (c.txIn + c.copied)
            (c.data.getD (c.done + c.copied) 0#8) } },
        { c with copied := c.copied + 1 })
    else
      ({ m with sp := { m.sp with txIn := (c.txIn + c.n) % bufLen } },
        { c with pc := .fill, done := c.done + c.n, copied := 0 })
  | .enable =>
    let irqEnable := m.sp.irqEnable ||| controlWeMsk
    (m.writeControl irqEnable irqEnable h h', { c with pc := .after })
  | .after =>
    (m, { c with pc := if 0 < c.count then if c.nonblock then .finish else .spin else .finish })
  | .spin => (m, { c with pc := if c.out = m.sp.txOut then .spinHost else .recheck })
  | .spinHost =>
    (m, { c with pc := if m.sp.hostInactive < m.sp.timeout then .spin else .recheck })
  | .recheck => (m, { c with pc := if c.out = m.sp.txOut then .finish else .fill })
  | .finish =>
    let result := if 0 < c.done then (c.done : ℤ) else if c.nonblock then -ewouldblock else -eio
    (m, { c with pc := .returned result })
  | .returned _ => (m, c)

end WriteCall

end AvalonCores.JtagUart
