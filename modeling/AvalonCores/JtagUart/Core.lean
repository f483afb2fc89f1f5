import Mathlib.Tactic
import AvalonCores.Sync.Circuit

/-! The JTAG UART core `interrupt_example_JTAG_UART`, between the Avalon slave port of a processor
and the JTAG interface of the host.  The processor reads the bytes from the host in one FIFO and
writes the bytes for the host to another.  Each `scfifo` is an ideal FIFO, a list of its bytes, and
`alt_jtag_atlantic` is any host: its signals are inputs. -/

namespace AvalonCores.JtagUart.Core

open Sync

/-- The registers.  `wfifo` and `rfifo` are the FIFOs of the bytes that the processor writes and
reads; their outputs `rDat` and `fifoRdata` change with a read request only. -/
structure State where
  wfifo : List (BitVec 8)
  rDat : BitVec 8
  rfifo : List (BitVec 8)
  fifoRdata : BitVec 8
  pauseIrq : Bool
  rVal : Bool
  tDav : Bool
  fifoAE : Bool
  fifoAF : Bool
  fifoWr : Bool
  rvalid : Bool
  read0 : Bool
  ienAE : Bool
  ienAF : Bool
  ac : Bool
  woverflow : Bool
  avWaitrequest : Bool
deriving DecidableEq, Repr

/-- The Avalon slave port. -/
structure Bus where
  avAddress : Bool
  avChipselect : Bool
  avReadN : Bool
  avWriteN : Bool
  avWritedata : BitVec 32
deriving DecidableEq, Repr

/-- The JTAG interface: the host takes a byte with `rEna` and sends one with `tEna`. -/
structure Host where
  rEna : Bool
  tEna : Bool
  tPause : Bool
  tDat : BitVec 8
deriving DecidableEq, Repr

structure Inputs where
  bus : Bus
  host : Host
deriving DecidableEq, Repr

def reset : State where
  wfifo := []
  rDat := 0#_
  rfifo := []
  fifoRdata := 0#_
  pauseIrq := false
  rVal := false
  tDav := true
  fifoAE := false
  fifoAF := false
  fifoWr := false
  rvalid := false
  read0 := false
  ienAE := false
  ienAF := false
  ac := false
  woverflow := false
  avWaitrequest := true

/-- The words of a FIFO. -/
def depth : ℕ := 64

variable (s : State) (i : Inputs)

def wfifoEmpty : Bool := s.wfifo.isEmpty

def fifoEF : Bool := s.rfifo.isEmpty

def fifoFF : Bool := decide (depth ≤ s.wfifo.length)

def rfifoFull : Bool := decide (depth ≤ s.rfifo.length)

/-- The outputs full and used of a FIFO, side by side. -/
def fill (fifo : List (BitVec 8)) : BitVec 7 := BitVec.ofNat 7 fifo.length

def rdWfifo : Bool := i.host.rEna && !wfifoEmpty s

def wrRfifo : Bool := i.host.tEna && !rfifoFull s

def ipenAE : Bool := s.ienAE && s.fifoAE

def ipenAF : Bool := s.ienAF && (s.pauseIrq || s.fifoAF)

def avIrq : Bool := ipenAE s || ipenAF s

def activity : Bool := i.host.tPause || i.host.tEna

def write : Bool := i.bus.avChipselect && !i.bus.avWriteN && s.avWaitrequest

def read : Bool := i.bus.avChipselect && !i.bus.avReadN && s.avWaitrequest

def fifoRd : Bool := read s i && !i.bus.avAddress && !fifoEF s

/-- A word of the slave port: the upper half and bits 15 and 14 on, and the lower byte. -/
def statusWord (upper : BitVec 7) (low : BitVec 8) : BitVec 32 :=
  0#9 ++ upper ++ BitVec.ofBool s.rvalid ++ BitVec.ofBool s.woverflow ++
    BitVec.ofBool (!fifoFF s) ++ BitVec.ofBool (!fifoEF s) ++ 0#1 ++ BitVec.ofBool s.ac ++
    BitVec.ofBool (ipenAE s) ++ BitVec.ofBool (ipenAF s) ++ low

def avReaddata : BitVec 32 :=
  if s.read0 then statusWord s (fill s.rfifo) s.fifoRdata
  else statusWord s (0x40#7 - fill s.wfifo)
    (0#6 ++ BitVec.ofBool s.ienAE ++ BitVec.ofBool s.ienAF)

def step : State where
  wfifo := (if rdWfifo s i then s.wfifo.tail else s.wfifo) ++
    if s.fifoWr then [i.bus.avWritedata.setWidth 8] else []
  rDat := if rdWfifo s i then s.wfifo.headD s.rDat else s.rDat
  rfifo := (if fifoRd s i then s.rfifo.tail else s.rfifo) ++
    if wrRfifo s i then [i.host.tDat] else []
  fifoRdata := if fifoRd s i then s.rfifo.headD s.fifoRdata else s.fifoRdata
  pauseIrq :=
    if i.host.tPause && !fifoEF s then true
    else if s.read0 then false
    else s.pauseIrq
  rVal := rdWfifo s i
  tDav := !rfifoFull s
  fifoAE := decide (fill s.wfifo ≤ 8#7)
  fifoAF := decide (0x40#7 - fill s.rfifo ≤ 8#7)
  fifoWr := write s i && !i.bus.avAddress && !fifoFF s
  rvalid := if read s i && !i.bus.avAddress then !fifoEF s else s.rvalid
  read0 := read s i && !i.bus.avAddress
  ienAE := if write s i && i.bus.avAddress then i.bus.avWritedata.getLsbD 1 else s.ienAE
  ienAF := if write s i && i.bus.avAddress then i.bus.avWritedata.getLsbD 0 else s.ienAF
  ac :=
    if write s i && i.bus.avAddress && i.bus.avWritedata.getLsbD 10 && !activity i then false
    else if activity i then true
    else s.ac
  woverflow := if write s i && !i.bus.avAddress then fifoFF s else s.woverflow
  avWaitrequest := !(i.bus.avChipselect && (!i.bus.avWriteN || !i.bus.avReadN) && s.avWaitrequest)

variable {s}

theorem statusWord_getLsbD (upper : BitVec 7) (low : BitVec 8) (k : ℕ) :
    (statusWord s upper low).getLsbD k =
      if k < 8 then low.getLsbD k
      else if k < 16 then
        [ipenAF s, ipenAE s, s.ac, false, !fifoEF s, !fifoFF s, s.woverflow, s.rvalid].getD
          (k - 8) false
      else upper.getLsbD (k - 16) := by
  have hbits : (statusWord s upper low).getLsbD k =
      (0#9 ++ upper ++ BitVec.ofBool s.rvalid ++ BitVec.ofBool s.woverflow ++
        BitVec.ofBool (!fifoFF s) ++ BitVec.ofBool (!fifoEF s) ++ 0#1 ++ BitVec.ofBool s.ac ++
        BitVec.ofBool (ipenAE s) ++ BitVec.ofBool (ipenAF s) ++ low :
          BitVec (9 + 7 + 1 + 1 + 1 + 1 + 1 + 1 + 1 + 1 + 8)).getLsbD k := rfl
  rw [hbits]
  simp only [↓BitVec.getLsbD_append, BitVec.getLsbD_ofBool, BitVec.getLsbD_zero]
  rcases Nat.lt_or_ge k 16 with hk | hk
  · interval_cases k <;> simp
  · obtain ⟨j, rfl⟩ := Nat.exists_eq_add_of_le hk
    have hle : ∀ n ≤ 15, ¬ 16 + j ≤ n := by omega
    have hj : upper.getLsbD j = true → j < 7 := BitVec.lt_of_getLsbD
    simpa [Nat.sub_sub, Nat.sub_eq_zero_iff_le, hle, show ¬ 16 + j < 8 by omega,
      show ¬ 16 + j < 16 by omega] using hj

theorem statusWord_setWidth (upper : BitVec 7) (low : BitVec 8) :
    (statusWord s upper low).setWidth 8 = low := by
  refine BitVec.eq_of_getLsbD_eq fun k hk => ?_
  simp [statusWord_getLsbD, hk]

theorem statusWord_ushiftRight (upper : BitVec 7) (low : BitVec 8) :
    statusWord s upper low >>> 16 = upper.setWidth 32 := by
  refine BitVec.eq_of_getLsbD_eq fun k hk => ?_
  rw [BitVec.getLsbD_ushiftRight, statusWord_getLsbD, if_neg (by omega), if_neg (by omega),
    Nat.add_sub_cancel_left, BitVec.getLsbD_setWidth]
  simp [hk]

end AvalonCores.JtagUart.Core
