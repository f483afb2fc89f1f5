import Mathlib.Tactic
import AvalonCores.Sync.Circuit
import AvalonCores.Sync.ShowAhead
import AvalonCores.MemoryTester.ChopperFsm
import AvalonCores.MemoryTester.Csr

/-! The controller `mtm_ram_test_controller`: its control and status registers, the ring that
decides between a write and a read command, and the two choppers with their command FIFOs. -/

namespace AvalonCores.MemoryTester.RamTestController

open AvalonCores.Sync

structure State where
  baseAddress : BitVec 64
  length : BitVec 32
  blockSize : BitVec 24
  blockTrail : BitVec 8
  concurrentAccessEnable : Bool
  start : Bool
  timerResolution : BitVec 16
  timerCounter : BitVec 32
  timerResolutionMinusOne : BitVec 16
  highResTimerCounter : BitVec 16
  clearHighResTimerCounterD1 : Bool
  readDataD1 : BitVec 32
  lastWriteComplete : Bool
  lastReadComplete : Bool
  blockTrailDistance : BitVec 8
  state : BitVec 3
  compareD1 : Bool
  issueWriteCommandD1 : Bool
  issueWriteCommandD2 : Bool
  issueReadCommandD1 : Bool
  issueReadCommandD2 : Bool
  writeFsm : ChopperFsm.State
  readFsm : ChopperFsm.State
  writeFifo : List Block
  readFifo : List Block
deriving DecidableEq, Repr

/-- The inputs of a cycle.  The two idle words are what an empty command FIFO shows at its
output. -/
structure Inputs where
  csrAddress : BitVec 3
  csrRead : Bool
  csrWrite : Bool
  csrWritedata : BitVec 32
  csrByteenable : BitVec 4
  srcWriteCommandReady : Bool
  srcReadCommandReady : Bool
  writeFifoIdle : Block
  readFifoIdle : Block
deriving DecidableEq, Repr

/-- The registers after a reset, with the values of the three default parameters. -/
def reset (timerResolution : BitVec 16) (blockSize : BitVec 24) (trailDistance : BitVec 8) :
    State where
  baseAddress := 0#_
  length := 0#_
  blockSize := blockSize
  blockTrail := trailDistance
  concurrentAccessEnable := false
  start := false
  timerResolution := timerResolution
  timerCounter := 0#_
  timerResolutionMinusOne := 0#_
  highResTimerCounter := 0#_
  clearHighResTimerCounterD1 := false
  readDataD1 := 0#_
  lastWriteComplete := false
  lastReadComplete := false
  blockTrailDistance := 0#_
  state := 0#_
  compareD1 := false
  issueWriteCommandD1 := false
  issueWriteCommandD2 := false
  issueReadCommandD1 := false
  issueReadCommandD2 := false
  writeFsm := ChopperFsm.reset
  readFsm := ChopperFsm.reset
  writeFifo := []
  readFifo := []

/-- `EAB_FIFO_DEPTH` -/
def fifoDepth : ℕ := 256

variable (s : State) (i : Inputs)

def csrWaitrequest : Bool := i.csrWrite && s.start

/-- A write of the register at word address `a` that the slave port accepts. -/
def load (a : BitVec 3) : Bool := i.csrWrite && i.csrAddress == a && !csrWaitrequest s i

def loadStart : Bool := load s i 0b100#3 && i.csrByteenable.getLsbD 3

def readData : BitVec 32 :=
  match i.csrAddress.toNat with
  | 0 => s.baseAddress.extractLsb' 0 32
  | 1 => s.baseAddress.extractLsb' 32 32
  | 2 => s.length
  | 3 => s.blockTrail ++ s.blockSize
  | 4 => 0#7 ++ BitVec.ofBool s.start ++ 0#23 ++ BitVec.ofBool s.concurrentAccessEnable
  | 6 => 0#16 ++ s.timerResolution
  | 7 => s.timerCounter
  | _ => 0#32

def srcWriteCommandValid : Bool := s.issueWriteCommandD2

def srcReadCommandValid : Bool := s.issueReadCommandD2

def writeFifoPop : Bool := s.issueWriteCommandD2 && i.srcWriteCommandReady

def readFifoPop : Bool := s.issueReadCommandD2 && i.srcReadCommandReady

def writeFifoDataout : Block := ShowAhead.front s.writeFifo i.writeFifoIdle

def readFifoDataout : Block := ShowAhead.front s.readFifo i.readFifoIdle

def srcWriteCommandData : Command := (writeFifoDataout s i).writeCommand

def srcReadCommandData : ReadCommand := (readFifoDataout s i).readCommand

/-- The inputs of a chopper whose command FIFO holds `fifo`. -/
def fsmInputs (fifo : List Block) : ChopperFsm.Inputs where
  baseAddress := s.baseAddress
  transferLength := s.length
  blockSize := s.blockSize
  enable := s.start
  fifoFull := decide (fifo.length = fifoDepth)

def writeFifoPush : Bool := ChopperFsm.fifoWrite s.writeFsm (fsmInputs s s.writeFifo)

def readFifoPush : Bool := ChopperFsm.fifoWrite s.readFsm (fsmInputs s s.readFifo)

/-- The last read command has been completed by the read master. -/
def clearStart : Bool := s.lastReadComplete && i.srcReadCommandReady

def initializing : Bool := loadStart s i || writeFifoPop s i || readFifoPop s i

def flushStatePipeline : Bool := clearStart s i

def compare : Bool := decide (s.blockTrailDistance.toNat < s.blockTrail.toNat)

def issueWriteCommand : Bool :=
  !s.writeFifo.isEmpty && s.state.getLsbD 1 &&
    (s.compareD1 && !s.concurrentAccessEnable && i.srcReadCommandReady ||
      s.compareD1 && s.concurrentAccessEnable)

def issueReadCommand : Bool :=
  !s.readFifo.isEmpty && s.state.getLsbD 1 &&
    (!s.compareD1 && !s.concurrentAccessEnable && i.srcWriteCommandReady ||
      !s.compareD1 && s.concurrentAccessEnable ||
      s.lastWriteComplete && !s.concurrentAccessEnable && i.srcWriteCommandReady ||
      s.lastWriteComplete && s.concurrentAccessEnable)

def setIssueWriteCommandD2 : Bool :=
  s.state.getLsbD 2 && s.issueWriteCommandD1 && s.start && !initializing s i

def setIssueReadCommandD2 : Bool :=
  s.state.getLsbD 2 && s.issueReadCommandD1 && s.start && !initializing s i

def clearLastWriteComplete : Bool := clearStart s i && s.lastWriteComplete

def setLastWriteComplete : Bool :=
  (writeFifoDataout s i).last && writeFifoPop s i && !s.lastWriteComplete

def clearLastReadComplete : Bool := clearStart s i && s.lastReadComplete

def setLastReadComplete : Bool :=
  (readFifoDataout s i).last && readFifoPop s i && !s.lastReadComplete

def clearHighResTimerCounter : Bool :=
  s.highResTimerCounter == s.timerResolutionMinusOne || load s i 0b110#3

def incrementTimerCounter : Bool := s.start && s.clearHighResTimerCounterD1

/-- The byte lanes of `base_address`, whose two halves have the word addresses 0 and 1. -/
def loadBaseAddressLanes : BitVec 8 :=
  if i.csrAddress.getLsbD 0 then i.csrByteenable ++ 0#4 else 0#4 ++ i.csrByteenable

def step : State where
  baseAddress :=
    if load s i 0b000#3 || load s i 0b001#3 then
      loadLanes (loadBaseAddressLanes i) (i.csrWritedata ++ i.csrWritedata) s.baseAddress
    else s.baseAddress
  length := if load s i 0b010#3 then loadLanes i.csrByteenable i.csrWritedata s.length else s.length
  blockSize :=
    if load s i 0b011#3 then
      loadLanes (i.csrByteenable.extractLsb' 0 3) (i.csrWritedata.extractLsb' 0 24) s.blockSize
    else s.blockSize
  blockTrail :=
    if load s i 0b011#3 && i.csrByteenable.getLsbD 3 then i.csrWritedata.extractLsb' 24 8
    else s.blockTrail
  concurrentAccessEnable :=
    if load s i 0b100#3 && i.csrByteenable.getLsbD 0 then i.csrWritedata.getLsbD 0
    else s.concurrentAccessEnable
  start :=
    if clearStart s i then false
    else if loadStart s i then i.csrWritedata.getLsbD 24
    else s.start
  timerResolution :=
    if load s i 0b110#3 then
      loadLanes (i.csrByteenable.extractLsb' 0 2) (i.csrWritedata.extractLsb' 0 16)
        s.timerResolution
    else s.timerResolution
  timerCounter :=
    if load s i 0b111#3 then loadLanes i.csrByteenable i.csrWritedata s.timerCounter
    else if incrementTimerCounter s then s.timerCounter + 1#_
    else s.timerCounter
  timerResolutionMinusOne := s.timerResolution - 1#_
  highResTimerCounter :=
    if s.clearHighResTimerCounterD1 then 1#_ else s.highResTimerCounter + 1#_
  clearHighResTimerCounterD1 := clearHighResTimerCounter s i
  readDataD1 := if i.csrRead then readData s i else s.readDataD1
  lastWriteComplete :=
    if clearLastWriteComplete s i then false
    else if setLastWriteComplete s i then true
    else s.lastWriteComplete
  lastReadComplete :=
    if clearLastReadComplete s i then false
    else if setLastReadComplete s i then true
    else s.lastReadComplete
  blockTrailDistance :=
    match readFifoPop s i, writeFifoPop s i with
    | false, true => s.blockTrailDistance + 1#_
    | true, false => s.blockTrailDistance - 1#_
    | _, _ => s.blockTrailDistance
  state :=
    if flushStatePipeline s i then 0b000#3
    else if initializing s i then 0b001#3
    else s.state.rotateLeft 1
  compareD1 := if s.state.getLsbD 0 then compare s else s.compareD1
  issueWriteCommandD1 := issueWriteCommand s i
  issueWriteCommandD2 :=
    if writeFifoPop s i then false
    else if setIssueWriteCommandD2 s i then s.issueWriteCommandD1
    else s.issueWriteCommandD2
  issueReadCommandD1 := issueReadCommand s i
  issueReadCommandD2 :=
    if readFifoPop s i then false
    else if setIssueReadCommandD2 s i then s.issueReadCommandD1
    else s.issueReadCommandD2
  writeFsm := ChopperFsm.step s.writeFsm (fsmInputs s s.writeFifo)
  readFsm := ChopperFsm.step s.readFsm (fsmInputs s s.readFifo)
  writeFifo :=
    ShowAhead.next s.writeFifo (writeFifoPop s i) (writeFifoPush s)
      (ChopperFsm.fifoCommand s.writeFsm)
  readFifo :=
    ShowAhead.next s.readFifo (readFifoPop s i) (readFifoPush s)
      (ChopperFsm.fifoCommand s.readFsm)

/-- While the start bit is set, a write to the slave port waits and changes no register. -/
theorem step_csrWrite (hs : s.start = true) (write : Bool) (data : BitVec 32)
    (byteenable : BitVec 4) :
    step s { i with csrWrite := write, csrWritedata := data, csrByteenable := byteenable } =
      step s { i with csrWrite := false, csrWritedata := 0#32, csrByteenable := 0#4 } := by
  have hload : ∀ a, load s { i with
      csrWrite := write, csrWritedata := data, csrByteenable := byteenable } a = false := by
    intro a
    cases write <;> simp [load, csrWaitrequest, hs]
  have hidle : ∀ a, load s
      { i with csrWrite := false, csrWritedata := 0#32, csrByteenable := 0#4 } a = false := by
    intro a
    simp [load]
  simp [step, loadStart, hload, hidle, initializing, clearHighResTimerCounter, writeFifoPop,
    readFifoPop, clearStart, setIssueWriteCommandD2, setIssueReadCommandD2, issueWriteCommand,
    issueReadCommand, readData, clearLastWriteComplete, setLastWriteComplete,
    clearLastReadComplete, setLastReadComplete, flushStatePipeline, writeFifoDataout,
    readFifoDataout]

end AvalonCores.MemoryTester.RamTestController
