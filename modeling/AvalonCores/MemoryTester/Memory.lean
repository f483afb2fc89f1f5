import Mathlib.Tactic
import AvalonCores.Sync.ShowAhead
import AvalonCores.MemoryTester.Burst

/-! A memory with a write port and a read port, both with bursts, that may return any word for a
read.  It remembers whether a word that it has returned differs from the one last written to the
address that was read. -/

namespace AvalonCores.MemoryTester

variable {b : ℕ}

/-- `cells` holds the words by their byte address; `next` is the address of the next beat of the
write burst in progress, of which `left` beats are left; and `pending` are the addresses of the
words that have been read and not yet returned. -/
structure Memory (b : ℕ) where
  cells : ℕ → Word b
  next : ℕ
  left : ℕ
  pending : List ℕ
  faulty : Bool

/-- The inputs of a cycle: the accepted beat of a write burst, the accepted read burst, and the
word returned. -/
structure Memory.Inputs (b : ℕ) where
  write : Bool
  writeAddress : ℕ
  writeBurstcount : ℕ
  writedata : Word b
  read : Bool
  readAddress : ℕ
  readBurstcount : ℕ
  readdatavalid : Bool
  readdata : Word b

namespace Memory

variable (m : Memory b) (i : Inputs b)

/-- The address of a beat: that of the bus on the first beat of a burst. -/
def beatAddress : ℕ := if m.left = 0 then i.writeAddress else m.next

/-- The addresses of the words of a burst. -/
def burstAddresses (b address burstcount : ℕ) : List ℕ :=
  (List.range burstcount).map fun k => address + k * 2 ^ b

/-- The word returned is not the one last written to its address. -/
def differs : Bool :=
  match m.pending with
  | [] => false
  | address :: _ => i.readdata != m.cells address

def step : Memory b where
  cells := if i.write then Function.update m.cells (beatAddress m i) i.writedata else m.cells
  next := if i.write then beatAddress m i + 2 ^ b else m.next
  left := if i.write then (if m.left = 0 then i.writeBurstcount else m.left) - 1 else m.left
  pending :=
    (if i.readdatavalid then m.pending.tail else m.pending) ++
      if i.read then burstAddresses b i.readAddress i.readBurstcount else []
  faulty := m.faulty || i.readdatavalid && differs m i

end Memory

end AvalonCores.MemoryTester
