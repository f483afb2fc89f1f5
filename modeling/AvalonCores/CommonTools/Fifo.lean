import Mathlib.Tactic
import AvalonCores.Sync.Circuit
import AvalonCores.Sync.RingBuffer

/-! The `fifo` module: a circular memory of `2 ^ ADDR_EXP` words whose occupancy is never stored.
Two pointers and the flags `EMPTY` and `FULL` imply it.  A state `Represents` the queue that its
pointers, flags, and memory agree on, and every run without a simultaneous push and pop keeps this
agreement with the bounded queue `queueStep`. -/

namespace AvalonCores.CommonTools.Fifo

open AvalonCores.Sync RingBuffer

/-- The registers.  The memory has the locations `0` to `ADDR_DEPTH - 1`; the pointers have one
bit more than an address needs. -/
structure State (dataWidth addrExp : ℕ) where
  memory : ℕ → BitVec dataWidth
  writePtr : BitVec (addrExp + 1)
  readPtr : BitVec (addrExp + 1)
  empty : Bool
  full : Bool

structure Inputs (dataWidth : ℕ) where
  reset : Bool
  enable : Bool
  flush : Bool
  dataIn : BitVec dataWidth
  push : Bool
  pop : Bool

variable {w e : ℕ}

def addrDepth (e : ℕ) : ℕ := 2 ^ e

/-- One location on, or back to the first from the last. -/
def nextPtr (ptr : BitVec (e + 1)) : BitVec (e + 1) :=
  if ptr.toNat = addrDepth e - 1 then 0#_ else ptr + 1#_

def nextWritePtr (s : State w e) : BitVec (e + 1) := nextPtr s.writePtr

def nextReadPtr (s : State w e) : BitVec (e + 1) := nextPtr s.readPtr

def acceptWrite (s : State w e) (i : Inputs w) : Bool :=
  (i.push && i.enable && !i.flush && !s.full) || (i.push && i.pop && i.enable)

def acceptRead (s : State w e) (i : Inputs w) : Bool :=
  (i.pop && i.enable && !i.flush && !s.empty) || (i.push && i.pop && i.enable)

def dataOut (s : State w e) (i : Inputs w) : BitVec w :=
  if i.enable then s.memory s.readPtr.toNat else 0#_

def step (s : State w e) (i : Inputs w) : State w e where
  writePtr :=
    if i.reset then 0#_
    else if i.enable then
      if i.flush then 0#_ else if acceptWrite s i then nextWritePtr s else s.writePtr
    else 0#_
  readPtr :=
    if i.reset then 0#_
    else if i.enable then
      if i.flush then 0#_ else if acceptRead s i then nextReadPtr s else s.readPtr
    else 0#_
  empty :=
    if i.reset then true
    else if i.enable then
      if i.flush then true
      -- Of the two assignments in the block the later one, to 1, wins.
      else if acceptRead s i && nextReadPtr s == s.writePtr then true
      else if s.empty && acceptWrite s i then false
      else s.empty
    else true
  full :=
    if i.reset then false
    else if i.enable then
      if i.flush then false
      else if acceptWrite s i && nextWritePtr s == s.readPtr then true
      else if s.full && acceptRead s i then false
      else s.full
    else false
  memory :=
    if i.reset then fun _ => 0#_
    else if i.enable then
      if i.flush then fun _ => 0#_
      else if acceptWrite s i then Function.update s.memory s.writePtr.toNat i.dataIn
      else s.memory
    else s.memory

/-- The bounded queue that the module is meant to be: emptied by `RESET`, by `ENABLE` low, or by
`FLUSH`; a push on a full queue and a pop on an empty one are dropped. -/
def queueStep (depth : ℕ) (q : List (BitVec w)) (i : Inputs w) : List (BitVec w) :=
  if i.reset || !i.enable || i.flush then []
  else
    let pushed := if i.push && decide (q.length < depth) then q ++ [i.dataIn] else q
    if i.pop then pushed.tail else pushed

/-- The pointers, the flags, and the memory agree on the queue `q`. -/
structure Represents (s : State w e) (q : List (BitVec w)) : Prop where
  holds : Holds (addrDepth e) s.memory s.readPtr.toNat q
  write : s.writePtr.toNat = slot (addrDepth e) s.readPtr.toNat q.length
  empty : s.empty = q.isEmpty
  full : s.full = decide (q.length = addrDepth e)

theorem addrDepth_pos (e : ℕ) : 0 < addrDepth e := Nat.two_pow_pos e

theorem nextPtr_toNat {ptr : BitVec (e + 1)} (h : ptr.toNat < addrDepth e) :
    (nextPtr ptr).toNat = slot (addrDepth e) ptr.toNat 1 := by
  have hw : 2 ^ (e + 1) = 2 * addrDepth e := by rw [addrDepth, pow_succ, mul_comm]
  have hd := addrDepth_pos e
  rw [slot_eq h (by omega), nextPtr]
  split
  · rw [if_neg (by omega), BitVec.toNat_zero]
    omega
  · rw [if_pos (by omega), BitVec.toNat_add, hw]
    simp only [BitVec.toNat_ofNat, hw]
    rw [Nat.mod_eq_of_lt (a := 1) (by omega), Nat.mod_eq_of_lt (by omega)]

theorem nextPtr_eq_iff {ptr other : BitVec (e + 1)} (h : ptr.toNat < addrDepth e) :
    (nextPtr ptr == other) = decide (slot (addrDepth e) ptr.toNat 1 = other.toNat) := by
  rw [← nextPtr_toNat h, Bool.eq_iff_iff, beq_iff_eq, decide_eq_true_iff, BitVec.toNat_inj]

namespace Represents

variable {s : State w e} {q : List (BitVec w)} {i : Inputs w}

theorem readPtr_lt (h : Represents s q) : s.readPtr.toNat < addrDepth e := h.holds.head_lt

theorem writePtr_lt (h : Represents s q) : s.writePtr.toNat < addrDepth e := by
  rw [h.write]
  exact slot_lt (addrDepth_pos e)

theorem length_le (h : Represents s q) : q.length ≤ addrDepth e := h.holds.length_le

/-- The next write pointer meets the read pointer exactly when one word is missing to a full
memory. -/
theorem nextWritePtr_eq (h : Represents s q) :
    (nextWritePtr s == s.readPtr) =
      decide (q.length + 1 = addrDepth e ∨ (q.length = addrDepth e ∧ addrDepth e = 1)) := by
  have hr := h.readPtr_lt
  have hl := h.length_le
  rw [nextWritePtr, nextPtr_eq_iff h.writePtr_lt, decide_eq_decide, h.write,
    slot_eq (slot_lt (by omega)) (by omega), slot_eq hr hl]
  split_ifs <;> omega

/-- The next read pointer meets the write pointer exactly when one word is stored. -/
theorem nextReadPtr_eq (h : Represents s q) :
    (nextReadPtr s == s.writePtr) =
      decide (q.length = 1 ∨ (q.length = 0 ∧ addrDepth e = 1)) := by
  have hr := h.readPtr_lt
  have hl := h.length_le
  rw [nextReadPtr, nextPtr_eq_iff hr, decide_eq_decide, h.write, slot_eq hr (by omega),
    slot_eq hr hl]
  split_ifs <;> omega

theorem cleared (hr : s.readPtr = 0#_) (hw : s.writePtr = 0#_) (he : s.empty = true)
    (hf : s.full = false) : Represents s [] where
  holds := .nil (by simp [hr, addrDepth_pos])
  write := by simp [hr, hw, slot]
  empty := by simp [he]
  full := by simpa [hf] using (addrDepth_pos e).ne

/-- A cycle that resets, disables, or flushes leaves the empty queue, from any state. -/
theorem clear (hi : (i.reset || !i.enable || i.flush) = true) : Represents (step s i) [] := by
  have h : i.reset = true ∨ i.enable = false ∨ i.flush = true := by
    simpa [or_assoc] using hi
  apply cleared <;> simp only [step] <;> split_ifs <;> simp_all

theorem push (h : Represents s q) (hc : (i.reset || !i.enable || i.flush) = false)
    (hp : i.push = true) (hn : i.pop = false) (room : q.length < addrDepth e) :
    Represents (step s i) (q ++ [i.dataIn]) := by
  simp only [Bool.or_eq_false_iff, Bool.not_eq_false'] at hc
  obtain ⟨⟨hreset, henable⟩, hflush⟩ := hc
  have hfull : s.full = false := by rw [h.full]; simp; omega
  have hwrite : acceptWrite s i = true := by simp [acceptWrite, hp, henable, hflush, hfull]
  have hread : acceptRead s i = false := by simp [acceptRead, hn]
  have hnext := nextPtr_toNat h.writePtr_lt
  have hslot : slot (addrDepth e) s.writePtr.toNat 1 =
      slot (addrDepth e) s.readPtr.toNat (q.length + 1) := by
    rw [h.write]
    have := h.readPtr_lt
    rw [slot_eq (slot_lt (by omega)) (by omega), slot_eq this (by omega), slot_eq this (by omega)]
    split_ifs <;> omega
  refine ⟨?_, ?_, ?_, ?_⟩
  · have hcell := h.holds.push room i.dataIn
    rw [← h.write] at hcell
    simpa [step, hreset, henable, hflush, hwrite, hread] using hcell
  · simp [step, hreset, henable, hflush, hwrite, hread, nextWritePtr, hnext, hslot]
  · simp [step, hreset, henable, hflush, hwrite, hread]
  · have hne : q.length ≠ addrDepth e := room.ne
    simp [step, hreset, henable, hflush, hwrite, hread, h.nextWritePtr_eq, hfull, hne]

theorem pop (h : Represents s q) (hc : (i.reset || !i.enable || i.flush) = false)
    (hp : i.push = false) (hn : i.pop = true) (hq : q ≠ []) :
    Represents (step s i) q.tail := by
  obtain ⟨x, q, rfl⟩ := List.exists_cons_of_ne_nil hq
  simp only [Bool.or_eq_false_iff, Bool.not_eq_false'] at hc
  obtain ⟨⟨hreset, henable⟩, hflush⟩ := hc
  have hempty : s.empty = false := by rw [h.empty]; rfl
  have hwrite : acceptWrite s i = false := by simp [acceptWrite, hp]
  have hread : acceptRead s i = true := by simp [acceptRead, hn, henable, hflush, hempty]
  have hnext := nextPtr_toNat h.readPtr_lt
  have hl := h.length_le
  simp only [List.length_cons] at hl
  refine ⟨?_, ?_, ?_, ?_⟩
  · simpa [step, hreset, henable, hflush, hwrite, hread, nextReadPtr, hnext] using h.holds.pop
  · simp [step, hreset, henable, hflush, hwrite, hread, nextReadPtr, hnext, h.write,
      slot_advance h.readPtr_lt (show q.length < addrDepth e by omega)]
  · cases q <;> simp [step, hreset, henable, hflush, hwrite, hread, h.nextReadPtr_eq, hempty]
  · have hne : q.length ≠ addrDepth e := by omega
    simp [step, hreset, henable, hflush, hwrite, hread, hne]

/-- A push that a full memory drops, a pop that an empty one ignores, or neither. -/
theorem hold (h : Represents s q) (hc : (i.reset || !i.enable || i.flush) = false)
    (hp : i.push = true → q.length = addrDepth e) (hn : i.pop = true → q = [])
    (hx : ¬(i.push = true ∧ i.pop = true)) : Represents (step s i) q := by
  simp only [Bool.or_eq_false_iff, Bool.not_eq_false'] at hc
  obtain ⟨⟨hreset, henable⟩, hflush⟩ := hc
  have hwrite : acceptWrite s i = false := by
    cases hpush : i.push
    · simp [acceptWrite, hpush]
    · have : i.pop = false := by simpa [hpush] using hx
      simp [acceptWrite, hpush, this, h.full, hp hpush]
  have hread : acceptRead s i = false := by
    cases hpop : i.pop
    · simp [acceptRead, hpop]
    · have : i.push = false := by simpa [hpop] using hx
      simp [acceptRead, hpop, this, h.empty, hn hpop]
  refine ⟨?_, ?_, ?_, ?_⟩ <;> simp only [step, hreset, henable, hflush, hwrite, hread]
  · exact h.holds
  · exact h.write
  · simpa using h.empty
  · simpa using h.full

/-- One cycle without a simultaneous push and pop does to the module what it does to the queue. -/
theorem next (h : Represents s q) (hx : ¬(i.push = true ∧ i.pop = true)) :
    Represents (step s i) (queueStep (addrDepth e) q i) := by
  by_cases hc : (i.reset || !i.enable || i.flush) = true
  · rw [queueStep, if_pos hc]
    exact clear hc
  · rw [queueStep, if_neg hc]
    rw [Bool.not_eq_true] at hc
    by_cases hp : i.push = true
    · have hn : i.pop = false := by simpa [hp] using hx
      by_cases room : q.length < addrDepth e
      · simpa [hp, hn, room] using h.push hc hp hn room
      · have hfull : q.length = addrDepth e := by have := h.length_le; omega
        simpa [hp, hn, room] using h.hold hc (fun _ => hfull) (by simp [hn]) hx
    · rw [Bool.not_eq_true] at hp
      by_cases hn : i.pop = true
      · by_cases hq : q = []
        · subst hq
          simpa [hp, hn] using h.hold hc (by simp [hp]) (fun _ => rfl) hx
        · simpa [hp, hn] using h.pop hc hp hn hq
      · simpa [hp, hn] using h.hold hc (by simp [hp]) (by simp [hn]) hx

end Represents

/-- After a run that begins with a reset, the module represents the queue of that run. -/
theorem represents_run (s : State w e) (first : Inputs w) (rest : List (Inputs w))
    (hreset : first.reset = true) (hx : ∀ i ∈ rest, ¬(i.push = true ∧ i.pop = true)) :
    Represents (run step s (first :: rest)) (run (queueStep (addrDepth e)) [] (first :: rest)) := by
  simp only [run_cons]
  have hq : queueStep (addrDepth e) [] first = [] := by simp [queueStep, hreset]
  rw [hq]
  have hclear : Represents (step s first) [] := Represents.clear (by simp [hreset])
  have hstep : ∀ (s : State w e) (q : List (BitVec w)) (i : Inputs w), Represents s q →
      ¬(i.push = true ∧ i.pop = true) → Represents (step s i) (queueStep (addrDepth e) q i) :=
    fun s q i h hi => h.next hi
  exact run_related hstep hclear rest hx

/-- The module refines the bounded queue: after every cycle of a run that begins with a reset and
never pushes and pops at once, the flags tell whether the queue is empty and full, and the output
of an enabled module is its head. -/
theorem fifo_refines_queue (s : State w e) (first : Inputs w) (rest : List (Inputs w))
    (hreset : first.reset = true)
    (hx : ∀ i ∈ first :: rest, ¬(i.push = true ∧ i.pop = true)) :
    let final := run step s (first :: rest)
    let q := run (queueStep (addrDepth e)) [] (first :: rest)
    (final.empty = true ↔ q = []) ∧ (final.full = true ↔ q.length = 2 ^ e) ∧
      ∀ i : Inputs w, i.enable = true → ∀ hq : q ≠ [], dataOut final i = q.head hq := by
  intro final q
  have h : Represents final q :=
    represents_run s first rest hreset fun i hi => hx i (List.mem_cons_of_mem _ hi)
  refine ⟨by simp [h.empty], by rw [h.full]; exact decide_eq_true_iff, fun i hi hq => ?_⟩
  simp [dataOut, hi, h.holds.get_head hq]

/-- Registers that hold zeros. -/
def State.zero : State w e := ⟨fun _ => 0#_, 0#_, 0#_, false, false⟩

def Inputs.resetCycle : Inputs w := ⟨true, false, false, 0#_, false, false⟩

def Inputs.pushCycle (x : BitVec w) : Inputs w := ⟨false, true, false, x, true, false⟩

theorem fifo_refines_queue_push :
    let inputs : List (Inputs 8) := [.resetCycle, .pushCycle 5#8]
    let final := run step (State.zero : State 8 2) inputs
    let q := run (queueStep (addrDepth 2)) [] inputs
    (final.empty = true ↔ q = []) ∧ (final.full = true ↔ q.length = 2 ^ 2) ∧
      ∀ i : Inputs 8, i.enable = true → ∀ hq : q ≠ [], dataOut final i = q.head hq :=
  fifo_refines_queue .zero .resetCycle [.pushCycle 5#8] rfl
    (by simp [Inputs.resetCycle, Inputs.pushCycle])

end AvalonCores.CommonTools.Fifo
