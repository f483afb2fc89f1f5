import Mathlib.Tactic
import AvalonCores.CommonTools.Fifo

/-! A cycle of the `fifo` module that pushes and pops at once.  Both accept conditions pass the
guards on `EMPTY` and `FULL`, and each flag is set by comparing a next pointer with the old value
of the other pointer.  The flags are right exactly when at least two words are stored and at least
two are missing. -/

namespace AvalonCores.CommonTools.Fifo

open AvalonCores.Sync RingBuffer

variable {w e : ℕ}

/-- A cycle with `ENABLE`, `PUSH`, and `POP` high and `RESET` and `FLUSH` low. -/
structure Inputs.Exchange (i : Inputs w) : Prop where
  reset : i.reset = false
  enable : i.enable = true
  flush : i.flush = false
  push : i.push = true
  pop : i.pop = true

/-- Both requests are accepted, even by a full or an empty FIFO. -/
theorem Inputs.Exchange.acceptRead {i : Inputs w} (hi : i.Exchange) (s : State w e) :
    Fifo.acceptRead s i = true := by simp [Fifo.acceptRead, hi.push, hi.pop, hi.enable]

theorem Inputs.Exchange.acceptWrite {i : Inputs w} (hi : i.Exchange) (s : State w e) :
    Fifo.acceptWrite s i = true := by simp [Fifo.acceptWrite, hi.push, hi.pop, hi.enable]

/-- The queue that such a cycle is meant to leave: the oldest word has left and `x` is the newest,
or the queue is still empty. -/
def exchanged (q : List (BitVec w)) (x : BitVec w) : List (BitVec w) :=
  if q.isEmpty then [] else q.tail ++ [x]

theorem exchanged_length (q : List (BitVec w)) (x : BitVec w) :
    (exchanged q x).length = q.length := by
  cases q <;> simp [exchanged]

theorem exchanged_isEmpty (q : List (BitVec w)) (x : BitVec w) :
    (exchanged q x).isEmpty = q.isEmpty := by
  cases q <;> simp [exchanged]

namespace Represents

variable {s : State w e} {q : List (BitVec w)} {i : Inputs w}

theorem exchange_empty (h : Represents s q) (hi : i.Exchange) :
    (step s i).empty = decide (q.length = 1 ∨ (q.length = 0 ∧ addrDepth e = 1)) := by
  have hread := hi.acceptRead s
  have hwrite := hi.acceptWrite s
  simp only [step, hi.reset, hi.enable, hi.flush, hread, hwrite, h.nextReadPtr_eq]
  cases s.empty <;> simp

theorem exchange_full (h : Represents s q) (hi : i.Exchange) :
    (step s i).full =
      decide (q.length + 1 = addrDepth e ∨ (q.length = addrDepth e ∧ addrDepth e = 1)) := by
  have hread := hi.acceptRead s
  have hwrite := hi.acceptWrite s
  simp only [step, hi.reset, hi.enable, hi.flush, hread, hwrite, h.nextWritePtr_eq]
  cases s.full <;> simp

/-- The memory and the pointers always exchange the oldest word for the new one. -/
theorem exchange_holds (h : Represents s q) (hi : i.Exchange) (hq : q ≠ []) :
    Holds (addrDepth e) (step s i).memory (step s i).readPtr.toNat (q.tail ++ [i.dataIn]) ∧
      (step s i).writePtr.toNat =
        slot (addrDepth e) (step s i).readPtr.toNat (q.tail ++ [i.dataIn]).length := by
  obtain ⟨x, q, rfl⟩ := List.exists_cons_of_ne_nil hq
  have hread := hi.acceptRead s
  have hwrite := hi.acceptWrite s
  have hr := h.readPtr_lt
  have hl := h.length_le
  simp only [List.length_cons] at hl
  have hmem : (step s i).memory = Function.update s.memory s.writePtr.toNat i.dataIn := by
    simp [step, hi.reset, hi.enable, hi.flush, hwrite]
  have hrp : (step s i).readPtr.toNat = slot (addrDepth e) s.readPtr.toNat 1 := by
    simp [step, hi.reset, hi.enable, hi.flush, hread, nextReadPtr, nextPtr_toNat hr]
  have hwp : (step s i).writePtr.toNat = slot (addrDepth e) s.writePtr.toNat 1 := by
    simp [step, hi.reset, hi.enable, hi.flush, hwrite, nextWritePtr, nextPtr_toNat h.writePtr_lt]
  rw [hmem, hrp, hwp, h.write]
  constructor
  · simpa using h.holds.exchange i.dataIn
  · simp only [List.length_cons, List.tail_cons, List.length_append, List.length_nil]
    rw [slot_eq (slot_lt (by omega)) (by omega), slot_eq (slot_lt (by omega)) (by omega),
      slot_eq hr (by omega), slot_eq hr (by omega)]
    split_ifs <;> omega

/-- From a state that holds `n` words, a simultaneous push and pop leaves the intended queue with
the right flags if and only if `n` is neither `0` nor `1`, nor the depth or one below it. -/
theorem exchange_iff (h : Represents s q) (hi : i.Exchange) :
    Represents (step s i) (exchanged q i.dataIn) ↔
      2 ≤ q.length ∧ q.length + 2 ≤ addrDepth e := by
  have hl := h.length_le
  constructor
  · intro h'
    have hempty := h'.empty
    have hfull := h'.full
    rw [h.exchange_empty hi, exchanged_isEmpty, Bool.eq_iff_iff, decide_eq_true_iff,
      List.isEmpty_iff_length_eq_zero] at hempty
    rw [h.exchange_full hi, exchanged_length, decide_eq_decide] at hfull
    omega
  · rintro ⟨hlow, hhigh⟩
    have hq : q ≠ [] := by
      rintro rfl
      simp at hlow
    have hex : exchanged q i.dataIn = q.tail ++ [i.dataIn] := by simp [exchanged, hq]
    obtain ⟨hholds, hwrite⟩ := h.exchange_holds hi hq
    refine ⟨by rwa [hex], by rwa [hex], ?_, ?_⟩
    · rw [h.exchange_empty hi, exchanged_isEmpty, Bool.eq_iff_iff, decide_eq_true_iff,
        List.isEmpty_iff_length_eq_zero]
      omega
    · rw [h.exchange_full hi, exchanged_length, decide_eq_decide]
      omega

end Represents

/-- After every run from a reset without a simultaneous push and pop, one further cycle that
pushes and pops at once keeps the occupancy and the flags consistent if and only if at least two
words are stored and at least two are missing. -/
theorem fifo_exchange_iff (s : State w e) (first : Inputs w) (rest : List (Inputs w))
    (i : Inputs w) (hreset : first.reset = true)
    (hx : ∀ j ∈ first :: rest, ¬(j.push = true ∧ j.pop = true)) (hi : i.Exchange) :
    let q := run (queueStep (addrDepth e)) [] (first :: rest)
    Represents (step (run step s (first :: rest)) i) (exchanged q i.dataIn) ↔
      2 ≤ q.length ∧ q.length + 2 ≤ 2 ^ e := by
  have h := represents_run s first rest hreset fun j hj => hx j (List.mem_cons_of_mem _ hj)
  exact h.exchange_iff hi

def Inputs.exchangeCycle (x : BitVec w) : Inputs w := ⟨false, true, false, x, true, true⟩

theorem Inputs.exchangeCycle_exchange (x : BitVec w) : (exchangeCycle x).Exchange :=
  ⟨rfl, rfl, rfl, rfl, rfl⟩

theorem fifo_exchange_two_words :
    let inputs : List (Inputs 8) := [.resetCycle, .pushCycle 5#8, .pushCycle 6#8]
    let q := run (queueStep (addrDepth 3)) [] inputs
    Represents (step (run step (State.zero : State 8 3) inputs) (.exchangeCycle 7#8))
        (exchanged q 7#8) ↔ 2 ≤ q.length ∧ q.length + 2 ≤ 2 ^ 3 :=
  fifo_exchange_iff .zero .resetCycle [.pushCycle 5#8, .pushCycle 6#8] (.exchangeCycle 7#8) rfl
    (by simp [Inputs.resetCycle, Inputs.pushCycle]) (Inputs.exchangeCycle_exchange 7#8)

/-- With one word stored, a simultaneous push and pop sets `EMPTY` although a word remains. -/
theorem exchange_one_word_sets_empty :
    let inputs : List (Inputs 32) := [.resetCycle, .pushCycle 0xAAAA5555#32]
    let after := step (run step (State.zero : State 32 3) inputs) (.exchangeCycle 0xBBBB6666#32)
    run (queueStep (addrDepth 3)) [] inputs = [0xAAAA5555#32] ∧ after.empty = true ∧
      ¬Represents after (exchanged [0xAAAA5555#32] 0xBBBB6666#32) := by
  refine ⟨by decide, by decide, fun h => ?_⟩
  exact absurd h.empty (by decide)

end AvalonCores.CommonTools.Fifo
