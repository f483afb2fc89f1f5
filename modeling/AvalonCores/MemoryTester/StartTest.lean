import Mathlib.Tactic
import AvalonCores.MemoryTester.RamTestControllerDriver
import AvalonCores.MemoryTester.TestRuns

/-! `start_test` of `main.c`, which programs a transfer and starts it.  It starts no test when one
of the setters refuses its argument, and otherwise one with exactly the transfer of its
arguments. -/

namespace AvalonCores.MemoryTester.RamTestController

open Sync Program

def enableStart : Driver Unit := write (iowr8Direct (controlReg + controlStartByteOffset) 1#8)

def startTest (testBase : BitVec 64) (testLength blockSize blockTrailDistance : BitVec 32)
    (concurrentAccessEnable : BitVec 8) : Driver ℤ := do
  setBaseAddress testBase
  if (← setTransferLength testLength) ≠ 0 then
    return 2
  if (← setBlockSize blockSize) ≠ 0 then
    return 2
  if (← setBlockTrailDistance (blockTrailDistance.setWidth 8)) ≠ 0 then
    return 2
  if concurrentAccessEnable = 1#8 then
    enableConcurrentAccesses
  else
    disableConcurrentAccesses
  enableStart
  return 0

/-- A test as the controller starts it. -/
structure Test where
  transfer : Transfer
  blockTrail : BitVec 8
  concurrent : Bool
deriving DecidableEq, Repr

/-- The test that begins in a cycle. -/
def testBegun (s : State) (i : Inputs) : List Test :=
  if begins s i then [⟨csrTransfer s, s.blockTrail, (step s i).concurrentAccessEnable⟩] else []

/-- The slave port of the controller, with a log of the tests that begin. -/
def testPort : Port DirectStore DirectLoad (BitVec 32) (State × List Test) Inputs :=
  port.logging testBegun

/-- The setters refuse no argument of `startTest`. -/
structure Accepts (testLength blockSize blockTrailDistance : BitVec 32) : Prop where
  length : 32#32 < testLength
  blockSize : 32#32 < blockSize
  trail : blockTrailDistance.setWidth 8 ≠ 0#8

instance (testLength blockSize blockTrailDistance : BitVec 32) :
    Decidable (Accepts testLength blockSize blockTrailDistance) :=
  decidable_of_iff (_ ∧ _ ∧ _) ⟨fun ⟨h1, h2, h3⟩ => ⟨h1, h2, h3⟩, fun ⟨h1, h2, h3⟩ => ⟨h1, h2, h3⟩⟩

section Log

variable {s : State} {i : Inputs}

theorem testBegun_of_idle (hw : i.csrWrite = false) : testBegun s i = [] := by
  simp [testBegun, begins, loadStart, load, hw]

theorem testBegun_of_storeOk (hs : s.start = false) {x : DirectStore} (hx : StoreOk x) :
    testBegun s (access x.toCsrAccess i) = [] := by
  simp [testBegun, begins, loadStart_of_storeOk hs hx]

/-- The accesses of the setters begin no test. -/
theorem testPort_implements (log : List Test) :
    testPort.Implements (registerBits writable) (fun x => wordBits (register x.1))
      (fun x => x.1.start = false ∧ x.2 = log) StoreOk LoadOk :=
  implements_registerBits.logging (fun _ _ => testBegun_of_idle rfl)
    (fun hs hx _ => testBegun_of_storeOk hs hx) (fun _ _ _ => testBegun_of_idle rfl) log

/-- A program that makes no access begins no test. -/
theorem log_of_pure {x y : State × List Test} {α : Type} {a b : α}
    (hr : testPort.Runs x (pure a) y b) : y.2 = x.2 ∧ b = a := by
  generalize hq : (pure a : Driver α) = q at hr
  induction hr with
  | done =>
    cases hq
    exact ⟨rfl, rfl⟩
  | idle i _ ih =>
    obtain ⟨hlog, hb⟩ := ih hq
    refine ⟨hlog.trans ?_, hb⟩
    simp [testPort, Port.logging, testBegun_of_idle (i := port.idle i) rfl]
  | _ => cases hq

end Log

/-- The calls of setters, one after another. -/
def configure : List Setting → Driver Unit
  | [] => pure ()
  | x :: xs => do
    x.set
    configure xs

theorem uses_configure (xs : List Setting) : (configure xs).Uses StoreOk LoadOk := by
  induction xs with
  | nil => trivial
  | cons x xs ih => exact uses_bind x.uses_set fun _ => ih

theorem configure_frame {xs : List Setting} {r : ℕ → Bool} {k : ℕ}
    (hk : ∀ x ∈ xs, ¬ x.field.Holds k) : (meaning (configure xs) r).2 k = r k := by
  induction xs generalizing r with
  | nil => rfl
  | cons x xs ih =>
    simp only [meaning, configure, eval_bind] at ih ⊢
    rw [ih fun y hy => hk y (List.mem_cons_of_mem x hy)]
    exact x.set_frame (hk x List.mem_cons_self)

/-- Each of the fields that are set holds its value, when they are different ones. -/
theorem configure_holds {xs : List Setting} (hdistinct : xs.Pairwise fun x y => x.field ≠ y.field)
    (haccepted : ∀ x ∈ xs, x.Accepted) {r : ℕ → Bool} {x : Setting} (hx : x ∈ xs) {k : ℕ}
    (hk : x.field.Holds k) :
    (meaning (configure xs) r).2 k = x.value.getLsbD (k - x.field.first) := by
  induction xs generalizing r with
  | nil => contradiction
  | cons y ys ih =>
    obtain ⟨hy, hys⟩ := List.pairwise_cons.mp hdistinct
    simp only [meaning, configure, eval_bind] at ih ⊢
    rcases List.mem_cons.mp hx with rfl | hmem
    · have hframe : (meaning (configure ys) (meaning x.set r).2).2 k = (meaning x.set r).2 k :=
        configure_frame fun z hz => Field.not_holds (hy z hz) hk
      exact hframe.trans (Setting.set_holds (haccepted x List.mem_cons_self) hk)
    · exact ih hys (fun z hz => haccepted z (List.mem_cons_of_mem y hz)) hmem

section Start

variable {testBase : BitVec 64} {testLength blockSize blockTrailDistance : BitVec 32}
  {concurrentAccessEnable : BitVec 8}

/-- The setters that `startTest` calls before it sets the start bit. -/
def settings (testBase : BitVec 64) (testLength blockSize blockTrailDistance : BitVec 32)
    (concurrentAccessEnable : BitVec 8) : List Setting :=
  [.baseAddress testBase, .transferLength testLength, .blockSize blockSize,
    .blockTrailDistance (blockTrailDistance.setWidth 8),
    .concurrentAccesses (concurrentAccessEnable == 1#8)]

theorem startTest_of_accepts (h : Accepts testLength blockSize blockTrailDistance) :
    startTest testBase testLength blockSize blockTrailDistance concurrentAccessEnable =
      (do
        configure (settings testBase testLength blockSize blockTrailDistance concurrentAccessEnable)
        enableStart
        return 0) := by
  have hlength : ¬ testLength ≤ 32#32 := BitVec.not_le.2 h.length
  have hblock : ¬ blockSize ≤ 32#32 := BitVec.not_le.2 h.blockSize
  unfold startTest settings
  simp only [configure, Setting.set]
  unfold setTransferLength setBlockSize setBlockTrailDistance
  simp only [if_neg hlength, if_neg hblock, if_neg h.trail]
  by_cases he : concurrentAccessEnable = 1#8
  · simp only [he, if_true]
    rfl
  · simp only [he, if_false, beq_false_of_ne he]
    rfl

/-- When a setter refuses its argument, `startTest` leaves the rest out. -/
theorem startTest_of_refuses (testBase : BitVec 64) (concurrentAccessEnable : BitVec 8)
    (h : ¬ Accepts testLength blockSize blockTrailDistance) :
    ∃ xs : List Setting,
      startTest testBase testLength blockSize blockTrailDistance concurrentAccessEnable =
        (do
          configure xs
          return 2) := by
  by_cases hlength : testLength ≤ 32#32
  · refine ⟨[.baseAddress testBase, .transferLength testLength], ?_⟩
    simp only [startTest, setTransferLength, configure, Setting.set, if_pos hlength]
    rfl
  by_cases hblock : blockSize ≤ 32#32
  · refine ⟨[.baseAddress testBase, .transferLength testLength, .blockSize blockSize], ?_⟩
    simp only [startTest, setTransferLength, setBlockSize, configure, Setting.set,
      if_neg hlength, if_pos hblock]
    rfl
  have htrail : blockTrailDistance.setWidth 8 = 0#8 := by
    by_contra htrail
    exact h ⟨BitVec.not_le.1 hlength, BitVec.not_le.1 hblock, htrail⟩
  refine ⟨[.baseAddress testBase, .transferLength testLength, .blockSize blockSize,
    .blockTrailDistance (blockTrailDistance.setWidth 8)], ?_⟩
  simp only [startTest, setTransferLength, setBlockSize, setBlockTrailDistance, configure,
    Setting.set, if_neg hlength, if_neg hblock, if_pos htrail]
  rfl

section Fields

variable {s : State} {k : ℕ}

theorem baseAddress_getLsbD (hk : k < 64) :
    s.baseAddress.getLsbD k = wordBits (register s) k := by
  by_cases hlow : k < 32
  · simp [wordBits, Nat.div_eq_of_lt hlow, Nat.mod_eq_of_lt hlow, register, hlow]
  · have hdiv : k / 32 = 1 := by omega
    have hmod : k % 32 = k - 32 := by omega
    simp [wordBits, hdiv, hmod, register, show k - 32 < 32 by omega,
      show 32 + (k - 32) = k by omega]

theorem length_getLsbD (hk : k < 32) : s.length.getLsbD k = wordBits (register s) (64 + k) := by
  have hdiv : (64 + k) / 32 = 2 := by omega
  have hmod : (64 + k) % 32 = k := by omega
  simp [wordBits, hdiv, hmod, register]

theorem blockSize_getLsbD (hk : k < 24) :
    s.blockSize.getLsbD k = wordBits (register s) (96 + k) := by
  have hdiv : (96 + k) / 32 = 3 := by omega
  have hmod : (96 + k) % 32 = k := by omega
  simp only [wordBits, hdiv, hmod, register, BitVec.getLsbD_append, hk, if_true]

theorem blockTrail_getLsbD (hk : k < 8) :
    s.blockTrail.getLsbD k = wordBits (register s) (120 + k) := by
  have hdiv : (120 + k) / 32 = 3 := by omega
  have hmod : (120 + k) % 32 = 24 + k := by omega
  simp only [wordBits, hdiv, hmod, register, BitVec.getLsbD_append]
  rw [if_neg (by omega), Nat.add_sub_cancel_left]

theorem concurrentAccessEnable_eq :
    s.concurrentAccessEnable = wordBits (register s) 128 := by
  simp only [wordBits, register, getLsbD_flags]
  simp

end Fields

/-- The registers before the start bit is set are those of the arguments. -/
theorem test_of_settings {s : State} (h : Accepts testLength blockSize blockTrailDistance)
    {r : ℕ → Bool} (hview : wordBits (register s) = (meaning (configure (settings testBase
      testLength blockSize blockTrailDistance concurrentAccessEnable)) r).2) :
    csrTransfer s = ⟨testBase, testLength, blockSize.setWidth 24⟩ ∧
      s.blockTrail = blockTrailDistance.setWidth 8 ∧
      s.concurrentAccessEnable = (concurrentAccessEnable == 1#8) := by
  have haccepted : ∀ x ∈ settings testBase testLength blockSize blockTrailDistance
      concurrentAccessEnable, x.Accepted := by
    simp only [settings, List.forall_mem_cons]
    exact ⟨trivial, BitVec.le_of_lt h.length, BitVec.le_of_lt h.blockSize, h.trail, trivial,
      by simp⟩
  have hfield {x : Setting} (hx : x ∈ settings testBase testLength blockSize blockTrailDistance
      concurrentAccessEnable) {k : ℕ} (hk : x.field.Holds k) :
      wordBits (register s) k = x.value.getLsbD (k - x.field.first) := by
    rw [hview]
    exact configure_holds (by simp [settings, List.pairwise_cons]) haccepted hx hk
  have hbase : s.baseAddress = testBase := by
    apply BitVec.eq_of_getLsbD_eq
    intro k hk
    rw [baseAddress_getLsbD hk]
    exact hfield (x := .baseAddress testBase) (by simp [settings]) ⟨Nat.zero_le k, hk⟩
  have hlength : s.length = testLength := by
    apply BitVec.eq_of_getLsbD_eq
    intro k hk
    rw [length_getLsbD hk]
    have hbit : wordBits (register s) (64 + k) = testLength.getLsbD (64 + k - 64) :=
      hfield (x := .transferLength testLength) (by simp [settings])
        ⟨Nat.le_add_right .., by simp only [Field.first, Field.size]; omega⟩
    rwa [Nat.add_sub_cancel_left] at hbit
  have hblock : s.blockSize = blockSize.setWidth 24 := by
    apply BitVec.eq_of_getLsbD_eq
    intro k hk
    rw [blockSize_getLsbD hk]
    have hbit : wordBits (register s) (96 + k) = blockSize.getLsbD (96 + k - 96) :=
      hfield (x := .blockSize blockSize) (by simp [settings])
        ⟨Nat.le_add_right .., by simp only [Field.first, Field.size]; omega⟩
    rw [hbit, Nat.add_sub_cancel_left, BitVec.getLsbD_setWidth, decide_eq_true hk, Bool.true_and]
  have htrail : s.blockTrail = blockTrailDistance.setWidth 8 := by
    apply BitVec.eq_of_getLsbD_eq
    intro k hk
    rw [blockTrail_getLsbD hk]
    have hbit : wordBits (register s) (120 + k) =
        ((blockTrailDistance.setWidth 8).setWidth 32).getLsbD (120 + k - 120) :=
      hfield (x := .blockTrailDistance (blockTrailDistance.setWidth 8)) (by simp [settings])
        ⟨Nat.le_add_right .., by simp only [Field.first, Field.size]; omega⟩
    rw [hbit, Nat.add_sub_cancel_left, BitVec.getLsbD_setWidth,
      decide_eq_true (by omega : k < 32), Bool.true_and]
  have hconcurrent : s.concurrentAccessEnable = (concurrentAccessEnable == 1#8) := by
    rw [concurrentAccessEnable_eq]
    have hbit : wordBits (register s) 128 =
        ((BitVec.ofBool (concurrentAccessEnable == 1#8)).setWidth 8).getLsbD (128 - 128) :=
      hfield (x := .concurrentAccesses (concurrentAccessEnable == 1#8)) (by simp [settings])
        ⟨Nat.le_refl _, by simp only [Field.first, Field.size]; omega⟩
    rw [hbit, BitVec.getLsbD_setWidth, BitVec.getLsbD_ofBool]
    simp
  exact ⟨by rw [csrTransfer, hbase, hlength, hblock], htrail, hconcurrent⟩

theorem toCsrAccess_enableStart :
    (iowr8Direct (controlReg + controlStartByteOffset) 1#8).toCsrAccess =
      ⟨4#3, false, true, 0x01000000#32, 0b1000#4⟩ := by
  decide

/-- The store of the start bit begins the test of the registers. -/
theorem testBegun_enableStart {s : State} (hs : s.start = false) (i : Inputs) :
    testBegun s (access (iowr8Direct (controlReg + controlStartByteOffset) 1#8).toCsrAccess i) =
      [⟨csrTransfer s, s.blockTrail, s.concurrentAccessEnable⟩] := by
  rw [toCsrAccess_enableStart]
  simp [testBegun, begins, loadStart, load_of_stopped hs, access, step]

section Call

variable {s s' : State} {log log' : List Test} {a : ℤ} (hs : s.start = false)
  (hr : testPort.Runs (s, log)
    (startTest testBase testLength blockSize blockTrailDistance concurrentAccessEnable)
    (s', log') a)

include hs hr

/-- With arguments that no setter refuses, a call begins the test of its arguments. -/
theorem begun_of_accepts (h : Accepts testLength blockSize blockTrailDistance) :
    a = 0 ∧ log' = log ++ [⟨⟨testBase, testLength, blockSize.setWidth 24⟩,
      blockTrailDistance.setWidth 8, concurrentAccessEnable == 1#8⟩] := by
  have himplements := testPort_implements log
  rw [startTest_of_accepts h] at hr
  obtain ⟨x, _, hconfigure, hr⟩ := hr.of_bind
  obtain ⟨⟨hx, hlog⟩, heval⟩ := himplements.eval hconfigure ⟨hs, rfl⟩ (uses_configure _)
  obtain ⟨y, _, hstart, hr⟩ := hr.of_bind
  obtain ⟨hend, rfl⟩ := log_of_pure hr
  obtain ⟨t, i, ⟨ht, hlogt⟩, hview, hr⟩ := himplements.store_cycle hstart ⟨hx, hlog⟩
    fun t i ht => by simp [testPort, Port.logging, port, csrWaitrequest, ht.1]
  obtain ⟨hlogy, -⟩ := log_of_pure hr
  obtain ⟨htransfer, htrail, hconcurrent⟩ :=
    test_of_settings h (hview.trans (congrArg Prod.snd heval))
  refine ⟨rfl, ?_⟩
  have hbegun := testBegun_enableStart ht i
  rw [htransfer, htrail, hconcurrent] at hbegun
  rw [← hbegun, ← hlogt]
  exact hend.trans hlogy

/-- When a setter refuses its argument, a call begins no test. -/
theorem none_begun_of_refuses (h : ¬ Accepts testLength blockSize blockTrailDistance) :
    a = 2 ∧ log' = log ∧ s'.start = false := by
  have himplements := testPort_implements log
  obtain ⟨xs, hxs⟩ := startTest_of_refuses testBase concurrentAccessEnable h
  rw [hxs] at hr
  have huses : (configure xs >>= fun _ => (pure 2 : Driver ℤ)).Uses StoreOk LoadOk :=
    uses_bind (uses_configure xs) fun _ => trivial
  obtain ⟨⟨hstart, hlog⟩, heval⟩ := himplements.eval hr ⟨hs, rfl⟩ huses
  refine ⟨?_, hlog, hstart⟩
  rw [eval_bind] at heval
  exact congrArg Prod.fst heval

end Call

/-- A call of `startTest` on a stopped controller begins no test when a setter refuses its argument.
Otherwise it begins exactly one, with the transfer, the trail and the mode of its arguments. -/
theorem start_test_begins {s s' : State} {log log' : List Test} {a : ℤ} (hs : s.start = false)
    (hr : testPort.Runs (s, log)
      (startTest testBase testLength blockSize blockTrailDistance concurrentAccessEnable)
      (s', log') a) :
    if Accepts testLength blockSize blockTrailDistance then
      a = 0 ∧ log' = log ++ [⟨⟨testBase, testLength, blockSize.setWidth 24⟩,
        blockTrailDistance.setWidth 8, concurrentAccessEnable == 1#8⟩]
    else a = 2 ∧ log' = log ∧ s'.start = false := by
  split
  case isTrue h => exact begun_of_accepts hs hr h
  case isFalse h => exact none_begun_of_refuses hs hr h

end Start

/-- A cycle in which no command is taken. -/
def noCommand : Inputs :=
  ⟨0#_, false, false, 0#_, 0#_, false, false, ⟨false, 0#_, 0#_⟩, ⟨false, 0#_, 0#_⟩⟩

/-- A call for a test of 1024 bytes from address 0, without idle cycles between its stores. -/
theorem oneBlock_runs : ∃ s' log' a, testPort.Runs (reset 10#16 32#24 1#8, [])
    (startTest 0#64 0x400#32 0x400#32 1#32 0#8) (s', log') a := by
  have hr : testPort.Runs (reset 10#16 32#24 1#8, [])
      (startTest 0#64 0x400#32 0x400#32 1#32 0#8) _ _ :=
    .store noCommand rfl (.store noCommand rfl (.store noCommand rfl (.store noCommand rfl
      (.store noCommand rfl (.store noCommand rfl (.store noCommand rfl
        (.store noCommand (by decide +kernel) (.done _ _))))))))
  exact ⟨_, _, _, hr⟩

theorem start_test_begins_one_block :
    ∃ s' log' a, testPort.Runs (reset 10#16 32#24 1#8, [])
      (startTest 0#64 0x400#32 0x400#32 1#32 0#8) (s', log') a ∧
        a = 0 ∧ log' = [⟨⟨0#64, 0x400#32, 0x400#24⟩, 1#8, false⟩] := by
  obtain ⟨s', log', a, hr⟩ := oneBlock_runs
  exact ⟨s', log', a, hr, start_test_begins rfl hr⟩

end AvalonCores.MemoryTester.RamTestController
