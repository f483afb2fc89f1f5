import Mathlib.Tactic
import AvalonCores.Sync.OutputStage
import AvalonCores.MemoryTester.StreamSelect

/-! The streaming demultiplexer `mtm_one_to_two_st_demux`.  A register of the slave port selects the
output register that the words enter.  The lemmas are about the output `o`, which is `false` for
output A and `true` for output B. -/

namespace AvalonCores.MemoryTester.OneToTwoStDemux

open Sync StreamSelect

/-- The select bit is 0 for output A. -/
structure State (w : ℕ) where
  outputSelect : Bool
  dataOutA : BitVec w
  dataOutB : BitVec w
  validOutA : Bool
  validOutB : Bool
deriving DecidableEq, Repr

structure Inputs (w : ℕ) where
  csr : Csr
  snkData : BitVec w
  snkValid : Bool
  srcReadyA : Bool
  srcReadyB : Bool
deriving DecidableEq, Repr

variable {w : ℕ}

def reset : State w := ⟨false, 0#_, 0#_, false, false⟩

variable (s : State w) (i : Inputs w)

def pipelineReadyA : Bool := !s.validOutA || i.srcReadyA && s.validOutA

def pipelineEnableA : Bool := !s.outputSelect && pipelineReadyA s i && i.snkValid

def pipelineReadyB : Bool := !s.validOutB || i.srcReadyB && s.validOutB

def pipelineEnableB : Bool := s.outputSelect && pipelineReadyB s i && i.snkValid

def snkReady : Bool :=
  !s.outputSelect && pipelineReadyA s i || s.outputSelect && pipelineReadyB s i

def pendingDataA : Bool := s.validOutA && i.srcReadyA || pipelineEnableA s i

def pendingDataB : Bool := s.validOutB && i.srcReadyB || pipelineEnableB s i

def readdata : BitVec 32 :=
  0#22 ++ BitVec.ofBool (pendingDataB s i) ++ BitVec.ofBool (pendingDataA s i) ++ 0#7 ++
    BitVec.ofBool s.outputSelect

def step : State w where
  outputSelect := i.csr.nextSelect s.outputSelect
  dataOutA := if pipelineEnableA s i then i.snkData else s.dataOutA
  dataOutB := if pipelineEnableB s i then i.snkData else s.dataOutB
  validOutA :=
    if i.csr.clearPipeline then false
    else if pipelineReadyA s i then pipelineEnableA s i
    else s.validOutA
  validOutB :=
    if i.csr.clearPipeline then false
    else if pipelineReadyB s i then pipelineEnableB s i
    else s.validOutB

def srcValid (o : Bool) : Bool := if o then s.validOutB else s.validOutA

def srcData (o : Bool) : BitVec w := if o then s.dataOutB else s.dataOutA

def srcReady (o : Bool) : Bool := if o then i.srcReadyB else i.srcReadyA

def pipelineEnable (o : Bool) : Bool := if o then pipelineEnableB s i else pipelineEnableA s i

/-- The register of an output as a stage of its stream. -/
def State.output (o : Bool) : OutputStage (BitVec w) := ⟨srcData s o, srcValid s o⟩

/-- The demux takes a word. -/
def accepts : Bool := i.snkValid && snkReady s i

def delivers (o : Bool) : Bool := srcValid s o && srcReady i o

variable {s i} {o : Bool}

theorem pipelineReadyA_eq : pipelineReadyA s i = (s.output false).accepts i.srcReadyA := by
  cases hv : s.validOutA <;>
    simp [pipelineReadyA, State.output, OutputStage.accepts, srcValid, hv]

theorem pipelineReadyB_eq : pipelineReadyB s i = (s.output true).accepts i.srcReadyB := by
  cases hv : s.validOutB <;>
    simp [pipelineReadyB, State.output, OutputStage.accepts, srcValid, hv]

/-- The selected output alone decides whether the demux takes a word. -/
theorem snkReady_eq :
    snkReady s i = (s.output s.outputSelect).accepts (srcReady i s.outputSelect) := by
  cases hs : s.outputSelect with
  | false => simp [snkReady, pipelineReadyA_eq, srcReady, hs]
  | true => simp [snkReady, pipelineReadyB_eq, srcReady, hs]

theorem pipelineEnable_eq : pipelineEnable s i o = (accepts s i && s.outputSelect == o) := by
  cases o <;> cases hs : s.outputSelect <;>
    simp [pipelineEnable, pipelineEnableA, pipelineEnableB, accepts, snkReady, hs, Bool.and_comm]

theorem accepts_of_pipelineEnable (h : pipelineEnable s i o = true) :
    (s.output o).accepts (srcReady i o) = true := by
  simp only [pipelineEnable_eq, Bool.and_eq_true, beq_iff_eq] at h
  obtain ⟨haccepts, rfl⟩ := h
  rw [← snkReady_eq]
  simp only [accepts, Bool.and_eq_true] at haccepts
  exact haccepts.2

/-- Without a clear, each output register takes the words that are accepted for it. -/
theorem output_step (hc : i.csr.clearPipeline = false) :
    (step s i).output o = (s.output o).next (srcReady i o) (pipelineEnable s i o) i.snkData := by
  cases o with
  | false =>
    simp only [OutputStage.next, srcReady, Bool.false_eq_true, if_false, ← pipelineReadyA_eq]
    simp [State.output, step, srcData, srcValid, pipelineEnable, hc]
  | true =>
    simp only [OutputStage.next, srcReady, if_true, ← pipelineReadyB_eq]
    simp [State.output, step, srcData, srcValid, pipelineEnable, hc]

/-- The demux from its reset on, without a write that clears the output registers. -/
def circuit (w : ℕ) : Circuit (State w) (Inputs w) where
  init s := s = reset
  admits _ i := i.csr.clearPipeline = false
  step := step

section Execution

variable {st : ℕ → State w} {i : ℕ → Inputs w}

/-- The words accepted before cycle `t` while the output `o` was selected. -/
def acceptedFor (st : ℕ → State w) (i : ℕ → Inputs w) (o : Bool) (t : ℕ) : List (BitVec w) :=
  collected (fun t => accepts (st t) (i t) && (st t).outputSelect == o) (fun t => (i t).snkData) t

/-- The words delivered on the output `o` before cycle `t`. -/
def delivered (st : ℕ → State w) (i : ℕ → Inputs w) (o : Bool) (t : ℕ) : List (BitVec w) :=
  collected (fun t => delivers (st t) (i t) o) (fun t => srcData (st t) o) t

/-- Each output has delivered all words accepted for it but at most the last one, in order.  A word
stays at its output until the sink takes it, and only a word that the selected output holds keeps
the demux from taking the next one. -/
structure Routes (st : ℕ → State w) (i : ℕ → Inputs w) : Prop where
  delivered : ∀ o t, ∃ rest, acceptedFor st i o t = delivered st i o t ++ rest ∧ rest.length ≤ 1
  ready : ∀ t, snkReady (st t) (i t) =
    !(srcValid (st t) (st t).outputSelect && !srcReady (i t) (st t).outputSelect)
  stable : ∀ o t d, srcValid (st t) o = true →
    (∀ u, t ≤ u → u < t + d → srcReady (i u) o = false) →
      srcValid (st (t + d)) o = true ∧ srcData (st (t + d)) o = srcData (st t) o

theorem streams (he : (circuit w).Execution st i) (o : Bool) :
    OutputStage.Streams (fun t => (st t).output o) (fun t => srcReady (i t) o)
      (fun t => pipelineEnable (st t) (i t) o) (fun t => (i t).snkData) where
  empty := by
    rw [he.init]
    cases o <;> rfl
  allowed _ h := accepts_of_pipelineEnable h
  next t := by
    rw [he.step]
    exact output_step (he.admits t)

/-- The demux loses, repeats and reorders no word, and sends each to the output that is selected
when it is accepted. -/
theorem execution_routes (he : (circuit w).Execution st i) : Routes st i where
  delivered o t := by
    have := (streams he o).delivered t
    simp only [pipelineEnable_eq] at this
    exact this
  ready t := by
    rw [snkReady_eq, OutputStage.accepts, Bool.not_and, Bool.not_not]
    rfl
  stable o _ d hv hstall := (streams he o).presents hv d hstall

end Execution

/-- Output B is selected in cycle 1, while output A stalls. -/
def switching (t : ℕ) : Inputs 8 where
  csr := if t = 1 then Csr.ofStore (iowr8Direct 0 1#_) else Csr.none
  snkData := BitVec.ofNat 8 t
  snkValid := true
  srcReadyA := decide (4 ≤ t)
  srcReadyB := true

theorem routes_switching : Routes (trajectory step reset switching) switching := by
  refine execution_routes (Circuit.execution_trajectory rfl fun _ n => ?_)
  simp only [circuit, switching]
  split <;> rfl

end AvalonCores.MemoryTester.OneToTwoStDemux
