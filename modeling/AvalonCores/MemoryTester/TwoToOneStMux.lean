import Mathlib.Tactic
import AvalonCores.Sync.OutputStage
import AvalonCores.MemoryTester.StreamSelect

/-! The streaming multiplexer `mtm_two_to_one_st_mux`.  A register of the slave port selects the
input whose words enter the output register. -/

namespace AvalonCores.MemoryTester.TwoToOneStMux

open Sync StreamSelect

/-- The select bit is 0 for input A. -/
structure State (w : ℕ) where
  inputSelect : Bool
  dataOut : BitVec w
  validOut : Bool
deriving DecidableEq, Repr

structure Inputs (w : ℕ) where
  csr : Csr
  snkDataA : BitVec w
  snkValidA : Bool
  snkDataB : BitVec w
  snkValidB : Bool
  srcReady : Bool
deriving DecidableEq, Repr

variable {w : ℕ}

def reset : State w := ⟨false, 0#_, false⟩

variable (s : State w) (i : Inputs w)

def pipelineReady : Bool := !s.validOut || i.srcReady && s.validOut

def pipelineEnable : Bool :=
  !s.inputSelect && pipelineReady s i && i.snkValidA ||
    s.inputSelect && pipelineReady s i && i.snkValidB

def snkReadyA : Bool := !s.inputSelect && pipelineReady s i

def snkReadyB : Bool := s.inputSelect && pipelineReady s i

def srcValid : Bool := s.validOut

def srcData : BitVec w := s.dataOut

def pendingData : Bool := s.validOut && i.srcReady || pipelineEnable s i

def readdata : BitVec 32 :=
  0#23 ++ BitVec.ofBool (pendingData s i) ++ 0#7 ++ BitVec.ofBool s.inputSelect

def step : State w where
  inputSelect := i.csr.nextSelect s.inputSelect
  dataOut :=
    if pipelineEnable s i then (if s.inputSelect then i.snkDataB else i.snkDataA) else s.dataOut
  validOut :=
    if i.csr.clearPipeline then false
    else if pipelineReady s i then pipelineEnable s i
    else s.validOut

/-- The output register as a stage of the stream. -/
def State.output : OutputStage (BitVec w) := ⟨s.dataOut, s.validOut⟩

/-- The mux takes the word at input A. -/
def acceptsA : Bool := i.snkValidA && snkReadyA s i

def acceptsB : Bool := i.snkValidB && snkReadyB s i

def delivers : Bool := srcValid s && i.srcReady

/-- The word that the mux takes. -/
def acceptedWord : BitVec w := if acceptsA s i then i.snkDataA else i.snkDataB

variable {s i}

theorem pipelineReady_eq : pipelineReady s i = s.output.accepts i.srcReady := by
  cases hv : s.validOut <;> simp [pipelineReady, OutputStage.accepts, State.output, hv]

theorem pipelineEnable_eq : pipelineEnable s i = (acceptsA s i || acceptsB s i) := by
  cases hs : s.inputSelect <;>
    simp [pipelineEnable, acceptsA, acceptsB, snkReadyA, snkReadyB, hs, Bool.and_comm]

theorem accepts_of_pipelineEnable (h : pipelineEnable s i = true) :
    s.output.accepts i.srcReady = true := by
  rw [← pipelineReady_eq]
  simp only [pipelineEnable, Bool.or_eq_true, Bool.and_eq_true] at h
  rcases h with ⟨⟨-, h⟩, -⟩ | ⟨⟨-, h⟩, -⟩ <;> exact h

/-- Without a clear, the output register takes the selected input. -/
theorem output_step (hc : i.csr.clearPipeline = false) :
    (step s i).output = s.output.next i.srcReady (pipelineEnable s i) (acceptedWord s i) := by
  have hdata : pipelineEnable s i = true →
      (if s.inputSelect then i.snkDataB else i.snkDataA) = acceptedWord s i := by
    intro he
    cases hs : s.inputSelect with
    | false =>
      have hA : acceptsA s i = true := by
        rw [pipelineEnable_eq] at he
        simpa [acceptsB, snkReadyB, hs] using he
      simp [acceptedWord, hA]
    | true => simp [acceptedWord, acceptsA, snkReadyA, hs]
  simp only [OutputStage.next, State.output, step, hc, pipelineReady_eq, Bool.false_eq_true,
    if_false]
  by_cases he : pipelineEnable s i = true
  · rw [if_pos he, if_pos he, hdata he]
    rfl
  · rw [if_neg he, if_neg he]
    rfl

theorem inputSelect_of_acceptsA (h : acceptsA s i = true) : s.inputSelect = false := by
  cases hs : s.inputSelect <;> simp_all [acceptsA, snkReadyA]

theorem inputSelect_of_acceptsB (h : acceptsB s i = true) : s.inputSelect = true := by
  cases hs : s.inputSelect <;> simp_all [acceptsB, snkReadyB]

/-- The mux from its reset on, without a write that clears the output register. -/
def circuit (w : ℕ) : Circuit (State w) (Inputs w) where
  init s := s = reset
  admits _ i := i.csr.clearPipeline = false
  step := step

section Execution

variable {st : ℕ → State w} {i : ℕ → Inputs w}

/-- The words accepted before cycle `t`. -/
def accepted (st : ℕ → State w) (i : ℕ → Inputs w) (t : ℕ) : List (BitVec w) :=
  collected (fun t => acceptsA (st t) (i t) || acceptsB (st t) (i t))
    (fun t => acceptedWord (st t) (i t)) t

/-- The words delivered before cycle `t`. -/
def delivered (st : ℕ → State w) (i : ℕ → Inputs w) (t : ℕ) : List (BitVec w) :=
  collected (fun t => delivers (st t) (i t)) (fun t => srcData (st t)) t

/-- All words but at most the last one have been delivered in the order of their acceptance.  They
come from the selected input, and stay at the output until the sink takes them. -/
structure Merges (st : ℕ → State w) (i : ℕ → Inputs w) : Prop where
  delivered : ∀ t, ∃ rest, accepted st i t = delivered st i t ++ rest ∧ rest.length ≤ 1
  fromA : ∀ t, acceptsA (st t) (i t) = true → (st t).inputSelect = false
  fromB : ∀ t, acceptsB (st t) (i t) = true → (st t).inputSelect = true
  single : ∀ t, ¬ (acceptsA (st t) (i t) = true ∧ acceptsB (st t) (i t) = true)
  stable : ∀ t d, srcValid (st t) = true →
    (∀ u, t ≤ u → u < t + d → (i u).srcReady = false) →
      srcValid (st (t + d)) = true ∧ srcData (st (t + d)) = srcData (st t)

theorem streams (he : (circuit w).Execution st i) :
    OutputStage.Streams (fun t => (st t).output) (fun t => (i t).srcReady)
      (fun t => pipelineEnable (st t) (i t)) (fun t => acceptedWord (st t) (i t)) where
  empty := by rw [he.init, State.output, reset]
  allowed _ h := accepts_of_pipelineEnable h
  next t := by
    rw [he.step]
    exact output_step (he.admits t)

/-- The mux loses, repeats and reorders no word. -/
theorem execution_merges (he : (circuit w).Execution st i) : Merges st i where
  delivered t := by
    have := (streams he).delivered t
    simp only [pipelineEnable_eq] at this
    exact this
  fromA t h := inputSelect_of_acceptsA h
  fromB t h := inputSelect_of_acceptsB h
  single t := by
    rintro ⟨hA, hB⟩
    have := inputSelect_of_acceptsA hA
    rw [inputSelect_of_acceptsB hB] at this
    contradiction
  stable _ d hv hstall := (streams he).presents hv d hstall

end Execution

/-- Input B is selected in cycle 1, while the sink stalls. -/
def switching (t : ℕ) : Inputs 8 where
  csr := if t = 1 then Csr.ofStore (iowr8Direct 0 1#_) else Csr.none
  snkDataA := 0xA#_
  snkValidA := true
  snkDataB := 0xB#_
  snkValidB := true
  srcReady := decide (2 ≤ t)

theorem merges_switching : Merges (trajectory step reset switching) switching := by
  refine execution_merges (Circuit.execution_trajectory rfl fun _ n => ?_)
  simp only [circuit, switching]
  split <;> rfl

end AvalonCores.MemoryTester.TwoToOneStMux
