import Mathlib.Tactic
import AvalonCores.MemoryTester.TwoToOneStMux
import AvalonCores.MemoryTester.OneToTwoStDemux

/-! The functions `mux_input_select` and `demux_output_select`, with which the software switches a
stream path.  They read the pending data of the status register and write the select register when
it shows none. -/

namespace AvalonCores.MemoryTester.PathSelection

open Sync StreamSelect

/-- The offsets and masks of `two_to_one_st_mux_regs.h` and `one_to_two_st_demux_regs.h`. -/
structure Regs where
  controlReg : ℕ
  statusReg : ℕ
  selectMask : BitVec 32
  selectByteOffset : ℕ
  pendingDataMask : BitVec 32
  pendingDataByteOffset : ℕ
  pendingDataBitOffset : ℕ

def muxRegs : Regs := ⟨0x0, 0x4, 0x00000001#32, 0, 0x00000100#32, 1, 8⟩

def demuxRegs : Regs := ⟨0x0, 0x4, 0x00000001#32, 0, 0x00000100#32, 1, 8⟩

/-- The result of the two functions and the store that they make, from the byte of the status
register. -/
def selectPath (r : Regs) (pendingData select : BitVec 8) : ℤ × Option DirectStore :=
  if pendingData.setWidth 32 &&& (r.pendingDataMask >>> r.pendingDataBitOffset) == 0#_ then
    (0, some (iowr8Direct (r.controlReg + r.selectByteOffset)
      ((select.setWidth 32 &&& r.selectMask).setWidth 8)))
  else (-1, none)

/-- A core with a slave port. -/
structure Core (σ ι : Type*) where
  step : σ → ι → σ
  readdata : σ → ι → BitVec 32
  access : Csr → ι → ι

/-- The inputs in the cycle of the status read, in those until the function has seen the byte, and
in the cycle in which it stores or returns.  The accesses are those of the function. -/
structure Cycles (ι : Type*) where
  status : ι
  between : List ι
  last : ι

section Call

variable {σ ι : Type*} (core : Core σ ι) (r : Regs) (select : BitVec 8) (s : σ) (c : Cycles ι)

def statusRead : ι :=
  core.access (Csr.iord8Direct (r.statusReg + r.pendingDataByteOffset)) c.status

def call : ℤ × Option DirectStore :=
  selectPath r (byteOf (core.readdata s (statusRead core r c))
    (r.statusReg + r.pendingDataByteOffset)) select

/-- The core after the cycle of the status read. -/
def afterStatus : σ := core.step s (statusRead core r c)

/-- The core after the call. -/
def afterCall : σ :=
  let access := match (call core r select s c).2 with
    | some store => Csr.ofStore store
    | none => Csr.none
  core.step (run core.step (afterStatus core r s c) (c.between.map (core.access Csr.none)))
    (core.access access c.last)

end Call

/-- What the result of a call says about the words that the core holds after the status read and
about the select register before and after the call. -/
structure Switches (result : ℤ) (held : Bool) (old new requested : Bool) : Prop where
  drained : result = 0 → held = false
  refused : result = -1 → new = old
  switched : result = 0 → new = requested

def muxCore (w : ℕ) : Core (TwoToOneStMux.State w) (TwoToOneStMux.Inputs w) where
  step := TwoToOneStMux.step
  readdata := TwoToOneStMux.readdata
  access c i := { i with csr := c }

def demuxCore (w : ℕ) : Core (OneToTwoStDemux.State w) (OneToTwoStDemux.Inputs w) where
  step := OneToTwoStDemux.step
  readdata := OneToTwoStDemux.readdata
  access c i := { i with csr := c }

/-- `mux_input_select` -/
def muxInputSelect {w : ℕ} (select : BitVec 8) (s : TwoToOneStMux.State w)
    (c : Cycles (TwoToOneStMux.Inputs w)) : ℤ :=
  (call (muxCore w) muxRegs select s c).1

/-- `demux_output_select` -/
def demuxOutputSelect {w : ℕ} (select : BitVec 8) (s : OneToTwoStDemux.State w)
    (c : Cycles (OneToTwoStDemux.Inputs w)) : ℤ :=
  (call (demuxCore w) demuxRegs select s c).1

/-- The mux holds no accepted word after the status read unless the call is refused. -/
def MuxSwitches {w : ℕ} (select : BitVec 8) (s : TwoToOneStMux.State w)
    (c : Cycles (TwoToOneStMux.Inputs w)) : Prop :=
  Switches (muxInputSelect select s c) (afterStatus (muxCore w) muxRegs s c).validOut s.inputSelect
    (afterCall (muxCore w) muxRegs select s c).inputSelect (select.getLsbD 0)

def DemuxSwitches {w : ℕ} (select : BitVec 8) (s : OneToTwoStDemux.State w)
    (c : Cycles (OneToTwoStDemux.Inputs w)) : Prop :=
  Switches (demuxOutputSelect select s c)
    ((afterStatus (demuxCore w) demuxRegs s c).validOutA ||
      (afterStatus (demuxCore w) demuxRegs s c).validOutB) s.outputSelect
    (afterCall (demuxCore w) demuxRegs select s c).outputSelect (select.getLsbD 0)

/-- The call returns 0 and stores the requested bit unless the status byte has the bit of the
mask. -/
theorem selectPath_eq (p : Bool) {pendingData : BitVec 8} (select : BitVec 8)
    (h : (pendingData.setWidth 32 &&& 1#32 == 0#32) = !p) :
    selectPath muxRegs pendingData select =
      if p then (-1, none) else (0, some (iowr8Direct 0 (select &&& 1#8))) := by
  have hmask : muxRegs.pendingDataMask >>> muxRegs.pendingDataBitOffset = 1#32 := by decide
  have hbyte : (select.setWidth 32 &&& muxRegs.selectMask).setWidth 8 = select &&& 1#8 := by
    simp [muxRegs, BitVec.setWidth_and]
  rw [selectPath, hmask, h, hbyte]
  cases p <;> rfl

section Core

variable {σ ι : Type*} {core : Core σ ι}

/-- A call leaves or sets the select register of a core whose other cycles leave it. -/
theorem selected_afterCall (selected : σ → Bool) {r : Regs} {p : Bool} {select : BitVec 8} {s : σ}
    {c : Cycles ι}
    (hstep : ∀ s a i, selected (core.step s (core.access a i)) = a.nextSelect (selected s))
    (hcall : call core r select s c =
      if p then (-1, none) else (0, some (iowr8Direct 0 (select &&& 1#8)))) :
    selected (afterCall core r select s c) =
      if p then selected s else select.getLsbD 0 := by
  have hquiet (t : σ) (is : List ι) :
      selected (run core.step t (is.map (core.access Csr.none))) = selected t := by
    induction is generalizing t with
    | nil => rfl
    | cons i is ih =>
      rw [List.map_cons, run_cons, ih, hstep, Csr.nextSelect_of_quiet rfl]
  have hstatus : selected (afterStatus core r s c) = selected s := by
    rw [afterStatus, statusRead, hstep, Csr.nextSelect_of_quiet rfl]
  cases p with
  | false =>
    simp only [afterCall, hcall, Bool.false_eq_true, if_false]
    rw [hstep, Csr.nextSelect_store]
    simp
  | true =>
    simp only [afterCall, hcall, if_true]
    rw [hstep, Csr.nextSelect_of_quiet rfl, hquiet, hstatus]

/-- A call whose result depends on the pending bit `p` is right about the words that are held if and
only if none is held when `p` is clear. -/
theorem switches_iff_held {p held old new requested : Bool}
    (hnew : new = if p then old else requested) :
    Switches (if p then -1 else 0) held old new requested ↔ (p = false → held = false) := by
  cases p with
  | false =>
    exact ⟨fun h _ => h.drained rfl,
      fun h => ⟨fun _ => h rfl, fun hr => absurd hr (by decide), fun _ => hnew⟩⟩
  | true =>
    exact ⟨fun _ hp => absurd hp (by decide),
      fun _ => ⟨fun hr => absurd hr (by decide), fun _ => hnew, fun hr => absurd hr (by decide)⟩⟩

theorem switches_afterCall (selected : σ → Bool) {r : Regs} {p held : Bool} {select : BitVec 8}
    {s : σ} {c : Cycles ι}
    (hstep : ∀ s a i, selected (core.step s (core.access a i)) = a.nextSelect (selected s))
    (hcall : call core r select s c =
      if p then (-1, none) else (0, some (iowr8Direct 0 (select &&& 1#8)))) :
    Switches (call core r select s c).1 held (selected s) (selected (afterCall core r select s c))
      (select.getLsbD 0) ↔ (p = false → held = false) := by
  have hresult : (call core r select s c).1 = if p then -1 else 0 := by
    rw [hcall]
    cases p <;> rfl
  rw [hresult]
  exact switches_iff_held (selected_afterCall selected hstep hcall)

end Core

section Mux

variable {w : ℕ} (select : BitVec 8) (s : TwoToOneStMux.State w)
  (c : Cycles (TwoToOneStMux.Inputs w))

theorem call_mux :
    call (muxCore w) muxRegs select s c =
      if TwoToOneStMux.pendingData s c.status then (-1, none)
      else (0, some (iowr8Direct 0 (select &&& 1#8))) := by
  refine selectPath_eq _ select ?_
  have hbyte (p x : Bool) : ((byteOf (0#23 ++ BitVec.ofBool p ++ 0#7 ++ BitVec.ofBool x) 5).setWidth
      32 &&& 1#32 == 0#32) = !p := by
    cases p <;> cases x <;> decide
  exact hbyte _ _

/-- After the status read, the mux holds a word that it takes in that cycle or that the sink does
not. -/
theorem held_mux : (afterStatus (muxCore w) muxRegs s c).validOut =
    (TwoToOneStMux.pipelineEnable s c.status || s.validOut && !c.status.srcReady) := by
  have hstep := TwoToOneStMux.output_step (s := s) (i := statusRead (muxCore w) muxRegs c)
    (Csr.clearPipeline_eq_false rfl)
  have hvalid := congrArg OutputStage.valid hstep
  rw [OutputStage.next_valid TwoToOneStMux.accepts_of_pipelineEnable] at hvalid
  exact hvalid

/-- The mux is right to switch unless the sink stalls on a word in the cycle of the status read. -/
theorem muxSwitches_iff :
    MuxSwitches select s c ↔ ¬ (s.validOut = true ∧ c.status.srcReady = false) := by
  rw [MuxSwitches, muxInputSelect, switches_afterCall TwoToOneStMux.State.inputSelect
    (fun _ _ _ => rfl) (call_mux select s c), held_mux]
  cases hv : s.validOut <;> cases hr : c.status.srcReady <;>
    simp [TwoToOneStMux.pendingData, TwoToOneStMux.pipelineEnable, TwoToOneStMux.pipelineReady,
      hv, hr]

end Mux

section Demux

variable {w : ℕ} (select : BitVec 8) (s : OneToTwoStDemux.State w)
  (c : Cycles (OneToTwoStDemux.Inputs w))

/-- The mask has the bit of output A only. -/
theorem call_demux :
    call (demuxCore w) demuxRegs select s c =
      if OneToTwoStDemux.pendingDataA s c.status then (-1, none)
      else (0, some (iowr8Direct 0 (select &&& 1#8))) := by
  refine selectPath_eq _ select ?_
  have hbyte (p q x : Bool) : ((byteOf (0#22 ++ BitVec.ofBool q ++ BitVec.ofBool p ++ 0#7 ++
      BitVec.ofBool x) 5).setWidth 32 &&& 1#32 == 0#32) = !p := by
    cases p <;> cases q <;> cases x <;> decide
  exact hbyte _ _ _

theorem held_demux (o : Bool) :
    OneToTwoStDemux.srcValid (afterStatus (demuxCore w) demuxRegs s c) o =
      (OneToTwoStDemux.pipelineEnable s c.status o ||
        OneToTwoStDemux.srcValid s o && !OneToTwoStDemux.srcReady c.status o) := by
  have hstep := OneToTwoStDemux.output_step (s := s) (i := statusRead (demuxCore w) demuxRegs c)
    (o := o) (Csr.clearPipeline_eq_false rfl)
  have hvalid := congrArg OutputStage.valid hstep
  rw [OutputStage.next_valid OneToTwoStDemux.accepts_of_pipelineEnable] at hvalid
  exact hvalid

/-- The demux is right to switch if output A shows pending data, or if no output stalls on a word in
the cycle of the status read and output B takes none. -/
theorem demuxSwitches_iff :
    DemuxSwitches select s c ↔ OneToTwoStDemux.pendingDataA s c.status = true ∨
      ¬ (s.validOutA = true ∧ c.status.srcReadyA = false) ∧
      ¬ (s.validOutB = true ∧ c.status.srcReadyB = false) ∧
      ¬ (s.outputSelect = true ∧ c.status.snkValid = true) := by
  have hA := held_demux s c false
  have hB := held_demux s c true
  simp only [OneToTwoStDemux.srcValid, OneToTwoStDemux.srcReady, OneToTwoStDemux.pipelineEnable,
    Bool.false_eq_true, if_false, if_true] at hA hB
  rw [DemuxSwitches, demuxOutputSelect, switches_afterCall OneToTwoStDemux.State.outputSelect
    (fun _ _ _ => rfl) (call_demux select s c), hA, hB]
  cases hp : OneToTwoStDemux.pendingDataA s c.status with
  | true => simp
  | false =>
    have hen : OneToTwoStDemux.pipelineEnableA s c.status = false := by
      rw [OneToTwoStDemux.pendingDataA, Bool.or_eq_false_iff] at hp
      exact hp.2
    rw [hen]
    cases hvb : s.validOutB <;> cases hrb : c.status.srcReadyB <;>
      simp [OneToTwoStDemux.pipelineEnableB, OneToTwoStDemux.pipelineReadyB, hvb, hrb]

end Demux

/-- Of all calls, those of the mux are wrong in whose status read the sink stalls on a word.  Those
of the demux are wrong in which output A shows no pending data, while a word is stalled at an output
or taken for output B. -/
theorem path_switches_iff (w : ℕ) :
    (∀ select (s : TwoToOneStMux.State w) c,
      MuxSwitches select s c ↔ ¬ (s.validOut = true ∧ c.status.srcReady = false)) ∧
    ∀ select (s : OneToTwoStDemux.State w) c,
      DemuxSwitches select s c ↔ OneToTwoStDemux.pendingDataA s c.status = true ∨
        ¬ (s.validOutA = true ∧ c.status.srcReadyA = false) ∧
        ¬ (s.validOutB = true ∧ c.status.srcReadyB = false) ∧
        ¬ (s.outputSelect = true ∧ c.status.snkValid = true) :=
  ⟨muxSwitches_iff, demuxSwitches_iff⟩

/-- A word at input A, which the sink does not take. -/
def muxStall : TwoToOneStMux.Inputs 32 := ⟨Csr.none, 0xA#_, true, 0#_, false, false⟩

/-- A word for an output whose sink does not take it. -/
def demuxStall : OneToTwoStDemux.Inputs 32 := ⟨Csr.none, 0xB#_, true, false, false⟩

/-- The select register of the demux is set to output B. -/
def selectB : OneToTwoStDemux.Inputs 32 :=
  { demuxStall with csr := Csr.ofStore (iowr8Direct 0 1#_), snkValid := false }

/-- After one word, both cores hold it undelivered, and both functions return 0. -/
theorem not_switches_stalled :
    ((TwoToOneStMux.circuit 32).Reachable (run TwoToOneStMux.step TwoToOneStMux.reset [muxStall]) ∧
      ¬ MuxSwitches 1#8 (run TwoToOneStMux.step TwoToOneStMux.reset [muxStall])
        ⟨muxStall, [], muxStall⟩) ∧
    (OneToTwoStDemux.circuit 32).Reachable
        (run OneToTwoStDemux.step OneToTwoStDemux.reset [selectB, demuxStall]) ∧
      ¬ DemuxSwitches 0#8 (run OneToTwoStDemux.step OneToTwoStDemux.reset [selectB, demuxStall])
        ⟨demuxStall, [], demuxStall⟩ := by
  refine ⟨⟨Circuit.Reachable.run (.init rfl) _ ⟨rfl, trivial⟩, ?_⟩,
    Circuit.Reachable.run (.init rfl) _ ⟨?_, rfl, trivial⟩, ?_⟩
  · rw [muxSwitches_iff]
    decide
  · change selectB.csr.clearPipeline = false
    decide
  · rw [demuxSwitches_iff]
    decide

end AvalonCores.MemoryTester.PathSelection
