import Mathlib.Tactic
import AvalonCores.MemoryTester.CustomPatternDriver

/-! What the read functions of the custom pattern drivers return after a setter.  Those of the
pattern length and of the pattern position look at the control register. -/

namespace AvalonCores.MemoryTester

namespace CustomPattern

open Sync Program

/-- The setters of the generator, and of the checker with `stop`. -/
def Setting.Of (stop : Bool) : Setting → Prop
  | stopOnFailure _ => stop = true
  | _ => True

/-- The read functions of the generator, and of the checker with `stop`.  That of the failure bit
counts when `status` is set. -/
def Field.Of (stop status : Bool) : Field → Prop
  | stopOnFailure => stop = true
  | failureDetected => stop = true ∧ status = true
  | _ => True

section Meaning

variable {stop : Bool} {r : ℕ → Bool}

abbrev meaning {α : Type} (stop : Bool) (p : Driver α) (r : ℕ → Bool) : α × (ℕ → Bool) :=
  p.eval (registerBits (writable stop)) r

/-- The first of the bits that a read function returns.  Those of the pattern are bits of the
control register. -/
def Field.readFirst : Field → ℕ
  | payloadLength => 0
  | patternLength | infinitePayloadLength => 64
  | patternPosition => 80
  | stopOnFailure => 72
  | start => 88
  | failureDetected => 96

/-- The number of bits that a read function returns. -/
def Field.bits : Field → ℕ
  | payloadLength => 32
  | patternLength | patternPosition => 16
  | infinitePayloadLength | stopOnFailure | start | failureDetected => 1

/-- The two drivers read at the same offsets. -/
theorem Field.read_eq (f : Field) : f.read stop = f.read false := by
  cases stop <;> cases f <;> rfl

/-- A read function returns bits of the registers. -/
theorem Field.getLsbD_read (f : Field) {k : ℕ} (hk : k < f.width) :
    (meaning stop (f.read stop) r).1.getLsbD k =
      (decide (k < f.bits) && r (f.readFirst + k)) := by
  have hk32 : k < 32 := hk.trans_le (by cases f <;> decide)
  rw [f.read_eq]
  cases f
  case payloadLength => exact @getLsbD_load (writable stop) r _ k hk
  all_goals
    refine (BitVec.getLsbD_setWidth ..).trans ?_
    rw [decide_eq_true hk, Bool.true_and]
  case patternLength | patternPosition =>
    exact @getLsbD_load_and (writable stop) r _ 16 (by decide) k hk32
  all_goals exact @getLsbD_load_and (writable stop) r _ 1 (by decide) k hk32

theorem Field.read_keeps (f : Field) : (meaning stop (f.read stop) r).2 = r := by
  rw [f.read_eq]
  cases f <;> rfl

/-- The first of the bits that the setter of a field writes. -/
def Setting.first : Setting → ℕ
  | payloadLength _ => 0
  | patternLength _ => 32
  | patternPosition _ => 48
  | infinitePayloadLength _ => 64
  | stopOnFailure _ => 72

/-- The number of bits that the setter of a field writes. -/
def Setting.size : Setting → ℕ
  | payloadLength _ => 32
  | patternLength _ | patternPosition _ => 16
  | infinitePayloadLength _ | stopOnFailure _ => 8

/-- The store of a setter. -/
def Setting.store : Setting → DirectStore
  | payloadLength v => iowr32Direct 0 v
  | patternLength v => iowr16Direct 4 v
  | patternPosition v => iowr16Direct 6 v
  | infinitePayloadLength e => iowr8Direct 8 ((BitVec.ofBool e).setWidth 8)
  | stopOnFailure e => iowr8Direct 9 ((BitVec.ofBool e).setWidth 8)

theorem Setting.set_eq (x : Setting) : x.set stop = write x.store := by
  cases stop <;> cases x
  case false.infinitePayloadLength e | false.stopOnFailure e | true.infinitePayloadLength e |
      true.stopOnFailure e => cases e <;> rfl
  all_goals rfl

/-- A setter writes its value. -/
theorem Setting.set_holds {x : Setting} (hx : x.Of stop) {k : ℕ} (hk : k < x.size) :
    (meaning stop (x.set stop) r).2 (x.first + k) = x.value.getLsbD k := by
  rw [meaning, x.set_eq, eval_write]
  cases x <;> simp only [size] at hk
  case payloadLength v =>
    simp only [store, store32_apply, first, writable, value]
    rw [if_pos (by omega)]
    simp [show k ≤ 64 by omega]
  case patternLength v =>
    simp only [store, store16_apply, first, writable, value]
    rw [if_pos (by omega)]
    simp [show 32 + k ≤ 64 by omega]
  case patternPosition v =>
    simp only [store, store16_apply, first, writable, value]
    rw [if_pos (by omega)]
    simp [show 48 + k ≤ 64 by omega]
  case infinitePayloadLength e =>
    simp only [store, store8_apply, first, writable, value, BitVec.getLsbD_setWidth,
      BitVec.getLsbD_ofBool]
    rw [if_pos (by omega)]
    by_cases hbit : k = 0
    · simp [hbit]
    · simp [hbit]
  case stopOnFailure e =>
    simp only [store, store8_apply, first, writable, value, BitVec.getLsbD_setWidth,
      BitVec.getLsbD_ofBool]
    rw [if_pos (by omega), show stop = true from hx]
    by_cases hbit : k = 0
    · simp [hbit]
    · simp [hbit]

/-- A setter writes no other bits. -/
theorem Setting.set_frame (x : Setting) {k : ℕ} (hk : k < x.first ∨ x.first + x.size ≤ k) :
    (meaning stop (x.set stop) r).2 k = r k := by
  rw [meaning, x.set_eq, eval_write]
  refine store_of_not_writes ?_
  cases x <;>
    simp only [first, size, DirectStore.Writes, store, iowr32Direct, iowr16Direct,
      iowr8Direct] at hk ⊢ <;>
    omega

/-- The low half of the control register. -/
def control (stopOnFailure infinite : Bool) : BitVec 16 :=
  0#7 ++ BitVec.ofBool stopOnFailure ++ 0#7 ++ BitVec.ofBool infinite

theorem getLsbD_controlLow (stopOnFailure infinite : Bool) (k : ℕ) :
    (control stopOnFailure infinite).getLsbD k =
      (decide (k = 0) && infinite || decide (k = 8) && stopOnFailure) := by
  simp only [control, BitVec.getLsbD_append, BitVec.getLsbD_ofBool, BitVec.getLsbD_zero]
  split_ifs <;> grind

/-- `readPatternLength` returns the low half of the control register. -/
theorem readPatternLength_eq {stopOnFailure infinite : Bool}
    (h : ∀ k < 16, r (64 + k) = (control stopOnFailure infinite).getLsbD k) :
    (meaning stop (Field.patternLength.read stop) r).1 =
      control stopOnFailure infinite := by
  apply BitVec.eq_of_getLsbD_eq
  intro k hk
  rw [Field.getLsbD_read _ hk, ← h k hk, show decide (k < Field.patternLength.bits) = true from
    decide_eq_true hk, Bool.true_and, Field.readFirst]

/-- A read function does not see a setter that writes other bits than it reads. -/
theorem Setting.read_set_disjoint (x : Setting) {f : Field}
    (h : f.readFirst + f.bits ≤ x.first ∨ x.first + x.size ≤ f.readFirst) :
    (meaning stop (f.read stop) (meaning stop (x.set stop) r).2).1 =
      (meaning stop (f.read stop) r).1 := by
  apply BitVec.eq_of_getLsbD_eq
  intro k hk
  rw [Field.getLsbD_read _ hk, Field.getLsbD_read _ hk]
  by_cases hbits : k < f.bits
  · rw [x.set_frame (by omega)]
  · rw [decide_eq_false hbits, Bool.false_and, Bool.false_and]

/-- A read function that reads what a setter writes returns its value. -/
theorem Setting.read_set_same {x : Setting} (hx : x.Of stop) (hfirst : x.field.readFirst = x.first)
    (hbits : x.field.bits ≤ x.size) (hvalue : ∀ k, x.field.bits ≤ k → x.value.getLsbD k = false) :
    (meaning stop (x.field.read stop) (meaning stop (x.set stop) r).2).1 =
      x.value := by
  apply BitVec.eq_of_getLsbD_eq
  intro k hk
  rw [Field.getLsbD_read _ hk, hfirst]
  by_cases hlt : k < x.field.bits
  · rw [x.set_holds hx (by omega), decide_eq_true hlt, Bool.true_and]
  · rw [decide_eq_false hlt, Bool.false_and, hvalue k (by omega)]

variable {w : Words}

theorem wordBits_control (hw : w.start = false) {k : ℕ} (hk : k < 32) :
    wordBits w.word (64 + k) = (control w.stopOnFailure w.infinitePayloadLength).getLsbD k := by
  rw [wordBits, show (64 + k) / 32 = 2 by omega, show (64 + k) % 32 = k by omega, Words.word,
    getLsbD_control, getLsbD_controlLow, hw]
  simp

/-- The values for which the read functions of the pattern, which look at the control register,
are right. -/
def Setting.Agrees (w : Words) : Setting → Prop
  | payloadLength _ => True
  | patternLength v => v = control w.stopOnFailure w.infinitePayloadLength
  | patternPosition v => v = 0#16
  | infinitePayloadLength enable => enable = w.infinitePayloadLength
  | stopOnFailure enable => enable = w.stopOnFailure

/-- The read functions of a setter return its value, but for those of the pattern. -/
theorem Setting.read_set {x : Setting} (hx : x.Of stop) (hw : w.start = false) :
    (meaning stop (x.field.read stop)
      (meaning stop (x.set stop) (wordBits w.word)).2).1 = x.value ↔
      (x.field = .patternLength ∨ x.field = .patternPosition → x.Agrees w) := by
  have hflag (e : Bool) {k : ℕ} (hk : 1 ≤ k) :
      ((BitVec.ofBool e).setWidth 8).getLsbD k = false := by
    rw [BitVec.getLsbD_setWidth, BitVec.getLsbD_of_ge _ k hk, Bool.and_false]
  cases x with
  | payloadLength v =>
    refine iff_of_true (read_set_same hx rfl le_rfl fun k hk => ?_) (by simp)
    exact BitVec.getLsbD_of_ge v k hk
  | patternLength v =>
    rw [read_set_disjoint _ (by simp only [Field.readFirst, first, size]; omega),
      readPatternLength_eq fun k hk => wordBits_control hw (by omega)]
    exact ⟨fun h _ => h.symm, fun h => (h (.inl rfl)).symm⟩
  | patternPosition v =>
    have hzero : (meaning stop (Field.patternPosition.read stop) (wordBits w.word)).1 =
        0#16 := by
      apply BitVec.eq_of_getLsbD_eq
      intro k (hk : k < 16)
      have hbit := wordBits_control hw (by omega : 16 + k < 32)
      rw [← Nat.add_assoc] at hbit
      rw [Field.getLsbD_read _ hk, Field.readFirst, hbit, BitVec.getLsbD_of_ge _ _ (by omega),
        Bool.and_false, BitVec.getLsbD_zero]
    rw [read_set_disjoint _ (by simp only [Field.readFirst, first, size]; omega), hzero]
    exact ⟨fun h _ => h.symm, fun h => (h (.inr rfl)).symm⟩
  | infinitePayloadLength e =>
    refine iff_of_true (read_set_same hx rfl (by simp only [Field.bits, size]; omega) ?_) (by simp)
    exact fun k hk => hflag e hk
  | stopOnFailure e =>
    refine iff_of_true (read_set_same hx rfl (by simp only [Field.bits, size]; omega) ?_) (by simp)
    exact fun k hk => hflag e hk

theorem control_inj {a b c d : Bool} (h : control a b = control c d) : a = c ∧ b = d := by
  revert a b c d
  decide

/-- The low half of the control register after a setter. -/
def Setting.controlAfter (w : Words) : Setting → BitVec 16
  | infinitePayloadLength e => control w.stopOnFailure e
  | stopOnFailure e => control e w.infinitePayloadLength
  | _ => control w.stopOnFailure w.infinitePayloadLength

theorem Setting.readPatternLength_set {x : Setting} (hx : x.Of stop) (hw : w.start = false) :
    (meaning stop (Field.patternLength.read stop)
      (meaning stop (x.set stop) (wordBits w.word)).2).1 = x.controlAfter w := by
  have hold := @readPatternLength_eq stop _ _ _ fun k hk => wordBits_control hw (by omega : k < 32)
  cases x with
  | payloadLength v | patternLength v | patternPosition v =>
    rw [read_set_disjoint _ (by simp only [Field.readFirst, first, size]; omega)]
    exact hold
  | infinitePayloadLength e =>
    refine readPatternLength_eq fun k hk => ?_
    by_cases hlow : k < 8
    · refine (set_holds hx (k := k) hlow).trans ?_
      simp only [value, BitVec.getLsbD_setWidth, BitVec.getLsbD_ofBool, getLsbD_controlLow]
      grind
    · rw [set_frame _ (by simp only [first, size]; omega), wordBits_control hw (by omega),
        getLsbD_controlLow, getLsbD_controlLow]
      grind
  | stopOnFailure e =>
    refine readPatternLength_eq fun k hk => ?_
    by_cases hlow : k < 8
    · rw [set_frame _ (by simp only [first, size]; omega), wordBits_control hw (by omega),
        getLsbD_controlLow, getLsbD_controlLow]
      grind
    · have := set_holds (r := wordBits w.word) hx (k := k - 8) (by simp only [size]; omega)
      rw [show first (stopOnFailure e) + (k - 8) = 64 + k by simp only [first]; omega] at this
      rw [this]
      simp only [value, BitVec.getLsbD_setWidth, BitVec.getLsbD_ofBool, getLsbD_controlLow]
      grind

/-- The read function of the pattern length sees the setters of the control bits. -/
theorem Setting.readPatternLength_set_other {x : Setting} (hx : x.Of stop) (hw : w.start = false)
    (hf : Field.patternLength ≠ x.field) :
    (meaning stop (Field.patternLength.read stop)
      (meaning stop (x.set stop) (wordBits w.word)).2).1 =
        (meaning stop (Field.patternLength.read stop) (wordBits w.word)).1 ↔
      (x.field = .infinitePayloadLength ∨ x.field = .stopOnFailure → x.Agrees w) := by
  have hold := @readPatternLength_eq stop _ _ _ fun k hk => wordBits_control hw (by omega : k < 32)
  rw [readPatternLength_set hx hw, hold]
  cases x with
  | payloadLength v | patternPosition v => simp [controlAfter]
  | patternLength v => exact absurd rfl hf
  | infinitePayloadLength e =>
    exact ⟨fun h _ => (control_inj h).2, fun h => congrArg (control _) (h (.inl rfl))⟩
  | stopOnFailure e =>
    exact ⟨fun h _ => (control_inj h).1, fun h => congrArg (control · _) (h (.inr rfl))⟩

/-- The other read functions see no setter but their own. -/
theorem Setting.read_set_other {x : Setting} {f : Field} (hf : f ≠ x.field)
    (hlength : f ≠ .patternLength) :
    (meaning stop (f.read stop) (meaning stop (x.set stop) r).2).1 =
      (meaning stop (f.read stop) r).1 := by
  refine x.read_set_disjoint ?_
  cases x <;> cases f <;> simp only [Field.readFirst, Field.bits, first, size] <;>
    first | omega | contradiction

theorem Setting.uses_set {okL : DirectLoad → Prop} (x : Setting) :
    (x.set stop).Uses StoreOk okL := by
  rw [x.set_eq, uses_write]
  cases x <;> refine ⟨⟨?_, Nat.zero_le _, ?_⟩, ?_⟩ <;>
    simp [DirectStore.Aligned, DirectStore.Writes, store, iowr32Direct, iowr16Direct, iowr8Direct]

theorem Field.uses_read {okS : DirectStore → Prop} {status : Bool} {f : Field}
    (hf : f.Of stop status) :
    (f.read stop).Uses okS (·.Within 0 (if status then 16 else 12)) := by
  rw [f.read_eq]
  cases f
  case failureDetected =>
    refine ⟨⟨?_, Nat.zero_le _, ?_⟩, fun _ => trivial⟩
    · exact (by decide : 12 % 4 + 1 ≤ 4)
    · rw [hf.2]
      exact (by decide : 12 < 16)
  all_goals
    refine ⟨⟨?_, Nat.zero_le _, lt_of_lt_of_le (b := 12) ?_ ?_⟩, fun _ => trivial⟩
    · simp [DirectLoad.Aligned, iord32Direct, iord16Direct, iord8Direct, generatorRegs,
        checkerRegs, checkerStopOnFailByteOffset]
    · simp [iord32Direct, iord16Direct, iord8Direct, generatorRegs, checkerRegs,
        checkerStopOnFailByteOffset]
    · split <;> decide

end Meaning

/-- After a setter of the generator, or of the checker with `stop`, its read function returns its
value, and the other ones what they returned before. -/
structure RoundTrips {σ ι : Type} (P : Port DirectStore DirectLoad (BitVec 32) σ ι)
    (stop status : Bool) (s : σ) (x : Setting) : Prop where
  returns : P.Returns s (x.set stop) (x.field.read stop) x.value
  preserves : ∀ f : Field, f.Of stop status → f ≠ x.field →
    P.Preserves s (x.set stop) (f.read stop)

theorem roundTrips_of_behaves {σ ι : Type} [Nonempty ι] {step : σ → ι → σ}
    {withCsr : Csr → ι → ι} {readback : σ → BitVec 32} {words : σ → Words} {inv : σ → Prop}
    {stop status : Bool}
    (h : Behaves step withCsr readback words inv stop (if status then 16 else 12)) {s : σ}
    (hs : inv s) (hstart : (words s).start = false) {x : Setting} (hx : x.Of stop) :
    RoundTrips (csrPort step withCsr readback) stop status s x ↔
      x.Agrees (words s) := by
  have himpl := implements_registerBits h
  have hfield : x.field.Of stop status := by cases x <;> trivial
  have huses : (x.set stop).Uses StoreOk (·.Within 0 (if status then 16 else 12)) := x.uses_set
  have hreturns := (himpl.returns_eval_iff (v := x.value) hs huses (Field.uses_read hfield)).trans
    (x.read_set hx hstart)
  have hpreserves (f : Field) (hf : f.Of stop status) :=
    himpl.preserves_iff hs huses (Field.uses_read hf) fun _ => f.read_keeps
  constructor
  · intro hround
    have hagrees := hreturns.1 hround.returns
    cases x with
    | payloadLength v => trivial
    | patternLength v => exact hagrees (.inl rfl)
    | patternPosition v => exact hagrees (.inr rfl)
    | infinitePayloadLength e =>
      have hlength := (hpreserves .patternLength trivial).1
        (hround.preserves .patternLength trivial (by simp))
      exact (Setting.readPatternLength_set_other hx hstart (by simp)).1 hlength (.inl rfl)
    | stopOnFailure e =>
      have hlength := (hpreserves .patternLength trivial).1
        (hround.preserves .patternLength trivial (by simp))
      exact (Setting.readPatternLength_set_other hx hstart (by simp)).1 hlength (.inr rfl)
  · intro hagrees
    refine ⟨hreturns.2 fun _ => hagrees, fun f hf hne => (hpreserves f hf).2 ?_⟩
    by_cases hlength : f = .patternLength
    · subst hlength
      exact (Setting.readPatternLength_set_other hx hstart hne).2 fun _ => hagrees
    · exact Setting.read_set_other hne hlength

end CustomPattern

section Cores

open Sync CustomPattern

variable {a m : ℕ}

def CustomPatternGenerator.port (a m : ℕ) :
    Port DirectStore DirectLoad (BitVec 32) (State a m) (Inputs m) :=
  csrPort step withCsr (·.readbackMuxD1)

def CustomPatternChecker.port (a m : ℕ) :
    Port DirectStore DirectLoad (BitVec 32) (State a m) (Inputs m) :=
  csrPort step withCsr (·.readbackMuxD1)

instance : Nonempty (CustomPatternGenerator.Inputs m) := ⟨⟨Csr.none, false, 0#_⟩⟩

instance : Nonempty (CustomPatternChecker.Inputs m) := ⟨⟨Csr.none, 0#_, false, 0#_⟩⟩

theorem CustomPatternGenerator.roundTrips {s : State a m} (hs : s.start = false) {x : Setting}
    (hx : x.Of false) :
    RoundTrips (port a m) false false s x ↔ x.Agrees (words s) := by
  have hsize : Behaves (step (a := a) (m := m)) withCsr (·.readbackMuxD1) words (·.start = false)
      false (if false then 16 else 12) := behaves
  exact roundTrips_of_behaves hsize hs hs hx

theorem CustomPatternChecker.roundTrips {s : State a m} (hs : s.start = false) {status : Bool}
    (hstatus : status = true → Settled s) (x : Setting) :
    RoundTrips (port a m) true status s x ↔ x.Agrees (words status s) :=
  roundTrips_of_behaves (behaves status) ⟨hs, hstatus⟩ hs (by cases x <;> trivial)

/-- The drivers of the stopped cores round-trip exactly for the values for which the control
register, which the read functions of the pattern look at, shows them. -/
theorem drivers_roundTrip_iff :
    (∀ (s : CustomPatternGenerator.State a m) (x : Setting), s.start = false → x.Of false →
      (RoundTrips (CustomPatternGenerator.port a m) false false s x ↔
        x.Agrees (CustomPatternGenerator.words s))) ∧
      ∀ (s : CustomPatternChecker.State a m) (status : Bool) (x : Setting), s.start = false →
        (status = true → CustomPatternChecker.Settled s) →
        (RoundTrips (CustomPatternChecker.port a m) true status s x ↔
          x.Agrees (CustomPatternChecker.words status s)) :=
  ⟨fun _ _ hs hx => CustomPatternGenerator.roundTrips hs hx,
    fun _ _ x hs hstatus => CustomPatternChecker.roundTrips hs hstatus x⟩

/-- A payload length comes back. -/
theorem drivers_roundTrip_payloadLength :
    RoundTrips (CustomPatternGenerator.port 8 4) false false
        CustomPatternGenerator.reset (.payloadLength 4096#32) ∧
      RoundTrips (CustomPatternChecker.port 8 4) true true
        CustomPatternChecker.reset (.payloadLength 4096#32) := by
  have hx : (Setting.payloadLength 4096#32).Of false := trivial
  obtain ⟨hgenerator, hchecker⟩ := @drivers_roundTrip_iff 8 4
  exact ⟨(hgenerator _ _ rfl hx).2 trivial,
    (hchecker _ true _ rfl fun _ => ⟨rfl, rfl, rfl, rfl⟩).2 trivial⟩

/-- The pattern length of a low frequency test reads as 0. -/
theorem not_drivers_roundTrip_patternLength :
    ¬ RoundTrips (CustomPatternGenerator.port 8 4) false false
        CustomPatternGenerator.reset (.patternLength 2#16) ∧
      ¬ RoundTrips (CustomPatternChecker.port 8 4) true true
        CustomPatternChecker.reset (.patternLength 2#16) := by
  have hzero : 2#16 ≠ control false false := by decide
  have hx : (Setting.patternLength 2#16).Of false := trivial
  refine ⟨fun h => hzero ?_, fun h => hzero ?_⟩
  · exact (CustomPatternGenerator.roundTrips rfl hx).1 h
  · exact (CustomPatternChecker.roundTrips rfl (fun _ => ⟨rfl, rfl, rfl, rfl⟩) _).1 h

end Cores

end AvalonCores.MemoryTester
