import Mathlib.Tactic
import AvalonCores.Sync.Execution

/-! The example slave `avalon_slave`, two registers at 0x4 and 0x8.  `Latest` says which byte of the
writes of a run a byte lane of a register should hold, and `step_lane` which one it takes. -/

namespace AvalonCores.AvalonMm.Slave

open Sync

/-- The registers, and what the latch of `READDATA` held at the end of the last cycle. -/
structure State where
  reg1 : BitVec 32
  reg2 : BitVec 32
  waitrequestRead : Bool
  waitrequestWrite : Bool
  latched : BitVec 32
deriving DecidableEq, Repr

structure Inputs where
  reset : Bool
  address : BitVec 32
  byteEnable : BitVec 4
  read : Bool
  write : Bool
  writedata : BitVec 32
deriving DecidableEq, Repr

/-- The register `x` after `x[hi:lo] <= y[hi:lo]`. -/
def assign (hi lo : ℕ) (y x : BitVec 32) : BitVec 32 :=
  let mask := BitVec.ofNat 32 (2 ^ (hi + 1 - lo) - 1) <<< lo
  (x &&& ~~~mask) ||| (y &&& mask)

variable (s : State) (i : Inputs)

def waitrequest : Bool := s.waitrequestRead || s.waitrequestWrite

/-- `reg1` after a write to it: the case statement lists some of the patterns of `BYTE_ENABLE`. -/
def writeReg1 (byteEnable : BitVec 4) (writedata reg1 : BitVec 32) : BitVec 32 :=
  match byteEnable.toNat with
  | 0b1111 => assign 31 0 writedata reg1
  | 0b1100 => assign 31 16 writedata reg1
  | 0b0011 => assign 15 0 writedata reg1
  | 0b1000 => assign 31 24 writedata reg1
  | 0b0100 => assign 23 16 writedata reg1
  | 0b0010 => assign 15 8 writedata reg1
  | 0b0001 => assign 7 0 writedata reg1
  | _ => reg1

/-- `reg2` after a write to it: each byte lane has a multiplexer. -/
def writeReg2 (byteEnable : BitVec 4) (writedata reg2 : BitVec 32) : BitVec 32 :=
  let mux (n : ℕ) := if byteEnable.getLsbD n then writedata else reg2
  assign 31 24 (mux 3) <| assign 23 16 (mux 2) <| assign 15 8 (mux 1) <| assign 7 0 (mux 0) reg2

def readdatavalid : Bool := !i.reset && !waitrequest s && i.read

/-- A read of another address leaves the latch as it is. -/
def readdata : BitVec 32 :=
  if i.reset then 0#_
  else if !waitrequest s && i.read then
    match i.address.toNat with
    | 0x4 => s.reg1
    | 0x8 => s.reg2
    | _ => s.latched
  else 0#_

def step : State where
  reg1 :=
    if i.reset then 0#_
    else if !waitrequest s && i.write && i.address == 0x4#_ then
      writeReg1 i.byteEnable i.writedata s.reg1
    else s.reg1
  reg2 :=
    if i.reset then 0#_
    else if !waitrequest s && i.write && i.address == 0x8#_ then
      writeReg2 i.byteEnable i.writedata s.reg2
    else s.reg2
  waitrequestRead := false
  waitrequestWrite := false
  latched := readdata s i

/-- The slave from its reset on, without another one. -/
def circuit : Circuit State Inputs where
  init s := ∃ t i, i.reset = true ∧ s = step t i
  admits _ i := i.reset = false
  step := step

/-- Byte lane `l` of a word. -/
def lane (l : Fin 4) (x : BitVec 32) : BitVec 8 := x.extractLsb' (8 * l) 8

theorem getLsbD_assign {hi lo : ℕ} (y x : BitVec 32) {j : ℕ} (hj : j < 32) :
    (assign hi lo y x).getLsbD j = if lo ≤ j ∧ j ≤ hi then y.getLsbD j else x.getLsbD j := by
  have hmask : (BitVec.ofNat 32 (2 ^ (hi + 1 - lo) - 1) <<< lo).getLsbD j =
      decide (lo ≤ j ∧ j ≤ hi) := by
    rw [BitVec.getLsbD_shiftLeft, BitVec.getLsbD_ofNat, Nat.testBit_two_pow_sub_one,
      Bool.eq_iff_iff]
    simp
    omega
  rw [assign, BitVec.getLsbD_or, BitVec.getLsbD_and, BitVec.getLsbD_and, BitVec.getLsbD_not, hmask]
  by_cases h : lo ≤ j ∧ j ≤ hi <;> simp [h, hj]

/-- An assignment of whole bytes takes or leaves each lane. -/
theorem lane_assign {hi lo : ℕ} (hlo : lo % 8 = 0) (hhi : (hi + 1) % 8 = 0) (y x : BitVec 32)
    (l : Fin 4) :
    lane l (assign hi lo y x) = if lo ≤ 8 * l.val ∧ 8 * l.val ≤ hi then lane l y else lane l x := by
  have hl := l.isLt
  apply BitVec.eq_of_getLsbD_eq
  intro j hj
  have hcover : lo ≤ 8 * l.val + j ∧ 8 * l.val + j ≤ hi ↔ lo ≤ 8 * l.val ∧ 8 * l.val ≤ hi := by
    omega
  rw [lane, BitVec.getLsbD_extractLsb', getLsbD_assign y x (by omega), if_congr hcover rfl rfl]
  split <;> simp [lane, hj]

/-- The case statement of `reg1` has a branch for the pattern, or the pattern enables no lane. -/
def listed (byteEnable : BitVec 4) : Bool :=
  byteEnable ∈ [0b1111#4, 0b1100#4, 0b0011#4, 0b1000#4, 0b0100#4, 0b0010#4, 0b0001#4, 0b0000#4]

theorem lane_writeReg1 (be : BitVec 4) (d r : BitVec 32) (l : Fin 4) :
    lane l (writeReg1 be d r) = if listed be && be.getLsbD l then lane l d else lane l r := by
  obtain ⟨n, hn⟩ : ∃ n, be.toNat = n := ⟨_, rfl⟩
  have hbe : be = BitVec.ofNat 4 n := by simp [← hn]
  have hlt : n < 16 := hn ▸ be.isLt
  subst hbe
  interval_cases n <;> fin_cases l <;> simp [writeReg1, listed, lane_assign]

theorem lane_writeReg2 (be : BitVec 4) (d r : BitVec 32) (l : Fin 4) :
    lane l (writeReg2 be d r) = if be.getLsbD l then lane l d else lane l r := by
  fin_cases l <;> simp [writeReg2, lane_assign] <;> split <;> rfl

/-- The write of a cycle covers byte lane `l` of the register at `a`. -/
def covers (i : Inputs) (a : BitVec 32) (l : Fin 4) : Bool :=
  i.write && i.address == a && i.byteEnable.getLsbD l

section Step

variable {s : State} {i : Inputs}

theorem lane_reg1_step (hs : waitrequest s = false) (hi : i.reset = false) (l : Fin 4) :
    lane l (step s i).reg1 =
      if listed i.byteEnable && covers i 0x4#_ l then lane l i.writedata else lane l s.reg1 := by
  cases hw : i.write && i.address == 0x4#_
  · simp [step, hs, hi, hw, covers]
  · simp [step, hs, hi, hw, covers, lane_writeReg1]

theorem lane_reg2_step (hs : waitrequest s = false) (hi : i.reset = false) (l : Fin 4) :
    lane l (step s i).reg2 =
      if covers i 0x8#_ l then lane l i.writedata else lane l s.reg2 := by
  cases hw : i.write && i.address == 0x8#_
  · simp [step, hs, hi, hw, covers]
  · simp [step, hs, hi, hw, covers, lane_writeReg2]

end Step

/-- `v` is the byte that the latest write before cycle `n` has put into lane `l` of the register at
`a`, or 0 when no write has covered the lane. -/
def Latest (i : ℕ → Inputs) (a : BitVec 32) (l : Fin 4) (n : ℕ) (v : BitVec 8) : Prop :=
  (∃ k < n, covers (i k) a l = true ∧ v = lane l (i k).writedata ∧
    ∀ j, k < j → j < n → covers (i j) a l = false) ∨
  (∀ k < n, covers (i k) a l = false) ∧ v = 0#_

section Latest

variable {i : ℕ → Inputs} {a : BitVec 32} {l : Fin 4} {n : ℕ} {v w : BitVec 8}

theorem latest_zero : Latest i a l 0 v ↔ v = 0#_ := by simp [Latest]

theorem latest_of_covers (h : covers (i n) a l = true) :
    Latest i a l (n + 1) v ↔ v = lane l (i n).writedata := by
  constructor
  · rintro (⟨k, hk, hcovers, hv, hlater⟩ | ⟨hnone, -⟩)
    · rcases Nat.lt_succ_iff_lt_or_eq.mp hk with hlt | rfl
      · have := hlater n hlt (Nat.lt_succ_self n)
        rw [h] at this
        contradiction
      · exact hv
    · have := hnone n (Nat.lt_succ_self n)
      rw [h] at this
      contradiction
  · intro hv
    exact .inl ⟨n, Nat.lt_succ_self n, h, hv, fun j hj hjn => by omega⟩

theorem latest_of_not_covers (h : covers (i n) a l = false) :
    Latest i a l (n + 1) v ↔ Latest i a l n v := by
  unfold Latest
  constructor
  · rintro (⟨k, hk, hcovers, hv, hlater⟩ | ⟨hnone, hv⟩)
    · have hne : k ≠ n := by
        rintro rfl
        rw [h] at hcovers
        contradiction
      exact .inl ⟨k, by omega, hcovers, hv, fun j hj hjn => hlater j hj (by omega)⟩
    · exact .inr ⟨fun k hk => hnone k (by omega), hv⟩
  · rintro (⟨k, hk, hcovers, hv, hlater⟩ | ⟨hnone, hv⟩)
    · refine .inl ⟨k, by omega, hcovers, hv, fun j hj hjn => ?_⟩
      rcases Nat.lt_succ_iff_lt_or_eq.mp hjn with hlt | rfl
      · exact hlater j hj hlt
      · exact h
    · refine .inr ⟨fun k hk => ?_, hv⟩
      rcases Nat.lt_succ_iff_lt_or_eq.mp hk with hlt | rfl
      · exact hnone k hlt
      · exact h

theorem Latest.unique (hv : Latest i a l n v) (hw : Latest i a l n w) : v = w := by
  induction n with
  | zero => rw [latest_zero.mp hv, latest_zero.mp hw]
  | succ n ih =>
    cases h : covers (i n) a l with
    | false => exact ih ((latest_of_not_covers h).mp hv) ((latest_of_not_covers h).mp hw)
    | true => rw [(latest_of_covers h).mp hv, (latest_of_covers h).mp hw]

end Latest

/-- A read of either register, whatever the cycle in which the bus makes it, returns the latest
byte in each lane, and no write changes the other register.  `reads` is about every read that the
bus could make in a cycle, not only about the one that it makes there. -/
structure ByteAddressable (st : ℕ → State) (i : ℕ → Inputs) : Prop where
  reads : ∀ n (r : Inputs), r.reset = false → r.read = true →
    r.address = 0x4#_ ∨ r.address = 0x8#_ → ∀ l, Latest i r.address l n (lane l (readdata (st n) r))
  separate : ∀ n, (i n).write = true →
    ((i n).address = 0x4#_ → (st (n + 1)).reg2 = (st n).reg2) ∧
      ((i n).address = 0x8#_ → (st (n + 1)).reg1 = (st n).reg1)

/-- A write to 0x4 with a pattern that the case statement does not list repeats the bytes that are
there already. -/
def Repeats (i : ℕ → Inputs) : Prop :=
  ∀ n, (i n).write = true → (i n).address = 0x4#_ → listed (i n).byteEnable = false →
    ∀ l : Fin 4, (i n).byteEnable.getLsbD l = true → Latest i 0x4#_ l n (lane l (i n).writedata)

section Execution

variable {st : ℕ → State} {i : ℕ → Inputs}

theorem waitrequest_eq_false (he : circuit.Execution st i) (n : ℕ) :
    waitrequest (st n) = false := by
  cases n with
  | zero =>
    obtain ⟨t, j, -, hst⟩ := he.init
    rw [hst]
    rfl
  | succ n =>
    rw [he.step]
    rfl

theorem readdata_of_read (he : circuit.Execution st i) (n : ℕ) {r : Inputs} (hr : r.reset = false)
    (hread : r.read = true) :
    (r.address = 0x4#_ → readdata (st n) r = (st n).reg1) ∧
      (r.address = 0x8#_ → readdata (st n) r = (st n).reg2) := by
  constructor <;> intro ha <;> simp [readdata, hr, hread, ha, waitrequest_eq_false he n]

/-- `reg2` merges the writes to it. -/
theorem latest_reg2 (he : circuit.Execution st i) (l : Fin 4) (n : ℕ) :
    Latest i 0x8#_ l n (lane l (st n).reg2) := by
  induction n with
  | zero =>
    obtain ⟨t, j, hj, hst⟩ := he.init
    rw [latest_zero, hst]
    simp [step, hj, lane]
  | succ n ih =>
    rw [he.step, circuit, lane_reg2_step (waitrequest_eq_false he n) (he.admits n)]
    cases h : covers (i n) 0x8#_ l with
    | false => simpa [latest_of_not_covers h] using ih
    | true => simp [latest_of_covers h]

/-- As long as the unlisted patterns only repeat what is there, `reg1` merges the writes to it. -/
theorem latest_reg1 (he : circuit.Execution st i) (hrepeats : Repeats i) (l : Fin 4) (n : ℕ) :
    Latest i 0x4#_ l n (lane l (st n).reg1) := by
  induction n with
  | zero =>
    obtain ⟨t, j, hj, hst⟩ := he.init
    rw [latest_zero, hst]
    simp [step, hj, lane]
  | succ n ih =>
    rw [he.step, circuit, lane_reg1_step (waitrequest_eq_false he n) (he.admits n)]
    cases h : covers (i n) 0x4#_ l with
    | false => simpa [latest_of_not_covers h] using ih
    | true =>
      rw [latest_of_covers h]
      cases hlisted : listed (i n).byteEnable with
      | true => simp
      | false =>
        obtain ⟨⟨hwrite, haddress⟩, hlane⟩ : ((i n).write = true ∧ (i n).address = 0x4#_) ∧
            (i n).byteEnable.getLsbD l = true := by simpa [covers] using h
        -- The write is lost, but the byte is that of an earlier one.
        exact ih.unique (hrepeats n hwrite haddress hlisted l hlane)

theorem separate (he : circuit.Execution st i) (n : ℕ) :
    ((i n).address = 0x4#_ → (st (n + 1)).reg2 = (st n).reg2) ∧
      ((i n).address = 0x8#_ → (st (n + 1)).reg1 = (st n).reg1) := by
  have hreset : (i n).reset = false := he.admits n
  constructor <;> intro ha <;> simp [he.step, circuit, step, hreset, ha]

theorem Repeats.byteAddressable (he : circuit.Execution st i) (h : Repeats i) :
    ByteAddressable st i where
  reads n r hr hread ha l := by
    obtain ⟨h4, h8⟩ := readdata_of_read he n hr hread
    rcases ha with ha | ha
    · rw [h4 ha, ha]
      exact latest_reg1 he h l n
    · rw [h8 ha, ha]
      exact latest_reg2 he l n
  separate n _ := separate he n

/-- What a read of 0x4 returns after an unlisted pattern is what it returned before. -/
theorem ByteAddressable.repeats (he : circuit.Execution st i) (h : ByteAddressable st i) :
    Repeats i := by
  have hreg1 (l : Fin 4) (n : ℕ) : Latest i 0x4#_ l n (lane l (st n).reg1) := by
    have := h.reads n ⟨false, 0x4#_, 0xF#_, true, false, 0#_⟩ rfl rfl (.inl rfl) l
    rwa [(readdata_of_read he n rfl rfl).1 rfl] at this
  intro n hwrite haddress hlisted l hlane
  have hcovers : covers (i n) 0x4#_ l = true := by simp [covers, hwrite, haddress, hlane]
  have hafter := (latest_of_covers hcovers).mp (hreg1 l (n + 1))
  rw [he.step, circuit, lane_reg1_step (waitrequest_eq_false he n) (he.admits n), hlisted,
    Bool.false_and, if_neg Bool.false_ne_true] at hafter
  rw [← hafter]
  exact hreg1 l n

/-- The slave is byte addressable if and only if no write with an unlisted pattern changes a byte
of the register at 0x4. -/
theorem byteAddressable_iff (he : circuit.Execution st i) : ByteAddressable st i ↔ Repeats i :=
  ⟨fun h => h.repeats he, fun h => h.byteAddressable he⟩

end Execution

/-- The state after a reset. -/
def afterReset : State := ⟨0#_, 0#_, false, false, 0#_⟩

/-- A write to 0x4 in cycle 0 with the byte enables `be`, and a read of 0x4 in every cycle after. -/
def writeThenRead (be : BitVec 4) (n : ℕ) : Inputs :=
  ⟨false, 0x4#_, be, n != 0, n == 0, 0xDEADBEEF#_⟩

theorem execution_writeThenRead (be : BitVec 4) :
    circuit.Execution (trajectory step afterReset (writeThenRead be)) (writeThenRead be) := by
  refine Circuit.execution_trajectory ?_ fun _ _ => rfl
  exact ⟨afterReset, { writeThenRead be 0 with reset := true }, rfl, rfl⟩

/-- A write of the two middle bytes is lost. -/
theorem not_byteAddressable_writeThenRead :
    circuit.Execution (trajectory step afterReset (writeThenRead 0b0110#4))
        (writeThenRead 0b0110#4) ∧
      ¬ ByteAddressable (trajectory step afterReset (writeThenRead 0b0110#4))
        (writeThenRead 0b0110#4) := by
  have he := execution_writeThenRead 0b0110#4
  refine ⟨he, fun h => ?_⟩
  have hlatest := h.reads 1 (writeThenRead 0b0110#4 1) rfl rfl (.inl rfl) 1
  have hcovers : covers (writeThenRead 0b0110#4 0) 0x4#_ 1 = true := by decide
  have := (latest_of_covers hcovers).mp hlatest
  revert this
  decide

/-- A write of a whole word is not. -/
theorem byteAddressable_writeThenRead :
    ByteAddressable (trajectory step afterReset (writeThenRead 0b1111#4))
      (writeThenRead 0b1111#4) := by
  refine (byteAddressable_iff (execution_writeThenRead _)).mpr ?_
  intro n _ _ hlisted
  have : listed 0b1111#4 = true := by decide
  exact absurd hlisted (by simp [writeThenRead, this])

end AvalonCores.AvalonMm.Slave
