import Mathlib.Tactic
import AvalonCores.MemoryTester.DirectIo
import AvalonCores.MemoryTester.PrbsPatternChecker
import AvalonCores.MemoryTester.PrbsPatternGenerator

/-! The functions of `prbs_pattern_generator.c` and `prbs_pattern_checker.c` that write and read the
polynomial.  Sixteen byte stores cross the word select and the byte lanes of the 128-bit register;
`Core.Programs` says what they leave in a core, which may be running. -/

namespace AvalonCores.MemoryTester

namespace Prbs

open Sync Program

section Driver

/-- A loop of `IOWR_8DIRECT` from the byte address `offset` on. -/
def storeBytes (offset : ℕ) : List (BitVec 8) → Driver Unit
  | [] => return ()
  | d :: ds => do
    write (iowr8Direct offset d)
    storeBytes (offset + 1) ds

/-- A loop of `IORD_8DIRECT` from the byte address `offset` on. -/
def loadBytes (offset : ℕ) : ℕ → Driver (List (BitVec 8))
  | 0 => return []
  | n + 1 => do
    let d ← read (iord8Direct offset)
    let ds ← loadBytes (offset + 1) n
    return d.setWidth 8 :: ds

/-- The bytes of `polynomial`, and zeros for the other ones of the register. -/
def setPolynomial (polynomial31To0Reg : ℕ) (polynomial : List (BitVec 8)) : Driver Unit := do
  storeBytes polynomial31To0Reg polynomial
  storeBytes (polynomial31To0Reg + polynomial.length)
    (List.replicate (16 - polynomial.length) 0#8)

def readPolynomial (polynomial31To0Reg : ℕ) (polynomialLength : ℕ) : Driver (List (BitVec 8)) :=
  loadBytes polynomial31To0Reg polynomialLength

def generatorPolynomial31To0Reg : ℕ := 0x10

def checkerPolynomial31To0Reg : ℕ := 0x10

def generatorSetPolynomial : List (BitVec 8) → Driver Unit :=
  setPolynomial generatorPolynomial31To0Reg

def generatorReadPolynomial : ℕ → Driver (List (BitVec 8)) :=
  readPolynomial generatorPolynomial31To0Reg

def checkerSetPolynomial : List (BitVec 8) → Driver Unit := setPolynomial checkerPolynomial31To0Reg

def checkerReadPolynomial : ℕ → Driver (List (BitVec 8)) :=
  readPolynomial checkerPolynomial31To0Reg

end Driver

section Register

/-- The words of the slave port that show the polynomial. -/
def polynomialWord (polynomial : BitVec 128) : ℕ → BitVec 32
  | 4 => polynomial.extractLsb' 0 32
  | 5 => polynomial.extractLsb' 32 32
  | 6 => polynomial.extractLsb' 64 32
  | 7 => polynomial.extractLsb' 96 32
  | _ => 0#32

/-- The bits of the polynomial. -/
def writable (k : ℕ) : Bool := decide (128 ≤ k ∧ k < 256)

theorem getLsbD_polynomialWord (polynomial : BitVec 128) (n : ℕ) {k : ℕ} (hk : k < 32) :
    (polynomialWord polynomial n).getLsbD k =
      (writable (32 * n + k) && polynomial.getLsbD (32 * n + k - 128)) := by
  match n with
  | 0 | 1 | 2 | 3 =>
    rw [writable, decide_eq_false (by omega)]
    simp only [polynomialWord, BitVec.getLsbD_zero, Bool.false_and]
  | 4 | 5 | 6 | 7 =>
    rw [writable, decide_eq_true (by omega)]
    simp only [polynomialWord, BitVec.getLsbD_extractLsb', hk, decide_true, Bool.true_and]
    exact congrArg polynomial.getLsbD (by omega)
  | n + 8 =>
    rw [writable, decide_eq_false (by omega)]
    simp only [polynomialWord, BitVec.getLsbD_zero, Bool.false_and]

theorem wordBits_polynomialWord (polynomial : BitVec 128) (k : ℕ) :
    wordBits (polynomialWord polynomial) k =
      (writable k && polynomial.getLsbD (k - 128)) := by
  have hk : 32 * (k / 32) + k % 32 = k := by omega
  rw [wordBits, getLsbD_polynomialWord _ _ (by omega), hk]

/-- An access writes the enabled lanes of the quarter that it addresses. -/
theorem getLsbD_nextPolynomial (a : CsrAccess) (polynomial : BitVec 128) {k : ℕ} (hk : k < 128) :
    (nextPolynomial a polynomial).getLsbD k =
      if a.write = true ∧ k / 32 + 4 = a.address.toNat ∧
          a.byteenable.getLsbD (k % 32 / 8) = true then
        a.writedata.getLsbD (k % 32)
      else polynomial.getLsbD k := by
  have haddress := a.address.isLt
  have hload : loadPolynomial a = (decide (4 ≤ a.address.toNat) && a.write) := by
    rw [loadPolynomial, ← BitVec.testBit_toNat, Nat.testBit_eq_decide_div_mod_eq]
    congr 1
    rw [decide_eq_decide]
    omega
  have hquarter : (a.address.extractLsb' 0 2).toNat = a.address.toNat % 4 := by
    rw [BitVec.extractLsb'_toNat]
    simp
  have hlane : (loadPolynomialLanes a).getLsbD (k / 8) =
      (decide (a.address.toNat % 4 = k / 32) && a.byteenable.getLsbD (k % 32 / 8)) := by
    rw [loadPolynomialLanes, hquarter, BitVec.getLsbD_shiftLeft, BitVec.getLsbD_setWidth]
    by_cases hq : a.address.toNat % 4 = k / 32
    · have hsub : k / 8 - 4 * (a.address.toNat % 4) = k % 32 / 8 := by omega
      have hlow : ¬ k / 8 < 4 * (a.address.toNat % 4) := by omega
      rw [hsub, decide_eq_true hq, decide_eq_false hlow, decide_eq_true (by omega : k / 8 < 16),
        decide_eq_true (by omega : k % 32 / 8 < 16)]
      simp
    · rw [decide_eq_false hq, Bool.false_and]
      by_cases hlow : k / 8 < 4 * (a.address.toNat % 4)
      · simp [hlow]
      · rw [BitVec.getLsbD_of_ge a.byteenable _ (by omega)]
        simp
  have hdata : (a.writedata ++ a.writedata ++ a.writedata ++ a.writedata).getLsbD k =
      a.writedata.getLsbD (k % 32) := by
    simp only [BitVec.getLsbD_append]
    split_ifs <;> congr 1 <;> omega
  rw [nextPolynomial, getLsbD_ite_loadLanes _ _ _ _ hk, hload, hlane, hdata]
  grind

/-- The words of the polynomial are above those of the other registers. -/
theorem loads_eq_false {a : CsrAccess} (h : 4 ≤ a.address.toNat) {r : BitVec 3}
    (hr : r.toNat < 4) : a.loads r = false := by
  have hne : a.address ≠ r := by
    rintro rfl
    omega
  simp [CsrAccess.loads, hne]

theorem polynomialWord_next (a : CsrAccess) (polynomial : BitVec 128) (n : ℕ) {k : ℕ}
    (hk : k < 32) :
    (polynomialWord (nextPolynomial a polynomial) n).getLsbD k =
      if a.write = true ∧ n = a.address.toNat ∧ a.byteenable.getLsbD (k / 8) = true then
        writable (32 * n + k) && a.writedata.getLsbD k
      else (polynomialWord polynomial n).getLsbD k := by
  rw [getLsbD_polynomialWord _ _ hk, getLsbD_polynomialWord _ _ hk]
  by_cases hw : writable (32 * n + k) = true
  · have hbounds := of_decide_eq_true hw
    have hquarter : (32 * n + k - 128) / 32 + 4 = n := by omega
    have hbit : (32 * n + k - 128) % 32 = k := by omega
    rw [getLsbD_nextPolynomial _ _ (by omega), hquarter, hbit, hw]
    simp only [Bool.true_and]
  · simp [hw]

end Register

section Meaning

variable {r : ℕ → Bool}

abbrev meaning {α : Type} (p : Driver α) (r : ℕ → Bool) : α × (ℕ → Bool) :=
  p.eval (registerBits writable) r

/-- The bytes of a loop of stores. -/
theorem storeBytes_apply (ds : List (BitVec 8)) (o k : ℕ) :
    (meaning (storeBytes o ds) r).2 k =
      if 8 * o ≤ k ∧ k < 8 * (o + ds.length) then
        writable k && (ds.getD (k / 8 - o) 0#8).getLsbD (k % 8)
      else r k := by
  induction ds generalizing o r with
  | nil =>
    rw [if_neg (by simp)]
    rfl
  | cons d ds ih =>
    rw [storeBytes, meaning, eval_bind, eval_write, ih]
    show (if _ then _ else (registerBits writable).store (iowr8Direct o d) r k) = _
    rw [store8_apply, List.length_cons]
    by_cases hrest : 8 * (o + 1) ≤ k ∧ k < 8 * (o + 1 + ds.length)
    · have hindex : k / 8 - o = k / 8 - (o + 1) + 1 := by omega
      rw [if_pos hrest, if_pos (by omega), hindex, List.getD_cons_succ]
    · rw [if_neg hrest]
      by_cases hhead : 8 * o ≤ k ∧ k < 8 * o + 8
      · have hindex : k / 8 - o = 0 := by omega
        have hbit : k - 8 * o = k % 8 := by omega
        rw [if_pos hhead, if_pos (by omega), hindex, hbit, List.getD_cons_zero]
      · rw [if_neg hhead, if_neg (by omega)]

/-- The bytes from `polynomial31To0Reg` on are those of `p`, with zeros behind them. -/
theorem setPolynomial_apply {p : List (BitVec 8)} (hp : p.length ≤ 16) (o k : ℕ) :
    (meaning (setPolynomial o p) r).2 k =
      if 8 * o ≤ k ∧ k < 8 * (o + 16) then
        writable k && (p.getD (k / 8 - o) 0#8).getLsbD (k % 8)
      else r k := by
  rw [setPolynomial, meaning, eval_bind, storeBytes_apply, storeBytes_apply,
    List.length_replicate]
  by_cases hzero : 8 * (o + p.length) ≤ k ∧ k < 8 * (o + p.length + (16 - p.length))
  · have hlow : p.getD (k / 8 - o) 0#8 = 0#8 := by
      rw [List.getD_eq_getElem?_getD, List.getElem?_eq_none (by omega), Option.getD_none]
    have hpad : (List.replicate (16 - p.length) 0#8).getD (k / 8 - (o + p.length)) 0#8 = 0#8 := by
      rw [List.getD_eq_getElem?_getD, List.getElem?_replicate]
      split <;> rfl
    rw [if_pos hzero, if_pos (by omega), hlow, hpad]
  · rw [if_neg hzero]
    by_cases hbytes : 8 * o ≤ k ∧ k < 8 * (o + p.length)
    · rw [if_pos hbytes, if_pos (by omega)]
    · rw [if_neg hbytes, if_neg (by omega)]

theorem loadBytes_eval (o n : ℕ) :
    meaning (loadBytes o n) r = ((List.range n).map fun j =>
      ((registerBits writable).load (iord8Direct (o + j)) r).setWidth 8, r) := by
  induction n generalizing o with
  | zero => rfl
  | succ n ih =>
    simp only [meaning] at ih
    rw [loadBytes, meaning, eval_bind, eval_read, eval_bind, ih, List.range_succ_eq_map]
    simp only [eval_pure, List.map_cons, List.map_map, Function.comp_def, Nat.add_zero,
      Nat.add_assoc, Nat.add_comm 1]

theorem uses_storeBytes {lo hi : ℕ} {okL : DirectLoad → Prop} (ds : List (BitVec 8)) {o : ℕ}
    (hlo : lo ≤ o) (hhi : o + ds.length ≤ hi) :
    (storeBytes o ds).Uses (·.Within lo hi) okL := by
  induction ds generalizing o with
  | nil => trivial
  | cons d ds ih =>
    rw [List.length_cons] at hhi
    refine uses_bind ?_ fun _ => ih (by omega) (by omega)
    rw [uses_write]
    refine ⟨?_, hlo, ?_⟩
    · simp only [DirectStore.Aligned, iowr8Direct]
      omega
    · simp only [iowr8Direct]
      omega

theorem uses_loadBytes {lo hi : ℕ} {okS : DirectStore → Prop} (n : ℕ) {o : ℕ} (hlo : lo ≤ o)
    (hhi : o + n ≤ hi) : (loadBytes o n).Uses okS (·.Within lo hi) := by
  induction n generalizing o with
  | zero => trivial
  | succ n ih =>
    refine uses_bind ?_ fun _ => uses_bind (ih (by omega) (by omega)) fun _ => uses_pure _
    rw [uses_read]
    refine ⟨?_, hlo, ?_⟩
    · simp only [DirectLoad.Aligned, iord8Direct]
      omega
    · simp only [iord8Direct]
      omega

theorem uses_setPolynomial {okL : DirectLoad → Prop} {p : List (BitVec 8)} (hp : p.length ≤ 16)
    (o : ℕ) : (setPolynomial o p).Uses (·.Within o (o + 16)) okL := by
  refine uses_bind (uses_storeBytes p le_rfl (by omega)) fun _ => ?_
  exact uses_storeBytes _ (by omega) (by rw [List.length_replicate]; omega)

end Meaning

section Value

/-- The 128-bit value whose bytes are `p`, the lowest one first. -/
def littleEndian (p : List (BitVec 8)) : BitVec 128 :=
  BitVec.ofNat 128 (Nat.ofDigits 256 (p.map BitVec.toNat))

theorem testBit_ofDigits (p : List (BitVec 8)) (k : ℕ) :
    (Nat.ofDigits 256 (p.map BitVec.toNat)).testBit k =
      (p.getD (k / 8) 0#8).getLsbD (k % 8) := by
  induction p generalizing k with
  | nil => simp
  | cons d p ih =>
    have hcons : Nat.ofDigits 256 ((d :: p).map BitVec.toNat) =
        2 ^ 8 * Nat.ofDigits 256 (p.map BitVec.toNat) + d.toNat := by
      rw [List.map_cons, Nat.ofDigits_cons, Nat.add_comm]
      norm_num
    rw [hcons, Nat.testBit_two_pow_mul_add _ d.isLt]
    by_cases hk : k < 8
    · rw [if_pos hk, Nat.div_eq_of_lt hk, Nat.mod_eq_of_lt hk, List.getD_cons_zero,
        BitVec.testBit_toNat]
    · have hindex : k / 8 = (k - 8) / 8 + 1 := by omega
      have hbit : (k - 8) % 8 = k % 8 := by omega
      rw [if_neg hk, ih, hindex, hbit, List.getD_cons_succ]

theorem getLsbD_littleEndian (p : List (BitVec 8)) {k : ℕ} (hk : k < 128) :
    (littleEndian p).getLsbD k = (p.getD (k / 8) 0#8).getLsbD (k % 8) := by
  rw [littleEndian, BitVec.getLsbD_ofNat, testBit_ofDigits, decide_eq_true hk, Bool.true_and]

example : littleEndian [0x00#8, 0xB4#8] = polynomialResetValue 16 := by decide

end Value

section Port

variable {σ ι : Type}

/-- A core with a polynomial, the registers of which are `σ`. -/
structure Core (σ ι : Type) where
  step : σ → ι → σ
  withCsr : CsrAccess → ι → ι
  readback : σ → BitVec 32
  polynomial : σ → BitVec 128
  withPolynomial : BitVec 128 → σ → σ
  /-- The core is stopped, and nothing is under way in it. -/
  AtRest : σ → Prop

variable (C : Core σ ι)

/-- The core behind its slave port of eight words. -/
abbrev Core.port : Port DirectStore DirectLoad (BitVec 32) σ ι :=
  slavePort CsrAccess.none DirectStore.toCsrAccess DirectLoad.toCsrAccess C.step C.withCsr
    C.readback

/-- What an access to the words of the polynomial does to the core. -/
structure Core.Behaves : Prop where
  polynomial_step : ∀ s c i, C.polynomial (C.step s (C.withCsr c i)) =
    nextPolynomial c (C.polynomial s)
  readback_step : ∀ s c i, c.read = true → 4 ≤ c.address.toNat →
    C.readback (C.step s (C.withCsr c i)) = polynomialWord (C.polynomial s) c.address.toNat
  others_step : ∀ s c i, c.read = false → 4 ≤ c.address.toNat →
    C.step s (C.withCsr c i) = C.withPolynomial (nextPolynomial c (C.polynomial s))
      (C.step s (C.withCsr .none i))
  step_atRest : ∀ s q i, C.AtRest s →
    C.step (C.withPolynomial q s) (C.withCsr .none i) = C.withPolynomial q s
  polynomial_withPolynomial : ∀ s q, C.polynomial (C.withPolynomial q s) = q
  withPolynomial_twice : ∀ s q q', C.withPolynomial q (C.withPolynomial q' s) =
    C.withPolynomial q s
  withPolynomial_self : ∀ s, C.withPolynomial (C.polynomial s) s = s

variable {C}

theorem Core.Behaves.implements_registerBits (h : C.Behaves) :
    C.port.Implements (registerBits writable)
      (fun s => wordBits (polynomialWord (C.polynomial s))) (fun _ => True) (·.Within 16 32)
      (·.Within 16 32) := by
  have hkeep (s : σ) {c : CsrAccess} (hw : c.write = false) (i : ι) :
      C.polynomial (C.step s (C.withCsr c i)) = C.polynomial s := by
    rw [h.polynomial_step, nextPolynomial_eq hw]
  constructor
  case idle =>
    intro s _ i
    refine ⟨trivial, congrArg (fun q => wordBits (polynomialWord q)) ?_⟩
    exact hkeep s rfl i
  case store =>
    rintro s x - ⟨haligned, -, hoffset⟩ i
    have hword : (BitVec.ofNat 3 (x.word 4)).toNat = x.word 4 := toNat_wordAddress hoffset
    refine ⟨rfl, trivial, ?_⟩
    refine wordBits_store haligned fun n k hk => ?_
    show (polynomialWord (C.polynomial (C.step s (C.withCsr x.toCsrAccess i))) n).getLsbD k = _
    rw [h.polynomial_step, polynomialWord_next _ _ _ hk]
    simp [DirectStore.toCsrAccess, hword]
  case load =>
    rintro s l - ⟨haligned, hlower, hupper⟩ i
    have hword : l.toCsrAccess.address.toNat = l.offset / 4 := toNat_wordAddress hupper
    refine ⟨rfl, trivial, congrArg (fun q => wordBits (polynomialWord q)) ?_, ?_⟩
    · exact hkeep s rfl i
    · show l.value (C.readback (C.step s (C.withCsr l.toCsrAccess i))) = _
      rw [h.readback_step _ _ _ rfl (by omega), hword, ← wordBits_load haligned]

variable (C)

/-- A run of the core without an access, but for the polynomial, which may change in any cycle. -/
def Core.Drifts : σ → σ → Prop :=
  Relation.ReflTransGen fun s s' =>
    ∃ q i, s' = C.withPolynomial q (C.step s (C.withCsr .none i))

/-- What the functions `set` and `get` of a driver do with the bytes `p` to a core in the state
`s`. -/
structure Core.Programs (set : List (BitVec 8) → Driver Unit)
    (get : ℕ → Driver (List (BitVec 8))) (s : σ) (p : List (BitVec 8)) : Prop where
  runs : ∃ s', C.port.Runs s (set p) s' ()
  holds : ∀ s', C.port.Runs s (set p) s' () → C.polynomial s' = littleEndian p
  drifts : ∀ s', C.port.Runs s (set p) s' () → C.Drifts s s'
  rest : C.AtRest s → ∀ s', C.port.Runs s (set p) s' () → s' = C.withPolynomial (littleEndian p) s
  returns : ∀ n ≤ 16, C.port.Returns s (set p) (get n) ((List.range n).map fun j => p.getD j 0#8)

variable {C}

theorem Core.Behaves.holds (h : C.Behaves) {s s' : σ} {p : List (BitVec 8)} (hp : p.length ≤ 16)
    (hr : C.port.Runs s (setPolynomial 0x10 p) s' ()) : C.polynomial s' = littleEndian p := by
  obtain ⟨-, heval⟩ := h.implements_registerBits.eval hr trivial (uses_setPolynomial hp 16)
  apply BitVec.eq_of_getLsbD_eq
  intro k hk
  have hbit := congrFun (congrArg Prod.snd heval) (128 + k)
  have hwritable : writable (128 + k) = true := decide_eq_true (by omega)
  have hindex : (128 + k) / 8 - 0x10 = k / 8 := by omega
  have hlane : (128 + k) % 8 = k % 8 := by omega
  rw [setPolynomial_apply hp, if_pos (by omega), hindex, hlane] at hbit
  simp only [wordBits_polynomialWord, hwritable, Bool.true_and, Nat.add_sub_cancel_left] at hbit
  rw [hbit, getLsbD_littleEndian _ hk]

theorem Core.Behaves.returns [Nonempty ι] (h : C.Behaves) (s : σ) {p : List (BitVec 8)}
    (hp : p.length ≤ 16) {n : ℕ} (hn : n ≤ 16) :
    C.port.Returns s (setPolynomial 0x10 p) (readPolynomial 0x10 n)
      ((List.range n).map fun j => p.getD j 0#8) := by
  refine (h.implements_registerBits.returns_eval_iff trivial (uses_setPolynomial hp 16)
    (uses_loadBytes n le_rfl (by omega))).2 ?_
  refine (congrArg Prod.fst (loadBytes_eval _ _)).trans ?_
  apply List.map_congr_left
  intro j hj
  rw [List.mem_range] at hj
  apply BitVec.eq_of_getLsbD_eq
  intro k hk
  have hwritable : writable (8 * (0x10 + j) + k) = true := decide_eq_true (by omega)
  have hindex : (8 * (0x10 + j) + k) / 8 - 0x10 = j := by omega
  have hlane : (8 * (0x10 + j) + k) % 8 = k := by omega
  rw [BitVec.getLsbD_setWidth, getLsbD_load _ (by omega)]
  simp only [iord8Direct]
  rw [setPolynomial_apply hp, if_pos (by omega), hindex, hlane, hwritable]
  simp [hk]

/-- In a cycle of a store to the polynomial the other registers do what they do without it. -/
theorem Core.Behaves.store_step (h : C.Behaves) (s : σ) (i : ι) {x : DirectStore}
    (hx : x.Within 16 32) :
    C.step s (C.withCsr x.toCsrAccess i) =
      C.withPolynomial (nextPolynomial x.toCsrAccess (C.polynomial s))
        (C.step s (C.withCsr .none i)) := by
  have hlower := hx.lower
  have hword : x.toCsrAccess.address.toNat = x.offset / 4 := toNat_wordAddress hx.upper
  exact h.others_step s _ i rfl (by omega)

theorem Core.Behaves.drifts (h : C.Behaves) {s s' : σ} {p : List (BitVec 8)}
    (hp : p.length ≤ 16) (hr : C.port.Runs s (setPolynomial 0x10 p) s' ()) : C.Drifts s s' := by
  have huses : (setPolynomial 0x10 p).Uses (·.Within 16 32) fun _ => False :=
    uses_setPolynomial hp 16
  refine hr.invariant ?_ ?_ ?_ huses .refl
  · intro t i hdrifts
    exact hdrifts.tail ⟨_, i, (h.withPolynomial_self _).symm⟩
  · intro t x i hx hdrifts
    exact hdrifts.tail ⟨_, i, h.store_step t i hx⟩
  · intro t l i hl
    contradiction

theorem Core.Behaves.rest (h : C.Behaves) {s s' : σ} {p : List (BitVec 8)} (hp : p.length ≤ 16)
    (hs : C.AtRest s) (hr : C.port.Runs s (setPolynomial 0x10 p) s' ()) :
    s' = C.withPolynomial (littleEndian p) s := by
  have huses : (setPolynomial 0x10 p).Uses (·.Within 16 32) fun _ => False :=
    uses_setPolynomial hp 16
  have hrest : ∃ q, s' = C.withPolynomial q s := by
    refine hr.invariant (I := fun t => ∃ q, t = C.withPolynomial q s) ?_ ?_ ?_ huses
      ⟨_, (h.withPolynomial_self s).symm⟩
    · rintro t i ⟨q, rfl⟩
      exact ⟨q, h.step_atRest s q i hs⟩
    · rintro t x i hx ⟨q, rfl⟩
      have hstep := h.store_step (C.withPolynomial q s) i hx
      rw [h.step_atRest s q i hs, h.withPolynomial_twice] at hstep
      exact ⟨_, hstep⟩
    · intro t l i hl
      contradiction
  obtain ⟨q, rfl⟩ := hrest
  have hq := h.holds hp hr
  rw [h.polynomial_withPolynomial] at hq
  rw [hq]

theorem Core.Behaves.programs [Nonempty ι] (h : C.Behaves) (s : σ) {p : List (BitVec 8)}
    (hp : p.length ≤ 16) : C.Programs (setPolynomial 0x10) (readPolynomial 0x10) s p where
  runs := by
    obtain ⟨s', ⟨⟩, hr⟩ := h.implements_registerBits.runs (s := s) (setPolynomial 0x10 p) trivial
      (uses_setPolynomial hp 16)
    exact ⟨s', hr⟩
  holds _ hr := h.holds hp hr
  drifts _ hr := h.drifts hp hr
  rest hs _ hr := h.rest hp hs hr
  returns _ hn := h.returns s hp hn

end Port

end Prbs

section Cores

open Sync Prbs

variable {dataWidth : ℕ}

namespace PrbsPatternGenerator

/-- The registers behind the slave port, with nothing on its way through the pipeline. -/
def core (dataWidth : ℕ) : Core (State dataWidth) Inputs where
  step := step
  withCsr c i := { i with csr := c }
  readback := (·.readbackMuxD1)
  polynomial := (·.polynomial)
  withPolynomial q s := { s with polynomial := q }
  AtRest s := s.start = false ∧ s.seedGenerator = false ∧ s.pipelineEnableD1 = false

instance : Nonempty Inputs := ⟨⟨CsrAccess.none, false⟩⟩

theorem readbackMux_eq {s : State dataWidth} (i : Inputs) (h : 4 ≤ i.csr.address.toNat) :
    readbackMux s i = polynomialWord s.polynomial i.csr.address.toNat := by
  have haddress := i.csr.address.isLt
  rw [readbackMux]
  generalize i.csr.address.toNat = n at h haddress
  interval_cases n <;> rfl

theorem behaves : (core dataWidth).Behaves where
  polynomial_step s c i := rfl
  readback_step s c i hr ha := by
    have hmux := readbackMux_eq (s := s) { i with csr := c } ha
    simpa [core, step, hr] using hmux
  others_step s c i hr ha := by
    have hpayload := loads_eq_false ha (r := 0#3) (by decide)
    have hcontrol := loads_eq_false ha (r := 2#3) (by decide)
    simp [core, step, hr, CsrAccess.none, nextPolynomial_eq, CsrAccess.loadsLane, hpayload,
      hcontrol, loadPayloadLengthCounter, loadInfinitePayloadLength, loadStart, loadSeedGenerator,
      clearSeedGenerator, clearStart, pipelineEnable, decrementPayloadLengthCounter]
  step_atRest s q i hs := by
    obtain ⟨hstart, hseed, hd1⟩ := hs
    have hloads (r : BitVec 3) : CsrAccess.none.loads r = false := CsrAccess.loads_eq_false rfl r
    have hread : CsrAccess.none.read = false := rfl
    have hpolynomial := nextPolynomial_eq (a := CsrAccess.none) rfl q
    simp [core, step, hpolynomial, CsrAccess.loadsLane, hloads, hread, hstart, hseed, hd1,
      clearStart, loadStart, loadSeedGenerator, loadPayloadLengthCounter,
      decrementPayloadLengthCounter, loadInfinitePayloadLength, pipelineEnable]
  polynomial_withPolynomial _ _ := rfl
  withPolynomial_twice _ _ _ := rfl
  withPolynomial_self _ := rfl

end PrbsPatternGenerator

namespace PrbsPatternChecker

def core (dataWidth : ℕ) : Core (State dataWidth) (Inputs dataWidth) where
  step := step
  withCsr c i := { i with csr := c }
  readback := (·.readbackMuxD1)
  polynomial := (·.polynomial)
  withPolynomial q s := { s with polynomial := q }
  AtRest s := s.start = false ∧ s.seedChecker = false ∧ s.pipelineEnableD1 = false ∧
    s.pipelineEnableD2 = false

instance : Nonempty (Inputs dataWidth) := ⟨⟨CsrAccess.none, 0#_, false, 0#_⟩⟩

theorem readbackMux_eq {s : State dataWidth} (i : Inputs dataWidth)
    (h : 4 ≤ i.csr.address.toNat) :
    readbackMux s i = polynomialWord s.polynomial i.csr.address.toNat := by
  have haddress := i.csr.address.isLt
  rw [readbackMux]
  generalize i.csr.address.toNat = n at h haddress
  interval_cases n <;> rfl

theorem behaves : (core dataWidth).Behaves where
  polynomial_step s c i := rfl
  readback_step s c i hr ha := by
    have hmux := readbackMux_eq (s := s) { i with csr := c } ha
    simpa [core, step, hr] using hmux
  others_step s c i hr ha := by
    have hpayload := loads_eq_false ha (r := 0#3) (by decide)
    have hcontrol := loads_eq_false ha (r := 2#3) (by decide)
    have hstatus := loads_eq_false ha (r := 3#3) (by decide)
    simp [core, step, hr, CsrAccess.none, nextPolynomial_eq, CsrAccess.loadsLane, hpayload,
      hcontrol, loadPayloadLengthCounter, loadInfinitePayloadLength, loadStart, loadSeedChecker,
      clearSeedChecker, loadStopOnFailure, clearFailureDetected, hstatus, pipelineEnable,
      decrementPayloadLengthCounter, dataIn]
  step_atRest s q i hs := by
    obtain ⟨hstart, hseed, hd1, hd2⟩ := hs
    have hloads (r : BitVec 3) : CsrAccess.none.loads r = false := CsrAccess.loads_eq_false rfl r
    have hread : CsrAccess.none.read = false := rfl
    have hpolynomial := nextPolynomial_eq (a := CsrAccess.none) rfl q
    simp [core, step, hpolynomial, CsrAccess.loadsLane, hloads, hread, hstart, hseed, hd1,
      hd2, clearStart, loadStart, loadSeedChecker, loadPayloadLengthCounter,
      decrementPayloadLengthCounter, loadInfinitePayloadLength, loadStopOnFailure,
      setFailureDetected, clearFailureDetected, pipelineEnable]
  polynomial_withPolynomial _ _ := rfl
  withPolynomial_twice _ _ _ := rfl
  withPolynomial_self _ := rfl

end PrbsPatternChecker

/-- The sixteen bytes of the polynomial are stored in both cores and come back from them, and then
the shift registers of the two cores take the same steps. -/
theorem setPolynomial_programs {p : List (BitVec 8)} (hp : p.length ≤ 16)
    (s : PrbsPatternGenerator.State dataWidth) (s' : PrbsPatternChecker.State dataWidth) :
    (PrbsPatternGenerator.core dataWidth).Programs generatorSetPolynomial
        generatorReadPolynomial s p ∧
      (PrbsPatternChecker.core dataWidth).Programs checkerSetPolynomial checkerReadPolynomial s' p ∧
      ∀ t t', (PrbsPatternGenerator.core dataWidth).port.Runs s (generatorSetPolynomial p) t () →
        (PrbsPatternChecker.core dataWidth).port.Runs s' (checkerSetPolynomial p) t' () →
        ∀ x : BitVec dataWidth, pipelineInput t.polynomial x = pipelineInput t'.polynomial x := by
  have hgenerator := PrbsPatternGenerator.behaves.programs s hp
  have hchecker := PrbsPatternChecker.behaves.programs s' hp
  refine ⟨hgenerator, hchecker, fun t t' hr hr' x => ?_⟩
  have ht : t.polynomial = littleEndian p := hgenerator.holds t hr
  have ht' : t'.polynomial = littleEndian p := hchecker.holds t' hr'
  rw [ht, ht']

/-- The polynomial of the cores with 16 bits, in two bytes. -/
theorem setPolynomial_programs_twoBytes :
    (PrbsPatternGenerator.core 16).Programs generatorSetPolynomial generatorReadPolynomial
        PrbsPatternGenerator.reset [0x00#8, 0xB4#8] ∧
      (PrbsPatternChecker.core 16).Programs checkerSetPolynomial checkerReadPolynomial
        PrbsPatternChecker.running [0x00#8, 0xB4#8] := by
  obtain ⟨hgenerator, hchecker, -⟩ := setPolynomial_programs (p := [0x00#8, 0xB4#8]) (by decide)
    PrbsPatternGenerator.reset PrbsPatternChecker.running
  exact ⟨hgenerator, hchecker⟩

end Cores

end AvalonCores.MemoryTester
