import Mathlib.Tactic

/-! The slave ports through which software reads and writes the registers of the cores. -/

namespace AvalonCores.MemoryTester

/-- What a slave port of eight words sees in a cycle. -/
structure CsrAccess where
  address : BitVec 3
  read : Bool
  write : Bool
  writedata : BitVec 32
  byteenable : BitVec 4
deriving DecidableEq, Repr

/-- The register `old` with the byte lanes that `lanes` enables taken from `data`. -/
def loadLanes {w n : ℕ} (lanes : BitVec n) (data old : BitVec w) : BitVec w :=
  let mask := (List.range n).foldl
    (fun m k => if lanes.getLsbD k then m ||| BitVec.ofNat w (0xFF * 2 ^ (8 * k)) else m) 0#w
  (old &&& ~~~mask) ||| (data &&& mask)

/-- The bits of the byte lanes that `lanes` enables. -/
theorem getLsbD_mask {w n : ℕ} (lanes : BitVec n) {k : ℕ} (hk : k < w) :
    ((List.range n).foldl
      (fun m j => if lanes.getLsbD j then m ||| BitVec.ofNat w (0xFF * 2 ^ (8 * j)) else m)
        0#w).getLsbD k = lanes.getLsbD (k / 8) := by
  have hlane (j : ℕ) : (BitVec.ofNat w (0xFF * 2 ^ (8 * j))).getLsbD k = decide (k / 8 = j) := by
    rw [BitVec.getLsbD_ofNat, Nat.testBit_mul_two_pow, show (0xFF : ℕ) = 2 ^ 8 - 1 from rfl,
      Nat.testBit_two_pow_sub_one, Bool.eq_iff_iff]
    simp [hk]
    omega
  have hfold (p : ℕ) : ((List.range p).foldl
      (fun m j => if lanes.getLsbD j then m ||| BitVec.ofNat w (0xFF * 2 ^ (8 * j)) else m)
        0#w).getLsbD k = (decide (k / 8 < p) && lanes.getLsbD (k / 8)) := by
    induction p with
    | zero => simp
    | succ p ih =>
      rw [List.range_succ, List.foldl_append]
      simp only [List.foldl_cons, List.foldl_nil]
      by_cases hkp : k / 8 = p
      · cases hp : lanes.getLsbD p <;> simp [ih, hlane, hkp, hp]
      · have hlt : decide (k / 8 < p + 1) = decide (k / 8 < p) := by
          rw [decide_eq_decide]
          omega
        rw [hlt]
        cases hp : lanes.getLsbD p <;> simp [ih, hlane, hkp]
  rw [hfold]
  by_cases hkn : k / 8 < n
  · simp [hkn]
  · rw [BitVec.getLsbD_of_ge lanes (k / 8) (by omega), Bool.and_false]

/-- An enabled lane is that of the data, and another one keeps its bits. -/
theorem getLsbD_loadLanes {w n : ℕ} (lanes : BitVec n) (data old : BitVec w) {k : ℕ} (hk : k < w) :
    (loadLanes lanes data old).getLsbD k =
      if lanes.getLsbD (k / 8) then data.getLsbD k else old.getLsbD k := by
  rw [loadLanes, BitVec.getLsbD_or, BitVec.getLsbD_and, BitVec.getLsbD_and, BitVec.getLsbD_not,
    getLsbD_mask lanes hk]
  cases lanes.getLsbD (k / 8) <;> simp [hk]

/-- A register that an access may load. -/
theorem getLsbD_ite_loadLanes {w n : ℕ} (c : Prop) [Decidable c] (lanes : BitVec n)
    (data old : BitVec w) {k : ℕ} (hk : k < w) :
    (if c then loadLanes lanes data old else old).getLsbD k =
      if c ∧ lanes.getLsbD (k / 8) = true then data.getLsbD k else old.getLsbD k := by
  by_cases hc : c
  · simp only [hc, if_true, true_and, getLsbD_loadLanes lanes data old hk]
  · simp only [hc, if_false, false_and]

theorem loadLanes_of_all {w n : ℕ} {lanes : BitVec n} (h : ∀ k < w, lanes.getLsbD (k / 8) = true)
    (data old : BitVec w) : loadLanes lanes data old = data := by
  apply BitVec.eq_of_getLsbD_eq
  intro k hk
  rw [getLsbD_loadLanes lanes data old hk, h k hk, if_pos rfl]

/-- A decoded address. -/
theorem beq_eq_decide {w : ℕ} (a r : BitVec w) : (a == r) = decide (r.toNat = a.toNat) := by
  rw [Bool.eq_iff_iff, beq_iff_eq, decide_eq_true_iff, BitVec.toNat_inj, eq_comm]

namespace CsrAccess

/-- A cycle without an access. -/
def none : CsrAccess := ⟨0#3, false, false, 0#32, 0#4⟩

/-- A write of `data` to the register at word address `r`. -/
def store (r : BitVec 3) (data : BitVec 32) : CsrAccess := ⟨r, false, true, data, 0xF#4⟩

variable (a : CsrAccess)

/-- A write to the register at word address `r`. -/
def loads (r : BitVec 3) : Bool := a.address == r && a.write

/-- A write to byte lane `n` of the register at word address `r`. -/
def loadsLane (r : BitVec 3) (n : ℕ) : Bool := a.loads r && a.byteenable.getLsbD n

@[simp] theorem loads_eq_false {a : CsrAccess} (h : a.write = false) (r : BitVec 3) :
    a.loads r = false := by simp [loads, h]

@[simp] theorem loadsLane_eq_false {a : CsrAccess} (h : a.write = false) (r : BitVec 3) (n : ℕ) :
    a.loadsLane r n = false := by simp [loadsLane, h]

end CsrAccess

end AvalonCores.MemoryTester
