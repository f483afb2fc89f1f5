import Mathlib.Tactic
import AvalonCores.MemoryTester.Burst
import AvalonCores.MemoryTester.Csr

/-! The linear feedback shift register that `mtm_prbs_pattern_generator` and
`mtm_prbs_pattern_checker` have in common, for any `DATA_WIDTH`, and the registers of its
polynomial. -/

namespace AvalonCores.MemoryTester.Prbs

/-- `NUM_OF_SYMBOLS` -/
def numOfSymbols (dataWidth : ℕ) : ℕ := dataWidth / 8

/-- `POLYNOMIAL_RESET_VALUE` -/
def polynomialResetValue (dataWidth : ℕ) : BitVec 128 :=
  if dataWidth = 16 then 0xB400#128
  else if dataWidth = 32 then 0xA3000000#128
  else if dataWidth = 64 then 0xD800000000000000#128
  else 0xE1000000000000000000000000000000#128

/-- The low bits of `SEED_VALUE`. -/
def seedValue (dataWidth : ℕ) : BitVec dataWidth :=
  BitVec.ofNat _ <|
    if dataWidth = 16 then 0xFACE
    else if dataWidth = 32 then 0xDEADBEEF
    else if dataWidth = 64 then 0xFEEDABBABABEBEEF
    else 0xCA11DEAFABBABABEB01D5CA1AB1EFACE

@[simp] theorem numOfSymbols_word (b : ℕ) : numOfSymbols (8 * 2 ^ b) = 2 ^ b :=
  Nat.mul_div_cancel_left _ (by decide)

/-- `x` with its whole bytes in reverse order.  The bits above them, which nothing drives, are those
of `undriven`. -/
def reverseSymbols {dataWidth : ℕ} (undriven x : BitVec dataWidth) : BitVec dataWidth :=
  (BitVec.iunfoldr (fun k _ => ((), if k.val < 8 * numOfSymbols dataWidth then
    x.getLsbD (8 * (numOfSymbols dataWidth - 1 - k / 8) + k % 8) else undriven.getLsbD k)) ()).2

/-- All bits of a word are driven. -/
theorem reverseSymbols_word {b : ℕ} (undriven x : Word b) :
    reverseSymbols undriven x = byteReversal x := by
  apply BitVec.eq_of_getLsbD_eq
  intro k hk
  rw [byteReversal_getLsbD x hk]
  refine (BitVec.iunfoldr_getLsbD (fun _ => ()) ⟨k, hk⟩ fun _ => rfl).trans ?_
  rw [numOfSymbols_word, if_pos hk]

/-- The next content of the shift register: a right rotation, with the lowest bit also fed back
into the bits that the polynomial selects. -/
def pipelineInput {w : ℕ} (polynomial : BitVec 128) (pipeline : BitVec w) : BitVec w :=
  (BitVec.iunfoldr (fun d _ => ((), if d.val + 1 < w then
    pipeline.getLsbD (d + 1) ^^ (pipeline.getLsbD 0 && polynomial.getLsbD d)
    else pipeline.getLsbD 0)) ()).2

theorem getLsbD_pipelineInput {w : ℕ} (polynomial : BitVec 128) (s : BitVec w) {d : ℕ}
    (hd : d < w) : (pipelineInput polynomial s).getLsbD d =
      if d + 1 < w then s.getLsbD (d + 1) ^^ (s.getLsbD 0 && polynomial.getLsbD d)
      else s.getLsbD 0 :=
  BitVec.iunfoldr_getLsbD (fun _ => ()) ⟨d, hd⟩ fun _ => rfl

/-- The content of the shift register after `n` steps from `x`. -/
def iterate {w : ℕ} (polynomial : BitVec 128) (x : BitVec w) (n : ℕ) : BitVec w :=
  (pipelineInput polynomial)^[n] x

theorem iterate_succ {w : ℕ} (polynomial : BitVec 128) (x : BitVec w) (n : ℕ) :
    iterate polynomial x (n + 1) = pipelineInput polynomial (iterate polynomial x n) :=
  Function.iterate_succ_apply' _ _ _

variable (a : CsrAccess)

def loadPolynomial : Bool := a.address.getLsbD 2 && a.write

/-- The byte lanes of the polynomial, a quarter of which has each of the word addresses 4 to 7. -/
def loadPolynomialLanes : BitVec 16 :=
  a.byteenable.setWidth 16 <<< (4 * (a.address.extractLsb' 0 2).toNat)

/-- The polynomial register after an access. -/
def nextPolynomial (polynomial : BitVec 128) : BitVec 128 :=
  if loadPolynomial a then
    loadLanes (loadPolynomialLanes a) (a.writedata ++ a.writedata ++ a.writedata ++ a.writedata)
      polynomial
  else polynomial

theorem nextPolynomial_eq {a : CsrAccess} (h : a.write = false) (polynomial : BitVec 128) :
    nextPolynomial a polynomial = polynomial := by simp [nextPolynomial, loadPolynomial, h]

end AvalonCores.MemoryTester.Prbs
