import Mathlib.Tactic
import AvalonCores.Sync.Execution
import AvalonCores.MemoryTester.PrbsPipeline

/-! The pattern source `mtm_prbs_pattern_generator`.  `Emitting` relates its registers to the number
of cycles in which the pipeline has been enabled since the start bit was set. -/

namespace AvalonCores.MemoryTester.PrbsPatternGenerator

open Sync Prbs

variable {dataWidth b : ℕ}

structure State (dataWidth : ℕ) where
  start : Bool
  seedGenerator : Bool
  payloadLengthCounter : BitVec 32
  infinitePayloadLength : Bool
  polynomial : BitVec 128
  pipeline : BitVec dataWidth
  pipelineD1 : BitVec dataWidth
  pipelineEnableD1 : Bool
  readbackMuxD1 : BitVec 32
deriving DecidableEq

structure Inputs where
  csr : CsrAccess
  srcReady : Bool
deriving DecidableEq, Repr

def reset : State dataWidth :=
  ⟨false, false, 0#_, false, polynomialResetValue dataWidth, seedValue dataWidth, 0#_, false, 0#_⟩

variable (s : State dataWidth) (i : Inputs)

def loadPayloadLengthCounter : Bool := i.csr.loads 0#3

def loadInfinitePayloadLength : Bool := i.csr.loadsLane 2#3 0

def loadStart : Bool := i.csr.loadsLane 2#3 3

def loadSeedGenerator : Bool := i.csr.loadsLane 2#3 2

def clearSeedGenerator : Bool := loadStart i && s.seedGenerator

def pipelineEnable : Bool := s.start && i.srcReady

def decrementPayloadLengthCounter : Bool := s.start && i.srcReady && !s.infinitePayloadLength

def clearStart : Bool :=
  s.start && !s.infinitePayloadLength &&
    s.payloadLengthCounter == BitVec.ofNat _ (numOfSymbols dataWidth) && pipelineEnable s i

def srcValid : Bool := s.pipelineEnableD1

/-- The data of the source port, of which a width of whole bytes leaves no bit undriven. -/
def srcData (s : State (8 * 2 ^ b)) : Word b := byteReversal s.pipelineD1

def readbackMux : BitVec 32 :=
  match i.csr.address.toNat with
  | 0 => s.payloadLengthCounter
  | 2 => 0#7 ++ BitVec.ofBool s.start ++ 0#7 ++ BitVec.ofBool s.seedGenerator ++ 0#15 ++
      BitVec.ofBool s.infinitePayloadLength
  | 4 => s.polynomial.extractLsb' 0 32
  | 5 => s.polynomial.extractLsb' 32 32
  | 6 => s.polynomial.extractLsb' 64 32
  | 7 => s.polynomial.extractLsb' 96 32
  | _ => 0#32

def step : State dataWidth where
  start :=
    if clearStart s i then false
    else if loadStart i then i.csr.writedata.getLsbD 24
    else s.start
  seedGenerator :=
    if clearSeedGenerator s i then false
    else if loadSeedGenerator i then i.csr.writedata.getLsbD 16
    else s.seedGenerator
  payloadLengthCounter :=
    if loadPayloadLengthCounter i then
      loadLanes i.csr.byteenable i.csr.writedata s.payloadLengthCounter
    else if decrementPayloadLengthCounter s i then
      s.payloadLengthCounter - BitVec.ofNat _ (numOfSymbols dataWidth)
    else s.payloadLengthCounter
  infinitePayloadLength :=
    if loadInfinitePayloadLength i then i.csr.writedata.getLsbD 0 else s.infinitePayloadLength
  polynomial := nextPolynomial i.csr s.polynomial
  pipeline :=
    if s.seedGenerator then seedValue dataWidth
    else if pipelineEnable s i then pipelineInput s.polynomial s.pipeline
    else s.pipeline
  pipelineD1 := if pipelineEnable s i then s.pipeline else s.pipelineD1
  pipelineEnableD1 := pipelineEnable s i
  readbackMuxD1 := if i.csr.read then readbackMux s i else s.readbackMuxD1

/-- The core from reset on, with any accesses and any handshake. -/
def fromReset (dataWidth : ℕ) : Circuit (State dataWidth) Inputs where
  init s := s = reset
  admits _ _ := True
  step := step

/-- The generator has just been started in finite mode. -/
structure Started (length : BitVec 32) (polynomial : BitVec 128) (x : Word b)
    (s : State (8 * 2 ^ b)) : Prop where
  start : s.start = true
  seedGenerator : s.seedGenerator = false
  infinite : s.infinitePayloadLength = false
  payload : s.payloadLengthCounter = length
  polynomial_eq : s.polynomial = polynomial
  pipeline : s.pipeline = x
  pipelineEnableD1 : s.pipelineEnableD1 = false

/-- The generator has been started in finite mode with a payload of `n` words, the polynomial
`polynomial` and the pipeline `x`, and its pipeline has been enabled in `k` cycles since. -/
structure Emitting (polynomial : BitVec 128) (x : Word b) (n : ℕ) (s : State (8 * 2 ^ b)) (k : ℕ) :
    Prop where
  le : k ≤ n
  start : s.start = decide (k < n)
  seedGenerator : s.seedGenerator = false
  infinite : s.infinitePayloadLength = false
  polynomial_eq : s.polynomial = polynomial
  pipeline : s.pipeline = iterate polynomial x k
  payload : s.payloadLengthCounter = BitVec.ofNat _ ((n - k) * 2 ^ b)
  emitted : s.pipelineEnableD1 = true → 0 < k ∧ s.pipelineD1 = iterate polynomial x (k - 1)

theorem Started.emitting {length : BitVec 32} {polynomial : BitVec 128} {x : Word b} {n : ℕ}
    {s : State (8 * 2 ^ b)} (h : Started length polynomial x s) (hn : 0 < n)
    (hlength : length.toNat = n * 2 ^ b) : Emitting polynomial x n s 0 where
  le := Nat.zero_le _
  start := by simp [h.start, hn]
  seedGenerator := h.seedGenerator
  infinite := h.infinite
  polynomial_eq := h.polynomial_eq
  pipeline := h.pipeline
  payload := by rw [h.payload, Nat.sub_zero, ← hlength, BitVec.ofNat_toNat, BitVec.setWidth_eq]
  emitted := by simp [h.pipelineEnableD1]

namespace Emitting

variable {polynomial : BitVec 128} {x : Word b} {n k : ℕ} {s : State (8 * 2 ^ b)} {i : Inputs}

/-- The word at the source port is the iterate of the cycle before. -/
theorem srcData_eq (h : Emitting polynomial x n s k) (hv : srcValid s = true) :
    0 < k ∧ srcData s = byteReversal (iterate polynomial x (k - 1)) := by
  obtain ⟨hk, hd1⟩ := h.emitted hv
  exact ⟨hk, congrArg byteReversal hd1⟩

/-- The pipeline is enabled only while words are left. -/
theorem lt_of_enable (h : Emitting polynomial x n s k) (he : pipelineEnable s i = true) :
    k < n := by
  have hs : s.start = true := by simp_all [pipelineEnable]
  rw [h.start] at hs
  exact of_decide_eq_true hs

/-- The counter shows the size of a word exactly when one word is left. -/
theorem clearStart_eq (hn : n * 2 ^ b < 2 ^ 32) (h : Emitting polynomial x n s k) :
    clearStart s i = (pipelineEnable s i && decide (k + 1 = n)) := by
  cases he : pipelineEnable s i with
  | false => simp [clearStart, he]
  | true =>
    have hs : s.start = true := by simp_all [pipelineEnable]
    have := h.lt_of_enable he
    have hle : (n - k) * 2 ^ b ≤ n * 2 ^ b := Nat.mul_le_mul_right _ (Nat.sub_le _ _)
    have hone : 2 ^ b ≤ (n - k) * 2 ^ b := Nat.le_mul_of_pos_left _ (by omega)
    have hiff : (n - k) * 2 ^ b = 2 ^ b ↔ k + 1 = n := by
      rw [Nat.mul_eq_right (by positivity)]
      omega
    simp only [clearStart, he, hs, h.infinite, h.payload, numOfSymbols_word, Bool.true_and,
      Bool.and_true, Bool.not_false]
    rw [Bool.eq_iff_iff, beq_iff_eq, decide_eq_true_iff, ← hiff, ← BitVec.toNat_inj,
      BitVec.toNat_ofNat, BitVec.toNat_ofNat, Nat.mod_eq_of_lt (by omega),
      Nat.mod_eq_of_lt (by omega)]

theorem next (hn : n * 2 ^ b < 2 ^ 32) (h : Emitting polynomial x n s k)
    (hi : i.csr.write = false) :
    Emitting polynomial x n (step s i) (k + (pipelineEnable s i).toNat) := by
  have hdecrement : decrementPayloadLengthCounter s i = pipelineEnable s i := by
    simp [decrementPayloadLengthCounter, pipelineEnable, h.infinite]
  constructor
  case le =>
    cases he : pipelineEnable s i with
    | false => simpa using h.le
    | true => exact h.lt_of_enable he
  case start =>
    simp only [step, h.clearStart_eq hn, loadStart, CsrAccess.loadsLane_eq_false hi, h.start]
    cases he : pipelineEnable s i with
    | false => simp
    | true =>
      have := h.lt_of_enable he
      by_cases hlast : k + 1 = n
      · simp [hlast]
      · simp [hlast]
        omega
  case seedGenerator =>
    simp [step, clearSeedGenerator, loadSeedGenerator, CsrAccess.loadsLane_eq_false hi,
      h.seedGenerator]
  case infinite =>
    simp [step, loadInfinitePayloadLength, CsrAccess.loadsLane_eq_false hi, h.infinite]
  case polynomial_eq => simpa [step, nextPolynomial_eq hi] using h.polynomial_eq
  case pipeline =>
    cases he : pipelineEnable s i with
    | false => simpa [step, h.seedGenerator, he] using h.pipeline
    | true => simp [step, h.seedGenerator, he, h.pipeline, h.polynomial_eq, iterate_succ]
  case payload =>
    cases he : pipelineEnable s i with
    | false =>
      simpa [step, loadPayloadLengthCounter, CsrAccess.loads_eq_false hi, hdecrement, he] using
        h.payload
    | true =>
      have := h.lt_of_enable he
      have hsplit : (n - k) * 2 ^ b = (n - (k + 1)) * 2 ^ b + 2 ^ b := by
        rw [← Nat.succ_mul, Nat.succ_eq_add_one]
        congr 1
        omega
      simp only [step, loadPayloadLengthCounter, CsrAccess.loads_eq_false hi, hdecrement, he,
        h.payload, hsplit, numOfSymbols_word, BitVec.ofNat_add, Bool.false_eq_true, if_false,
        if_true]
      exact BitVec.add_sub_cancel _ _
  case emitted =>
    intro he
    have he' : pipelineEnable s i = true := he
    simp [step, he', h.pipeline]

/-- The pipeline is enabled with every ready cycle until no word is left. -/
theorem enable_eq (h : Emitting polynomial x n s k) :
    pipelineEnable s i = (i.srcReady && decide (k < n)) := by
  rw [pipelineEnable, h.start, Bool.and_comm]

end Emitting

/-- The generator from its start on, with a payload of `n` words and without a write to its
registers. -/
def circuit (polynomial : BitVec 128) (x : Word b) (n : ℕ) :
    Circuit (State (8 * 2 ^ b)) Inputs where
  init s := ∃ length : BitVec 32, length.toNat = n * 2 ^ b ∧ Started length polynomial x s
  admits _ i := i.csr.write = false
  step := step

/-- A write of the run bit to a stopped generator starts it. -/
theorem started_of_write {s : State (8 * 2 ^ b)} {i : Inputs} (hs : s.start = false)
    (hload : loadStart i = true) (hrun : i.csr.writedata.getLsbD 24 = true)
    (hseed : (step s i).seedGenerator = false)
    (hfinite : (step s i).infinitePayloadLength = false) :
    Started (step s i).payloadLengthCounter (step s i).polynomial (step s i).pipeline
      (step s i) where
  start := by simp [step, clearStart, hs, hload, hrun]
  seedGenerator := hseed
  infinite := hfinite
  payload := rfl
  polynomial_eq := rfl
  pipeline := rfl
  pipelineEnableD1 := by simp [step, pipelineEnable, hs]

section Execution

variable {polynomial : BitVec 128} {x : Word b} {n : ℕ} {st : ℕ → State (8 * 2 ^ b)}
  {i : ℕ → Inputs}

/-- The number of cycles before cycle `t` in which the sink is ready. -/
def readyCount (i : ℕ → Inputs) (t : ℕ) : ℕ := Nat.count (fun t => (i t).srcReady = true) t

def enableCount (st : ℕ → State (8 * 2 ^ b)) (i : ℕ → Inputs) (t : ℕ) : ℕ :=
  Nat.count (fun t => pipelineEnable (st t) (i t) = true) t

/-- A run of `n` words from the pipeline `x`.  Each enabled cycle sends the next iterate a cycle
later; as many words as ready cycles are sent, up to `n`, with the last of which the run ends. -/
structure Emits (polynomial : BitVec 128) (x : Word b) (n : ℕ) (st : ℕ → State (8 * 2 ^ b))
    (i : ℕ → Inputs) : Prop where
  valid : ∀ t, srcValid (st (t + 1)) = ((st t).start && (i t).srcReady)
  emitted : ∀ t, collected (fun t => srcValid (st (t + 1))) (fun t => srcData (st (t + 1))) t =
    (List.range (min n (readyCount i t))).map fun k => byteReversal (iterate polynomial x k)
  start : ∀ t, (st t).start = decide (readyCount i t < n)
  payload : ∀ t, (st t).payloadLengthCounter.toNat = (n - min n (readyCount i t)) * 2 ^ b
  pipeline : ∀ t, (st t).pipeline = iterate polynomial x (min n (readyCount i t))

theorem emitting (hn : 0 < n) (he : (circuit polynomial x n).Execution st i) (t : ℕ) :
    n * 2 ^ b < 2 ^ 32 ∧ Emitting polynomial x n (st t) (enableCount st i t) := by
  obtain ⟨length, hlength, hstarted⟩ := he.init
  have hfit : n * 2 ^ b < 2 ^ 32 := hlength ▸ length.isLt
  refine ⟨hfit, ?_⟩
  induction t with
  | zero => exact hstarted.emitting hn hlength
  | succ t ih =>
    have hcount : enableCount st i (t + 1) =
        enableCount st i t + (pipelineEnable (st t) (i t)).toNat := count_add_toNat _ t
    rw [hcount, he.step]
    exact ih.next hfit (he.admits t)

theorem enableCount_eq (hrun : ∀ t, Emitting polynomial x n (st t) (enableCount st i t)) (t : ℕ) :
    enableCount st i t = min n (readyCount i t) := by
  refine count_eq_min (p := fun t => pipelineEnable (st t) (i t))
    (q := fun t => (i t).srcReady) (fun t => ?_) t
  simp only [(hrun t).enable_eq, Bool.and_eq_true, decide_eq_true_iff]
  rfl

/-- A started generator sends exactly the first `n` iterates of its pipeline. -/
theorem execution_emits (hn : 0 < n) (he : (circuit polynomial x n).Execution st i) :
    Emits polynomial x n st i := by
  have hrun (t : ℕ) := (emitting hn he t).2
  have hvalid (t : ℕ) : srcValid (st (t + 1)) = pipelineEnable (st t) (i t) := by
    rw [he.step]
    rfl
  constructor
  case valid => exact hvalid
  case emitted =>
    intro t
    simp only [hvalid, ← enableCount_eq hrun]
    refine collected_eq_map fun t _ henable => ?_
    have hnext := hrun (t + 1)
    have hcount : enableCount st i (t + 1) = enableCount st i t + 1 := by
      simp only [enableCount, Nat.count_succ, henable, if_true]
    obtain ⟨-, hdata⟩ := hnext.srcData_eq (by rw [hvalid, henable])
    rw [hdata, hcount, Nat.add_sub_cancel]
    rfl
  case start =>
    intro t
    rw [(hrun t).start, enableCount_eq hrun]
    simp
  case payload =>
    intro t
    have hle : (n - enableCount st i t) * 2 ^ b ≤ n * 2 ^ b :=
      Nat.mul_le_mul_right _ (Nat.sub_le _ _)
    have hfit := (emitting hn he t).1
    rw [(hrun t).payload, ← enableCount_eq hrun, BitVec.toNat_ofNat, Nat.mod_eq_of_lt (by omega)]
  case pipeline =>
    intro t
    rw [(hrun t).pipeline, enableCount_eq hrun]

end Execution

/-- A generator that is stopped, with a payload of two words of 16 bits. -/
def stopped : State (8 * 2 ^ 1) := { reset with payloadLengthCounter := 4#_ }

/-- The write of the run bit. -/
def run : Inputs := ⟨⟨2#_, false, true, 0x01000000#_, 0b1000#_⟩, true⟩

/-- The sink is ready in every other cycle. -/
def everyOther (t : ℕ) : Inputs := ⟨.none, t % 2 == 0⟩

theorem emits_everyOther :
    Emits (b := 1) (polynomialResetValue 16) (seedValue 16) 2
      (trajectory step (step stopped run) everyOther) everyOther := by
  refine execution_emits (by decide) (Circuit.execution_trajectory ?_ fun _ _ => rfl)
  exact ⟨4#_, rfl, started_of_write (s := stopped) (i := run) rfl rfl rfl rfl rfl⟩

end AvalonCores.MemoryTester.PrbsPatternGenerator
