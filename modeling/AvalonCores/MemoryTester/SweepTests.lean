import Mathlib.Tactic
import AvalonCores.MemoryTester.StartTest
import AvalonCores.MemoryTester.TestSweep

/-! The tests of a sweep: with settings that suit both masters, minima above the 32 bytes that the
setters refuse, and a sweep that settles, each call of `start_test` begins a test, and its transfer
is one of whole bursts. -/

namespace AvalonCores.MemoryTester.TestSweep

open Sync RamTestController

variable {b : ℕ}

/-- The settings and the base address of the memory suit the master `p`: the minima and the base are
multiples of a full burst, where `settings.h` asks for multiples of a word only. -/
structure Settings.Suits (c : Settings) (ramBase : BitVec 64) (p : MasterParams b) : Prop where
  base_dvd : p.maxBurstCount * 2 ^ b ∣ ramBase.toNat
  blockSize_dvd : p.maxBurstCount * 2 ^ b ∣ c.blockSizeMinimum.toNat
  ramLength_dvd : p.maxBurstCount * 2 ^ b ∣ c.ramLengthMinimum.toNat
  blockSize_max : c.blockSizeMaximum.toNat < 2 ^ p.lengthWidth
  within : ramBase.toNat + c.ramLengthMaximum.toNat ≤ 2 ^ p.addressWidth

section Invariant

variable (c : Settings) (n : ℕ) (hi : BitVec 32) (s : State)

def BlockSizeIn (hi : ℕ) : Prop :=
  c.blockSizeMinimum.toNat ≤ s.blockSizeCounter.toNat ∧ s.blockSizeCounter.toNat ≤ hi ∧
    2 ^ n ∣ s.blockSizeCounter.toNat

def TrailIn (hi : ℕ) : Prop :=
  c.blockTrailDistanceMinimum.toNat ≤ s.blockTrailDistanceCounter.toNat ∧
    s.blockTrailDistanceCounter.toNat ≤ hi

/-- The ranges of the counters: a loop leaves its own range once, when it doubles its counter for
the last time.  The counters are multiples of the same power of two as the minima. -/
def InLoops : Prop :=
  match s.point with
  | .blockSizeLoop => BlockSizeIn c n s (2 * c.blockSizeMaximum.toNat)
  | .blockTrailDistanceLoop => BlockSizeIn c n s c.blockSizeMaximum.toNat ∧
      TrailIn c s (2 * c.blockTrailDistanceMaximum.toNat)
  | .lengthLoop | .test => BlockSizeIn c n s c.blockSizeMaximum.toNat ∧
      TrailIn c s c.blockTrailDistanceMaximum.toNat ∧ 2 ^ n ∣ s.lengthCounter.toNat
  | .done => True

variable {c n s} {results : ℕ → ℤ}

theorem Starts.inLoops (hs : Starts c s) (hc : c.Valid)
    (hblock : 2 ^ n ∣ c.blockSizeMinimum.toNat) : InLoops c n s := by
  have hle : c.blockSizeMinimum.toNat ≤ c.blockSizeMaximum.toNat := hc.blockSize_le
  rw [InLoops, hs.point]
  simp only [BlockSizeIn, hs.blockSizeCounter]
  exact ⟨le_refl _, by omega, hblock⟩

/-- A length that wraps stays a multiple of a power of two. -/
theorem dvd_double {x : BitVec 32} (hn : n ≤ 32) (h : 2 ^ n ∣ x.toNat) :
    2 ^ n ∣ (x * 2#32).toNat := by
  rw [BitVec.toNat_mul, Nat.dvd_mod_iff (Nat.pow_dvd_pow 2 hn)]
  exact h.mul_right _

theorem InLoops.next (h : InLoops c n s) (hc : c.Valid) (hn : n ≤ 32)
    (hlength : 2 ^ n ∣ c.ramLengthMinimum.toNat) : InLoops c n (step c results s) := by
  have hblock : c.blockSizeMaximum.toNat ≤ 0x100000 := hc.blockSize_max
  have htrail : c.blockTrailDistanceMaximum.toNat ≤ 255 := hc.blockTrailDistance_max
  have hfirst : c.blockTrailDistanceMinimum.toNat ≤ c.blockTrailDistanceMaximum.toNat :=
    hc.blockTrailDistance_le
  unfold InLoops at h
  cases hp : s.point <;> simp only [hp] at h
  case blockSizeLoop =>
    by_cases henter : s.blockSizeCounter ≤ c.blockSizeMaximum ∧ s.failureDetected = 0
    · have hle : s.blockSizeCounter.toNat ≤ c.blockSizeMaximum.toNat := henter.1
      simp only [step, hp, if_pos henter]
      exact ⟨⟨h.1, hle, h.2.2⟩, le_refl _, by simp only; omega⟩
    · simp only [step, hp, if_neg henter]
      trivial
  case blockTrailDistanceLoop =>
    obtain ⟨hsize, hrange⟩ := h
    by_cases henter : s.blockTrailDistanceCounter ≤ c.blockTrailDistanceMaximum ∧
        s.failureDetected = 0
    · simp only [step, hp, if_pos henter]
      exact ⟨hsize, ⟨hrange.1, henter.1⟩, hlength⟩
    · have hdouble := toNat_double (x := s.blockSizeCounter)
        (by have := hsize.2.1; omega)
      simp only [step, hp, if_neg henter]
      refine ⟨?_, ?_, dvd_double hn hsize.2.2⟩
      · exact hdouble ▸ hsize.1.trans (by omega)
      · exact hdouble ▸ Nat.mul_le_mul_left 2 hsize.2.1
  case lengthLoop =>
    obtain ⟨hsize, hrange, hmultiple⟩ := h
    by_cases henter : s.lengthCounter ≤ c.ramLengthMaximum ∧ s.failureDetected = 0
    · simp only [step, hp, if_pos henter]
      exact ⟨hsize, hrange, hmultiple⟩
    · have hdouble := toNat_double (x := s.blockTrailDistanceCounter)
        (by have := hrange.2; omega)
      simp only [step, hp, if_neg henter]
      refine ⟨hsize, ?_, ?_⟩
      · exact hdouble ▸ hrange.1.trans (by omega)
      · exact hdouble ▸ Nat.mul_le_mul_left 2 hrange.2
  case test =>
    obtain ⟨hsize, hrange, hmultiple⟩ := h
    simp only [step, hp]
    exact ⟨hsize, hrange, dvd_double hn hmultiple⟩
  case done =>
    simp only [step, hp, InLoops]

theorem inLoops_iterate (hs : Starts c s) (hc : c.Valid) (hn : n ≤ 32)
    (hblock : 2 ^ n ∣ c.blockSizeMinimum.toNat) (hlength : 2 ^ n ∣ c.ramLengthMinimum.toNat)
    (k : ℕ) : InLoops c n ((step c results)^[k] s) := by
  induction k with
  | zero => exact hs.inLoops hc hblock
  | succ k ih =>
    rw [Function.iterate_succ_apply']
    exact ih.next hc hn hlength

end Invariant

section Tests

variable {c : Settings} {results : ℕ → ℤ} {s : State} {ramBase : BitVec 64}

/-- The transfer of a test. -/
def transfer (ramBase : BitVec 64) (s : State) : Transfer :=
  ⟨ramBase, s.lengthCounter, s.blockSizeCounter.setWidth 24⟩

theorem testable (hc : c.Valid) {p : MasterParams b} (hp : c.Suits ramBase p) (hs : Starts c s)
    (hsettles : Settles c results) {k : ℕ} (htest : ((step c results)^[k] s).point = .test) :
    (transfer ramBase ((step c results)^[k] s)).Testable p := by
  have hexp : p.maxBurstCount * 2 ^ b = 2 ^ (p.maxBurstCountLog2 + b) := by
    rw [MasterParams.maxBurstCount, Nat.pow_add]
  have hlt := p.maxBurstCount_lt
  have hloops : InLoops c (p.maxBurstCountLog2 + b) ((step c results)^[k] s) :=
    inLoops_iterate hs hc (by omega) (hexp ▸ hp.blockSize_dvd) (hexp ▸ hp.ramLength_dvd) k
  have hrange := (hsettles.sweeps hc hs).inRange k htest
  generalize (step c results)^[k] s = t at *
  rw [InLoops, htest] at hloops
  obtain ⟨⟨hblock, hblockMax, hblockDvd⟩, -, hlengthDvd⟩ := hloops
  have hblockPos : 0 < c.blockSizeMinimum.toNat := hc.blockSize_pos
  have hlengthPos : 0 < c.ramLengthMinimum.toNat := hc.ramLength_pos
  have hlength : c.ramLengthMinimum.toNat ≤ t.lengthCounter.toNat := hrange.1
  have hlengthMax : t.lengthCounter.toNat ≤ c.ramLengthMaximum.toNat := hrange.2
  have hmax : c.blockSizeMaximum.toNat ≤ 0x100000 := hc.blockSize_max
  have hsize : (transfer ramBase t).blockSize.toNat = t.blockSizeCounter.toNat := by
    rw [transfer, BitVec.toNat_setWidth, Nat.mod_eq_of_lt (by omega)]
  rw [← hexp] at hblockDvd hlengthDvd
  constructor
  case base_dvd => exact hp.base_dvd
  case length_dvd => exact hlengthDvd
  case block_dvd => rwa [hsize]
  case length_pos => exact hlengthPos.trans_le hlength
  case block_pos => omega
  case block_lt => exact hsize ▸ hblockMax.trans_lt hp.blockSize_max
  case within => exact (Nat.add_le_add_left hlengthMax _).trans hp.within

/-- The setters refuse no argument of a test of the sweep. -/
theorem accepts (hc : c.Valid) (hblock : 32#32 < c.blockSizeMinimum)
    (hlength : 32#32 < c.ramLengthMinimum) (hs : Starts c s) (hsettles : Settles c results) {k : ℕ}
    (htest : ((step c results)^[k] s).point = .test) :
    Accepts ((step c results)^[k] s).lengthCounter ((step c results)^[k] s).blockSizeCounter
      ((step c results)^[k] s).blockTrailDistanceCounter := by
  have hloops : InLoops c 0 ((step c results)^[k] s) :=
    inLoops_iterate hs hc (by omega) (by simp) (by simp) k
  have hrange := (hsettles.sweeps hc hs).inRange k htest
  generalize (step c results)^[k] s = t at *
  rw [InLoops, htest] at hloops
  obtain ⟨⟨hsize, -, -⟩, ⟨htrail, htrailMax⟩, -⟩ := hloops
  constructor
  case length => exact Nat.lt_of_lt_of_le (BitVec.lt_def.mp hlength) hrange.1
  case blockSize => exact Nat.lt_of_lt_of_le (BitVec.lt_def.mp hblock) hsize
  case trail =>
    have hmin : 1 ≤ c.blockTrailDistanceMinimum.toNat := hc.blockTrailDistance_pos
    have hmax : c.blockTrailDistanceMaximum.toNat ≤ 255 := hc.blockTrailDistance_max
    intro hzero
    have := congrArg BitVec.toNat hzero
    rw [BitVec.toNat_setWidth, Nat.mod_eq_of_lt (by omega)] at this
    exact absurd this (by simp only [BitVec.toNat_ofNat]; omega)

/-- A call of `startTest` for a test of the sweep, on a stopped controller, begins exactly one test,
and its transfer is one of whole bursts within the memory. -/
theorem sweep_begins_transferable (hc : c.Valid) {pw pr : MasterParams b}
    (hpw : c.Suits ramBase pw) (hpr : c.Suits ramBase pr) (hblock : 32#32 < c.blockSizeMinimum)
    (hlength : 32#32 < c.ramLengthMinimum) (hs : Starts c s) (hsettles : Settles c results) {k : ℕ}
    (htest : ((step c results)^[k] s).point = .test) {concurrentAccessEnable : BitVec 8}
    {t t' : RamTestController.State} {log log' : List Test} {a : ℤ} (ht : t.start = false)
    (hr : testPort.Runs (t, log)
      (startTest ramBase ((step c results)^[k] s).lengthCounter
        ((step c results)^[k] s).blockSizeCounter
        ((step c results)^[k] s).blockTrailDistanceCounter concurrentAccessEnable)
      (t', log') a) :
    a = 0 ∧ ∃ begun : Test, log' = log ++ [begun] ∧
      begun.transfer = transfer ramBase ((step c results)^[k] s) ∧
        Tester.Transferable pw pr begun.transfer := by
  have haccepts := accepts hc hblock hlength hs hsettles htest
  obtain ⟨ha, hlog⟩ := begun_of_accepts ht hr haccepts
  refine ⟨ha, _, hlog, rfl, ?_⟩
  exact ⟨testable hc hpw hs hsettles htest, testable hc hpr hs hsettles htest⟩

end Tests

/-- The first test of the boards, which has one block. -/
theorem sweep_begins_transferable_first :
    ∃ t' log' a, testPort.Runs (RamTestController.reset 10#16 32#24 1#8, [])
      (startTest 0#64 0x400#32 0x400#32 1#32 0#8) (t', log') a ∧ a = 0 ∧
        ∃ begun : Test, log' = [begun] ∧ begun.transfer = ⟨0#64, 0x400#32, 0x400#24⟩ ∧
          Tester.Transferable (b := 2) .shipped .shipped begun.transfer := by
  have hc : (settings 0x2000000#32).Valid := by constructor <;> decide
  have hsuits : (settings 0x2000000#32).Suits 0#64 (.shipped : MasterParams 2) := by
    constructor <;> decide
  obtain ⟨t', log', a, hr⟩ := oneBlock_runs
  have hfirst : Starts (settings 0x2000000#32) first := ⟨rfl, rfl, rfl, rfl⟩
  have hsettles : Settles (settings 0x2000000#32) fun _ => 0 := settles_of_lt hc _ (by decide)
  exact ⟨t', log', a, hr, sweep_begins_transferable hc hsuits hsuits (by decide) (by decide) hfirst
    hsettles (k := 3) (by decide) rfl hr⟩

end AvalonCores.MemoryTester.TestSweep
