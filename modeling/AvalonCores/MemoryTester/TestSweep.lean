import Mathlib.Tactic
import AvalonCores.Sync.Passage

/-! The loops of `main.c` that sweep a minor test over the block sizes, the block trail distances
and the lengths.  Their counters double in 32 bits until they exceed a maximum, which a length that
wraps may never do. -/

namespace AvalonCores.MemoryTester.TestSweep

open Sync

/-- The settings of `settings.h` that bound the loops. -/
structure Settings where
  blockSizeMinimum : BitVec 32
  blockSizeMaximum : BitVec 32
  blockTrailDistanceMinimum : BitVec 32
  blockTrailDistanceMaximum : BitVec 32
  ramLengthMinimum : BitVec 32
  ramLengthMaximum : BitVec 32
deriving DecidableEq, Repr

/-- The condition of one of the loops, the body of the innermost one, or the end. -/
inductive Point where
  | blockSizeLoop
  | blockTrailDistanceLoop
  | lengthLoop
  | test
  | done
deriving DecidableEq, Repr

structure State where
  point : Point
  blockSizeCounter : BitVec 32
  blockTrailDistanceCounter : BitVec 32
  lengthCounter : BitVec 32
  failureDetected : ℤ
  /-- The number of calls of `validate_results` that have returned. -/
  calls : ℕ
deriving DecidableEq, Repr

variable (c : Settings) (results : ℕ → ℤ)

/-- One condition of a loop, or one test, the call of `validate_results` in which returns the next
of the `results`.  The result of `start_test` is not looked at. -/
def step (s : State) : State :=
  match s.point with
  | .blockSizeLoop =>
    if s.blockSizeCounter ≤ c.blockSizeMaximum ∧ s.failureDetected = 0 then
      { s with
        point := .blockTrailDistanceLoop
        blockTrailDistanceCounter := c.blockTrailDistanceMinimum }
    else { s with point := .done }
  | .blockTrailDistanceLoop =>
    if s.blockTrailDistanceCounter ≤ c.blockTrailDistanceMaximum ∧ s.failureDetected = 0 then
      { s with point := .lengthLoop, lengthCounter := c.ramLengthMinimum }
    else { s with point := .blockSizeLoop, blockSizeCounter := s.blockSizeCounter * 2#32 }
  | .lengthLoop =>
    if s.lengthCounter ≤ c.ramLengthMaximum ∧ s.failureDetected = 0 then
      { s with point := .test }
    else
      { s with
        point := .blockTrailDistanceLoop
        blockTrailDistanceCounter := s.blockTrailDistanceCounter * 2#32 }
  | .test =>
    { s with
      point := .lengthLoop
      failureDetected := results s.calls
      lengthCounter := s.lengthCounter * 2#32
      calls := s.calls + 1 }
  | .done => s

/-- A minor test begins. -/
structure Starts (s : State) : Prop where
  point : s.point = .blockSizeLoop
  blockSizeCounter : s.blockSizeCounter = c.blockSizeMinimum
  failureDetected : s.failureDetected = 0
  calls : s.calls = 0

/-- A test uses a length in its range. -/
def InRange (s : State) : Prop :=
  s.point = .test → c.ramLengthMinimum ≤ s.lengthCounter ∧ s.lengthCounter ≤ c.ramLengthMaximum

/-- The sweep ends, and every test uses a length in its range. -/
structure Sweeps (s : State) : Prop where
  ends : ∃ n, ((step c results)^[n] s).point = .done
  inRange : ∀ n, InRange c ((step c results)^[n] s)

/-- What `settings.h` asks of the settings. -/
structure Settings.Valid : Prop where
  blockSize_pos : 0#32 < c.blockSizeMinimum
  blockSize_le : c.blockSizeMinimum ≤ c.blockSizeMaximum
  blockSize_max : c.blockSizeMaximum ≤ 0x100000#32
  blockTrailDistance_pos : 1#32 ≤ c.blockTrailDistanceMinimum
  blockTrailDistance_le : c.blockTrailDistanceMinimum ≤ c.blockTrailDistanceMaximum
  blockTrailDistance_max : c.blockTrailDistanceMaximum ≤ 255#32
  ramLength_pos : 0#32 < c.ramLengthMinimum
  ramLength_le : c.ramLengthMinimum ≤ c.ramLengthMaximum

/-- The length of test `k` of a loop. -/
def length (k : ℕ) : BitVec 32 := c.ramLengthMinimum * BitVec.ofNat 32 (2 ^ k)

/-- Before a length below the minimum comes one above the maximum, or a test that fails. -/
def Settles : Prop :=
  ∃ k, (∀ j < k, c.ramLengthMinimum ≤ length c j) ∧
    (c.ramLengthMaximum < length c k ∨ 0 < k ∧ results (k - 1) ≠ 0)

theorem length_zero : length c 0 = c.ramLengthMinimum := BitVec.mul_one _

theorem length_succ (k : ℕ) : length c (k + 1) = length c k * 2#32 := by
  rw [length, length, Nat.pow_succ, BitVec.ofNat_mul, BitVec.mul_assoc]

section Loops

variable {c} {results} {s : State} {b t : BitVec 32}

theorem inRange_of_ne (h : s.point ≠ .test) : InRange c s := fun ht => absurd ht h

theorem toNat_double {x : BitVec 32} (h : x.toNat < 2 ^ 31) : (x * 2#32).toNat = 2 * x.toNat := by
  rw [BitVec.toNat_mul, Nat.mod_eq_of_lt (by simp only [BitVec.toNat_ofNat]; omega),
    BitVec.toNat_ofNat, Nat.mul_comm]

/-- A loop over lengths that meets the maximum before a length out of range. -/
theorem lengthLoop_leads {k : ℕ} (hlast : c.ramLengthMaximum < length c k)
    (hrange : ∀ j < k, c.ramLengthMinimum ≤ length c j) (hp : s.point = .lengthLoop)
    (hlength : s.lengthCounter = c.ramLengthMinimum) :
    Leads (step c results) (InRange c) s fun s' => s'.point = .blockTrailDistanceLoop ∧
      s'.blockSizeCounter = s.blockSizeCounter ∧
      s'.blockTrailDistanceCounter = s.blockTrailDistanceCounter * 2#32 := by
  let I (n : ℕ) (s' : State) : Prop := s'.point = .lengthLoop ∧
    s'.blockSizeCounter = s.blockSizeCounter ∧
    s'.blockTrailDistanceCounter = s.blockTrailDistanceCounter ∧
    ∃ j, j + n = k ∧ s'.lengthCounter = length c j
  refine leads_of_variant (I := I) ?_ (n := k) ⟨hp, rfl, rfl, 0, Nat.zero_add k, ?_⟩
  · rintro n s' ⟨hp, hblock, htrail, j, hj, hlength⟩
    by_cases h : s'.lengthCounter ≤ c.ramLengthMaximum ∧ s'.failureDetected = 0
    · have hjk : j < k := by
        rcases Nat.lt_or_eq_of_le (by omega : j ≤ k) with hlt | rfl
        · exact hlt
        · rw [hlength, ← BitVec.not_lt] at h
          exact absurd hlast h.1
      refine .step_of (inRange_of_ne (by simp [hp])) (.step_of ?_ (leads_of (.inr ?_)))
      · simp only [step, hp, if_pos h]
        exact fun _ => ⟨hlength ▸ hrange j hjk, h.1⟩
      · simp only [step, hp, if_pos h]
        exact ⟨n - 1, by omega, rfl, hblock, htrail, j + 1, by omega, by
          rw [length_succ, ← hlength]⟩
    · refine .step_of (inRange_of_ne (by simp [hp])) (leads_of (.inl ?_))
      simp only [step, hp, if_neg h]
      exact ⟨trivial, hblock, congrArg (· * 2#32) htrail⟩
  · rw [hlength, length_zero]

/-- A loop over block trail distances, if each of its loops over lengths ends. -/
theorem blockTrailDistanceLoop_leads (hc : c.Valid)
    (hinner : ∀ s : State, s.point = .lengthLoop → s.lengthCounter = c.ramLengthMinimum →
      Leads (step c results) (InRange c) s fun s' => s'.point = .blockTrailDistanceLoop ∧
        s'.blockSizeCounter = s.blockSizeCounter ∧
        s'.blockTrailDistanceCounter = s.blockTrailDistanceCounter * 2#32)
    (hp : s.point = .blockTrailDistanceLoop) (hpos : 0 < s.blockTrailDistanceCounter.toNat) :
    Leads (step c results) (InRange c) s fun s' => s'.point = .blockSizeLoop ∧
      s'.blockSizeCounter = s.blockSizeCounter * 2#32 := by
  let I (n : ℕ) (s' : State) : Prop := s'.point = .blockTrailDistanceLoop ∧
    s'.blockSizeCounter = s.blockSizeCounter ∧ 0 < s'.blockTrailDistanceCounter.toNat ∧
    c.blockTrailDistanceMaximum.toNat + 1 - s'.blockTrailDistanceCounter.toNat = n
  refine leads_of_variant (I := I) ?_ ⟨hp, rfl, hpos, rfl⟩
  rintro n s' ⟨hp, hblock, hpos, hn⟩
  refine .step_of (inRange_of_ne (by simp [hp])) ?_
  by_cases h : s'.blockTrailDistanceCounter ≤ c.blockTrailDistanceMaximum ∧ s'.failureDetected = 0
  · simp only [step, hp, if_pos h]
    refine (hinner _ rfl rfl).bind fun t ⟨hp, hblock', htrail⟩ => leads_of (.inr ?_)
    have hle : s'.blockTrailDistanceCounter.toNat ≤ c.blockTrailDistanceMaximum.toNat := h.1
    have hmax : c.blockTrailDistanceMaximum.toNat ≤ 255 := hc.blockTrailDistance_max
    have hdouble := toNat_double (by omega : s'.blockTrailDistanceCounter.toNat < 2 ^ 31)
    rw [← htrail] at hdouble
    exact ⟨_, by omega, hp, hblock'.trans hblock, by omega, rfl⟩
  · simp only [step, hp, if_neg h]
    exact leads_of (.inl ⟨rfl, congrArg (· * 2#32) hblock⟩)

/-- The loop over block sizes, if each of the loops over lengths in it ends. -/
theorem blockSizeLoop_leads (hc : c.Valid)
    (hinner : ∀ s : State, s.point = .lengthLoop → s.lengthCounter = c.ramLengthMinimum →
      Leads (step c results) (InRange c) s fun s' => s'.point = .blockTrailDistanceLoop ∧
        s'.blockSizeCounter = s.blockSizeCounter ∧
        s'.blockTrailDistanceCounter = s.blockTrailDistanceCounter * 2#32)
    (hp : s.point = .blockSizeLoop) (hpos : 0 < s.blockSizeCounter.toNat) :
    Leads (step c results) (InRange c) s fun s' => s'.point = .done := by
  let I (n : ℕ) (s' : State) : Prop := s'.point = .blockSizeLoop ∧
    0 < s'.blockSizeCounter.toNat ∧ c.blockSizeMaximum.toNat + 1 - s'.blockSizeCounter.toNat = n
  refine leads_of_variant (I := I) ?_ ⟨hp, hpos, rfl⟩
  rintro n s' ⟨hp, hpos, hn⟩
  refine .step_of (inRange_of_ne (by simp [hp])) ?_
  by_cases h : s'.blockSizeCounter ≤ c.blockSizeMaximum ∧ s'.failureDetected = 0
  · simp only [step, hp, if_pos h]
    have hfirst : 0 < c.blockTrailDistanceMinimum.toNat := hc.blockTrailDistance_pos
    refine (blockTrailDistanceLoop_leads hc hinner rfl hfirst).bind fun t ⟨hp, hblock⟩ =>
      leads_of (.inr ?_)
    have hle : s'.blockSizeCounter.toNat ≤ c.blockSizeMaximum.toNat := h.1
    have hmax : c.blockSizeMaximum.toNat ≤ 0x100000 := hc.blockSize_max
    have hdouble := toNat_double (by omega : s'.blockSizeCounter.toNat < 2 ^ 31)
    rw [← hblock] at hdouble
    exact ⟨_, by omega, hp, by omega, rfl⟩
  · simp only [step, hp, if_neg h]
    exact leads_of (.inl rfl)

/-- A test that fails ends the sweep. -/
theorem failed_leads (hp : s.point = .lengthLoop) (hfailed : s.failureDetected ≠ 0) :
    Leads (step c results) (InRange c) s fun s' => s'.point = .done := by
  refine .step_of (inRange_of_ne (by simp [hp])) ?_
  simp only [step, hp, hfailed, and_false, if_false]
  refine .step_of (inRange_of_ne (by simp)) ?_
  simp only [step, hfailed, and_false, if_false]
  refine .step_of (inRange_of_ne (by simp)) ?_
  simp only [step, hfailed, and_false, if_false]
  exact leads_of rfl

end Loops

section FirstLoop

variable {c} {results} {s : State} {k : ℕ}

/-- The condition of the first loop over lengths, after `k` tests. -/
structure InFirstLoop (c : Settings) (k : ℕ) (s : State) : Prop where
  point : s.point = .lengthLoop
  lengthCounter : s.lengthCounter = length c k
  calls : s.calls = k

theorem Starts.inFirstLoop (hs : Starts c s) (hc : c.Valid) (results : ℕ → ℤ) :
    (step c results s).point = .blockTrailDistanceLoop ∧
      InFirstLoop c 0 (step c results (step c results s)) ∧
      (step c results (step c results s)).failureDetected = 0 := by
  have hblock : s.blockSizeCounter ≤ c.blockSizeMaximum ∧ s.failureDetected = 0 :=
    ⟨hs.blockSizeCounter ▸ hc.blockSize_le, hs.failureDetected⟩
  have htrail := hc.blockTrailDistance_le
  have hfirst : step c results s = { s with
      point := .blockTrailDistanceLoop
      blockTrailDistanceCounter := c.blockTrailDistanceMinimum } := by
    simp only [step, hs.point, if_pos hblock]
  have hsecond : step c results (step c results s) = { s with
      point := .lengthLoop
      blockTrailDistanceCounter := c.blockTrailDistanceMinimum
      lengthCounter := c.ramLengthMinimum } := by
    rw [hfirst]
    simp only [step, htrail, hs.failureDetected, and_self, if_true]
  rw [hsecond, hfirst]
  exact ⟨rfl, ⟨rfl, (length_zero c).symm, hs.calls⟩, hs.failureDetected⟩

/-- A test of the first loop, which takes two steps. -/
theorem InFirstLoop.next (h : InFirstLoop c k s) (results : ℕ → ℤ)
    (hle : length c k ≤ c.ramLengthMaximum) (hpassed : s.failureDetected = 0) :
    (step c results s).point = .test ∧ (step c results s).lengthCounter = length c k ∧
      InFirstLoop c (k + 1) (step c results (step c results s)) ∧
      (step c results (step c results s)).failureDetected = results k := by
  have henter : s.lengthCounter ≤ c.ramLengthMaximum ∧ s.failureDetected = 0 :=
    ⟨h.lengthCounter ▸ hle, hpassed⟩
  have hfirst : step c results s = { s with point := .test } := by
    simp only [step, h.point, if_pos henter]
  rw [hfirst]
  refine ⟨rfl, h.lengthCounter, ⟨rfl, ?_, congrArg (· + 1) h.calls⟩, congrArg results h.calls⟩
  rw [length_succ, ← h.lengthCounter]
  rfl

theorem done_iterate (h : s.point = .done) (n : ℕ) : (step c results)^[n] s = s :=
  Function.iterate_fixed (by simp only [step, h]) n

/-- A sweep that ends in range meets the maximum or a failure before a length out of range. -/
theorem Sweeps.settles (h : Sweeps c results s) (hc : c.Valid) (hs : Starts c s) :
    Settles c results := by
  by_contra hnot
  simp only [Settles, not_exists, not_and, not_or, BitVec.not_lt, ne_eq, not_not] at hnot
  -- The first loop over lengths never ends.
  have hfirst (k : ℕ) : (∀ j < k, c.ramLengthMinimum ≤ length c j) ∧
      InFirstLoop c k ((step c results)^[2 * k + 2] s) ∧
      ((step c results)^[2 * k + 2] s).failureDetected = 0 := by
    induction k with
    | zero => exact ⟨fun j hj => absurd hj (Nat.not_lt_zero j), (hs.inFirstLoop hc results).2⟩
    | succ k ih =>
      obtain ⟨hrange, hloop, hpassed⟩ := ih
      obtain ⟨htest, hlength, hnext, hresult⟩ := hloop.next results (hnot k hrange).1 hpassed
      rw [← Function.iterate_succ_apply' (step c results)] at htest hlength
      have hrange' : ∀ j < k + 1, c.ramLengthMinimum ≤ length c j := by
        intro j hj
        rcases Nat.lt_succ_iff_lt_or_eq.mp hj with hlt | rfl
        · exact hrange j hlt
        · exact hlength ▸ (h.inRange _ htest).1
      rw [show 2 * (k + 1) + 2 = (2 * k + 2) + 1 + 1 from rfl, Function.iterate_succ_apply',
        Function.iterate_succ_apply']
      exact ⟨hrange', hnext, hresult.trans ((hnot (k + 1) hrange').2 k.succ_pos)⟩
  obtain ⟨n, hdone⟩ := h.ends
  have hlate := (hfirst n).2.1.point
  rw [show 2 * n + 2 = (n + 2) + n by omega, Function.iterate_add_apply, done_iterate hdone,
    hdone] at hlate
  contradiction

/-- A first loop in which a test fails before a length out of range. -/
theorem InFirstLoop.leads (hrange : ∀ j < k, c.ramLengthMinimum ≤ length c j)
    (hle : ∀ j ≤ k, length c j ≤ c.ramLengthMaximum) (hk : 0 < k) (hfails : results (k - 1) ≠ 0)
    (h : InFirstLoop c 0 s) :
    Leads (step c results) (InRange c) s fun s' =>
      s'.point = .lengthLoop ∧ s'.failureDetected ≠ 0 := by
  let I (n : ℕ) (s' : State) : Prop := ∃ j, j + n = k ∧ InFirstLoop c j s' ∧
    (n = 0 → s'.failureDetected ≠ 0)
  refine leads_of_variant (I := I) ?_ ⟨0, Nat.zero_add k, h, by omega⟩
  rintro n s' ⟨j, hj, hloop, hlast⟩
  by_cases hpassed : s'.failureDetected = 0
  · have hn : n ≠ 0 := fun hn => hlast hn hpassed
    obtain ⟨htest, hlength, hnext, hresult⟩ := hloop.next results (hle j (by omega)) hpassed
    refine .step_of (inRange_of_ne (by simp [hloop.point])) (.step_of ?_ (leads_of (.inr ?_)))
    · exact fun _ => hlength ▸ ⟨hrange j (by omega), hle j (by omega)⟩
    · refine ⟨n - 1, by omega, j + 1, by omega, hnext, fun hn' => ?_⟩
      rwa [hresult, show j = k - 1 by omega]
  · exact leads_of (.inl ⟨hloop.point, hpassed⟩)

theorem sweeps_of_leads
    (h : Leads (step c results) (InRange c) s fun s' => s'.point = .done) :
    Sweeps c results s := by
  obtain ⟨s', hpass, hdone⟩ := h
  constructor
  · obtain ⟨n, rfl⟩ := hpass.exists_iterate
    exact ⟨n, hdone⟩
  · refine hpass.forall_iterate ?_ (inRange_of_ne (by simp [hdone]))
    simp only [step, hdone]

theorem Settles.sweeps (h : Settles c results) (hc : c.Valid) (hs : Starts c s) :
    Sweeps c results s := by
  obtain ⟨k, hrange, hend⟩ := h
  refine sweeps_of_leads ?_
  by_cases hmax : ∃ j ≤ k, c.ramLengthMaximum < length c j
  · obtain ⟨j, hj, hlast⟩ := hmax
    have hpos : 0 < s.blockSizeCounter.toNat := by
      rw [hs.blockSizeCounter]
      exact hc.blockSize_pos
    exact blockSizeLoop_leads hc
      (fun s' => lengthLoop_leads hlast fun i hi => hrange i (by omega)) hs.point hpos
  · have hle (j : ℕ) (hj : j ≤ k) : length c j ≤ c.ramLengthMaximum := by
      rw [← BitVec.not_lt]
      exact fun hlt => hmax ⟨j, hj, hlt⟩
    obtain ⟨hk, hfails⟩ := hend.resolve_left fun hlt => hmax ⟨k, le_rfl, hlt⟩
    obtain ⟨hsecond, hloop, -⟩ := hs.inFirstLoop hc results
    refine .step_of (inRange_of_ne (by simp [hs.point])) ?_
    refine .step_of (inRange_of_ne (by simp [hsecond])) ?_
    refine (hloop.leads hrange hle hk hfails).bind fun s' ⟨hp, hfailed⟩ => ?_
    exact failed_leads hp hfailed

end FirstLoop

/-- Below 2 GiB no length wraps before it exceeds the maximum. -/
theorem settles_of_lt {c : Settings} (hc : c.Valid) (results : ℕ → ℤ)
    (h : c.ramLengthMaximum.toNat < 2 ^ 31) : Settles c results := by
  have hpos : 0 < c.ramLengthMinimum.toNat := hc.ramLength_pos
  have hexceeds : ∃ k, c.ramLengthMaximum.toNat < c.ramLengthMinimum.toNat * 2 ^ k :=
    ⟨c.ramLengthMaximum.toNat, Nat.lt_two_pow_self.trans_le (Nat.le_mul_of_pos_left _ hpos)⟩
  have hlast := Nat.find_spec hexceeds
  have hbefore (j : ℕ) (hj : j < Nat.find hexceeds) :
      c.ramLengthMinimum.toNat * 2 ^ j ≤ c.ramLengthMaximum.toNat :=
    Nat.le_of_not_lt (Nat.find_min hexceeds hj)
  have hlength (j : ℕ) (hj : c.ramLengthMinimum.toNat * 2 ^ j < 2 ^ 32) :
      (length c j).toNat = c.ramLengthMinimum.toNat * 2 ^ j := by
    rw [length, BitVec.toNat_mul, BitVec.toNat_ofNat, Nat.mul_mod_mod, Nat.mod_eq_of_lt hj]
  generalize Nat.find hexceeds = k at hlast hbefore
  refine ⟨k, fun j hj => ?_, .inl ?_⟩
  · rw [BitVec.le_def, hlength j (by have := hbefore j hj; omega)]
    exact Nat.le_mul_of_pos_right _ (Nat.two_pow_pos j)
  · have hfit : c.ramLengthMinimum.toNat * 2 ^ k < 2 ^ 32 := by
      cases k with
      | zero =>
        rw [Nat.pow_zero, Nat.mul_one]
        exact c.ramLengthMinimum.isLt
      | succ k =>
        have := hbefore k (Nat.lt_succ_self k)
        rw [Nat.pow_succ, ← Nat.mul_assoc]
        omega
    rw [BitVec.lt_def, hlength k hfit]
    exact hlast

/-- The sweep ends with every length in range exactly when a length above the maximum, or a test
that fails, comes before a length that has wrapped below the minimum. -/
theorem sweeps_iff {c : Settings} (hc : c.Valid) {s : State} (hs : Starts c s) (results : ℕ → ℤ) :
    Sweeps c results s ↔ Settles c results :=
  ⟨fun h => h.settles hc hs, fun h => h.sweeps hc hs⟩

/-- The settings of the boards, but for the span of the memory. -/
def settings (ramSpan : BitVec 32) : Settings where
  blockSizeMinimum := 0x400#32
  blockSizeMaximum := 0x100000#32
  blockTrailDistanceMinimum := 1#32
  blockTrailDistanceMaximum := 255#32
  ramLengthMinimum := 0x400#32
  ramLengthMaximum := ramSpan

def first : State := ⟨.blockSizeLoop, 0x400#32, 0#32, 0#32, 0, 0⟩

theorem sweeps_cycloneIII : Sweeps (settings 0x2000000#32) (fun _ => 0) first := by
  have hc : (settings 0x2000000#32).Valid := by constructor <;> decide
  exact (sweeps_iff hc ⟨rfl, rfl, rfl, rfl⟩ _).mpr (settles_of_lt hc _ (by decide))

/-- With 2 GiB the lengths double from `2 ^ 31` to 0, where they stay. -/
theorem not_sweeps_twoGiB :
    (settings 0x80000000#32).Valid ∧ Starts (settings 0x80000000#32) first ∧
      ¬ Sweeps (settings 0x80000000#32) (fun _ => 0) first := by
  have hc : (settings 0x80000000#32).Valid := by constructor <;> decide
  have hs : Starts (settings 0x80000000#32) first := ⟨rfl, rfl, rfl, rfl⟩
  refine ⟨hc, hs, fun h => ?_⟩
  obtain ⟨k, hrange, hlast | ⟨-, hfails⟩⟩ := h.settles hc hs
  · have hk : k ≤ 22 := by
      by_contra hlt
      exact absurd (hrange 22 (by omega)) (by decide)
    interval_cases k <;> exact absurd hlast (by decide)
  · exact hfails rfl

end AvalonCores.MemoryTester.TestSweep
