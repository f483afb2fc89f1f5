import Mathlib.Tactic
import AvalonCores.Sync.Execution

/-! The clock divider `i2c_clocking`.  Its counter is compared for equality with one of two terminal
values, so that it passes both when `select_clk_400k` is high in the cycle in which it shows the
higher one, and then goes on to its wrap at 512. -/

namespace AvalonCores.De0Nano.I2cClocking

open Sync

structure State where
  clkCount : BitVec 9
  sclk : Bool
deriving DecidableEq, Repr

structure Inputs where
  reset : Bool
  selectClk400k : Bool
deriving DecidableEq, Repr

variable (s : State) (i : Inputs)

def clkCountDone : Bool :=
  if i.selectClk400k then s.clkCount == 125#9 else s.clkCount == 500#9

def step : State where
  clkCount :=
    if i.reset then 0#9
    else if clkCountDone s i then 0#9
    else s.clkCount + 1#9
  sclk :=
    if i.reset then false
    else if clkCountDone s i then !s.sclk
    else s.sclk

/-- The divider from its reset on, without another one. -/
def circuit : Circuit State Inputs where
  init s := ∃ t i, i.reset = true ∧ s = step t i
  admits _ i := i.reset = false
  step := step

/-- The clock changes with the edge after cycle `t`. -/
def Toggles (st : ℕ → State) (t : ℕ) : Prop := (st (t + 1)).sclk ≠ (st t).sclk

/-- Two successive changes of the clock are 126 to 501 cycles apart, and there is one in any 501
successive cycles.  `toggles` says more than that the clock is never stretched between two changes:
it keeps changing. -/
structure Clocks (st : ℕ → State) : Prop where
  apart : ∀ t u, Toggles st t → Toggles st u → t < u → (∀ k, t < k → k < u → ¬ Toggles st k) →
    t + 126 ≤ u ∧ u ≤ t + 501
  toggles : ∀ t, ∃ u, t ≤ u ∧ u ≤ t + 500 ∧ Toggles st u

section Execution

variable {st : ℕ → State} {i : ℕ → Inputs} {t d : ℕ}

theorem toggles_iff (he : circuit.Execution st i) (t : ℕ) :
    Toggles st t ↔ clkCountDone (st t) (i t) = true := by
  have hreset : (i t).reset = false := he.admits t
  rw [Toggles, he.step]
  cases hdone : clkCountDone (st t) (i t) <;> simp [circuit, step, hreset, hdone]

theorem clkCount_of_toggles (he : circuit.Execution st i) (h : Toggles st t) :
    (st (t + 1)).clkCount.toNat = 0 := by
  have hreset : (i t).reset = false := he.admits t
  rw [he.step]
  simp [circuit, step, hreset, (toggles_iff he t).mp h]

theorem clkCount_succ (he : circuit.Execution st i) (h : ¬ Toggles st t) :
    (st (t + 1)).clkCount.toNat = ((st t).clkCount.toNat + 1) % 512 := by
  have hreset : (i t).reset = false := he.admits t
  have hdone : clkCountDone (st t) (i t) = false := by
    rwa [toggles_iff he, Bool.not_eq_true] at h
  rw [he.step]
  simp [circuit, step, hreset, hdone]

/-- A change happens at one of the two terminal values. -/
theorem clkCount_terminal (he : circuit.Execution st i) (h : Toggles st t) :
    (st t).clkCount.toNat = 125 ∨ (st t).clkCount.toNat = 500 := by
  have hdone := (toggles_iff he t).mp h
  rw [clkCountDone] at hdone
  split at hdone
  · rw [beq_iff_eq] at hdone
    exact .inl (by rw [hdone]; rfl)
  · rw [beq_iff_eq] at hdone
    exact .inr (by rw [hdone]; rfl)

/-- Without a change, the counter counts the cycles. -/
theorem clkCount_add (he : circuit.Execution st i) (d : ℕ)
    (hquiet : ∀ k, t ≤ k → k < t + d → ¬ Toggles st k)
    (hfit : (st t).clkCount.toNat + d < 512) :
    (st (t + d)).clkCount.toNat = (st t).clkCount.toNat + d := by
  induction d with
  | zero => rfl
  | succ d ih =>
    have hd := ih (fun k hk hkd => hquiet k hk (by omega)) (by omega)
    rw [← Nat.add_assoc, clkCount_succ he (hquiet (t + d) (by omega) (by omega)), hd,
      Nat.mod_eq_of_lt (by omega)]
    omega

/-- The counter goes on while it differs from the terminal value that is selected. -/
theorem clkCount_on (he : circuit.Execution st i) (d : ℕ)
    (hmiss : ∀ k < d,
      (st t).clkCount.toNat + k ≠ if (i (t + k)).selectClk400k then 125 else 500)
    (hfit : (st t).clkCount.toNat + d < 512) :
    (st (t + d)).clkCount.toNat = (st t).clkCount.toNat + d ∧ ∀ k < d, ¬ Toggles st (t + k) := by
  induction d with
  | zero => exact ⟨rfl, fun k hk => absurd hk (Nat.not_lt_zero k)⟩
  | succ d ih =>
    obtain ⟨hd, hquiet⟩ := ih (fun k hk => hmiss k (by omega)) (by omega)
    have hlast : ¬ Toggles st (t + d) := by
      have hne := hmiss d (Nat.lt_succ_self d)
      rw [toggles_iff he, clkCountDone]
      split at hne
      · rename_i hselect
        rw [if_pos hselect, beq_iff_eq, ← BitVec.toNat_inj, hd]
        exact hne
      · rename_i hselect
        rw [if_neg hselect, beq_iff_eq, ← BitVec.toNat_inj, hd]
        exact hne
    refine ⟨?_, fun k hk => ?_⟩
    · rw [← Nat.add_assoc, clkCount_succ he hlast, hd, Nat.mod_eq_of_lt (by omega)]
      omega
    · rcases Nat.lt_succ_iff_lt_or_eq.mp hk with hlt | rfl
      · exact hquiet k hlt
      · exact hlast

/-- What the counter shows are the cycles without a change before. -/
theorem quiet_of_clkCount (he : circuit.Execution st i) (c t : ℕ)
    (hc : (st t).clkCount.toNat = c) :
    c ≤ t ∧ ∀ k, t ≤ k + c → k < t → ¬ Toggles st k := by
  induction c generalizing t with
  | zero => exact ⟨Nat.zero_le t, fun k hk hkt => absurd hkt (by omega)⟩
  | succ c ih =>
    cases t with
    | zero =>
      obtain ⟨s, j, hj, hst⟩ := he.init
      simp [hst, step, hj] at hc
    | succ t =>
      have hquiet : ¬ Toggles st t := by
        intro htoggles
        rw [clkCount_of_toggles he htoggles] at hc
        omega
      have hlt := (st t).clkCount.isLt
      rw [clkCount_succ he hquiet] at hc
      obtain ⟨hle, hbefore⟩ := ih t (by omega)
      refine ⟨by omega, fun k hk hkt => ?_⟩
      rcases Nat.lt_succ_iff_lt_or_eq.mp hkt with hlt | rfl
      · exact hbefore k (by omega) hlt
      · exact hquiet

/-- The select input is low in every cycle in which the counter shows the higher terminal value. -/
def SelectsLow (st : ℕ → State) (i : ℕ → Inputs) : Prop :=
  ∀ t, (st t).clkCount = 500#9 → (i t).selectClk400k = false

theorem SelectsLow.toggles (he : circuit.Execution st i) (h : SelectsLow st i)
    (hc : (st t).clkCount.toNat = 500) : Toggles st t := by
  have heq : (st t).clkCount = 500#9 := BitVec.eq_of_toNat_eq hc
  rw [toggles_iff he, clkCountDone, h t heq, if_neg Bool.false_ne_true, heq]
  rfl

theorem SelectsLow.clkCount_le (he : circuit.Execution st i) (h : SelectsLow st i) (t : ℕ) :
    (st t).clkCount.toNat ≤ 500 := by
  induction t with
  | zero =>
    obtain ⟨s, j, hj, hst⟩ := he.init
    simp [hst, step, hj]
  | succ t ih =>
    by_cases htoggles : Toggles st t
    · rw [clkCount_of_toggles he htoggles]
      omega
    · have hne : (st t).clkCount.toNat ≠ 500 := fun hc => htoggles (h.toggles he hc)
      rw [clkCount_succ he htoggles]
      omega

theorem SelectsLow.clocks (he : circuit.Execution st i) (h : SelectsLow st i) : Clocks st where
  apart t u ht hu htu hquiet := by
    have hzero := clkCount_of_toggles he ht
    have hle : u ≤ t + 501 := by
      by_contra hlong
      have hc := clkCount_add he (t := t + 1) 500
        (fun k hk hkd => hquiet k (by omega) (by omega)) (by omega)
      exact hquiet (t + 1 + 500) (by omega) (by omega) (h.toggles he (by omega))
    obtain ⟨d, rfl⟩ := Nat.exists_eq_add_of_lt htu
    have hc := clkCount_add he (t := t + 1) d
      (fun k hk hkd => hquiet k (by omega) (by omega)) (by omega)
    rw [show t + 1 + d = t + d + 1 by omega] at hc
    have := clkCount_terminal he hu
    omega
  toggles t := by
    by_contra hnone
    push Not at hnone
    have hle := h.clkCount_le he t
    have hc := clkCount_add he (t := t) (500 - (st t).clkCount.toNat)
      (fun k hk hkd => hnone k hk (by omega)) (by omega)
    exact hnone (t + (500 - (st t).clkCount.toNat)) (by omega) (by omega)
      (h.toggles he (by omega))

/-- A counter that passes 500 has not seen a change for 501 cycles. -/
theorem Clocks.selectsLow (he : circuit.Execution st i) (h : Clocks st) : SelectsLow st i := by
  intro t hc
  by_contra hhigh
  rw [Bool.not_eq_false] at hhigh
  obtain ⟨hle, hquiet⟩ := quiet_of_clkCount he 500 t (by rw [hc]; rfl)
  obtain ⟨u, hu, hut, htoggles⟩ := h.toggles (t - 500)
  rcases Nat.eq_or_lt_of_le (show u ≤ t by omega) with rfl | hlt
  · rw [toggles_iff he, clkCountDone, hhigh, if_pos rfl, hc] at htoggles
    simp at htoggles
  · exact hquiet u (by omega) hlt htoggles

/-- The clock keeps to its bounds if and only if the select input is low whenever the counter shows
500. -/
theorem clocks_iff (he : circuit.Execution st i) : Clocks st ↔ SelectsLow st i :=
  ⟨fun h => h.selectsLow he, fun h => h.clocks he⟩

/-- A change to the higher frequency in the cycle in which the counter shows 500 stretches the clock
to 638 cycles. -/
theorem toggles_late (he : circuit.Execution st i) (h : Toggles st t)
    (hlow : ∀ k, t < k → k ≤ t + 500 → (i k).selectClk400k = false)
    (hhigh : ∀ k, t + 501 ≤ k → (i k).selectClk400k = true) :
    Toggles st (t + 638) ∧ ∀ k, t < k → k < t + 638 → ¬ Toggles st k := by
  have hzero := clkCount_of_toggles he h
  obtain ⟨hlast, hquiet⟩ := clkCount_on he (t := t + 1) 511 (fun k hk => by
    rw [hzero]
    by_cases hk500 : k < 500
    · rw [hlow (t + 1 + k) (by omega) (by omega), if_neg Bool.false_ne_true]
      omega
    · rw [hhigh (t + 1 + k) (by omega), if_pos rfl]
      omega) (by omega)
  have hwrap : ¬ Toggles st (t + 1 + 511) := by
    intro htoggles
    have := clkCount_terminal he htoggles
    omega
  have hagain := clkCount_succ he hwrap
  rw [hlast, hzero] at hagain
  obtain ⟨hend, hquiet'⟩ := clkCount_on he (t := t + 1 + 511 + 1) 125 (fun k hk => by
    rw [hagain, hhigh (t + 1 + 511 + 1 + k) (by omega), if_pos rfl]
    omega) (by omega)
  constructor
  · have heq : (st (t + 638)).clkCount = 125#9 := by
      apply BitVec.eq_of_toNat_eq
      rw [show t + 638 = t + 1 + 511 + 1 + 125 by omega, hend, hagain]
      rfl
    rw [toggles_iff he, clkCountDone, hhigh (t + 638) (by omega), if_pos rfl, heq]
    rfl
  · intro k hk hk638
    obtain ⟨d, rfl⟩ := Nat.exists_eq_add_of_le (Nat.succ_le_of_lt hk)
    rcases Nat.lt_trichotomy d 511 with hlt | rfl | hgt
    · exact hquiet d hlt
    · exact hwrap
    · obtain ⟨j, rfl⟩ := Nat.exists_eq_add_of_le (Nat.succ_le_of_lt hgt)
      rw [show t.succ + (Nat.succ 511 + j) = t + 1 + 511 + 1 + j by omega]
      exact hquiet' j (by omega)

end Execution

def afterReset : State := ⟨0#9, false⟩

/-- The select input is high in the cycles that `p` names. -/
def selects (p : ℕ → Bool) (t : ℕ) : Inputs := ⟨false, p t⟩

theorem execution_selects (p : ℕ → Bool) :
    circuit.Execution (trajectory step afterReset (selects p)) (selects p) :=
  Circuit.execution_trajectory ⟨afterReset, ⟨true, false⟩, rfl, rfl⟩ fun _ _ => rfl

theorem clocks_selects : Clocks (trajectory step afterReset (selects fun _ => false)) :=
  (clocks_iff (execution_selects _)).mpr fun _ _ => rfl

/-- A select input that is low in the 500 cycles after the first change only. -/
def missing (t : ℕ) : Bool := decide (t ≤ 125 ∨ 626 ≤ t)

theorem not_clocks_missing :
    circuit.Execution (trajectory step afterReset (selects missing)) (selects missing) ∧
      ∃ t u, Toggles (trajectory step afterReset (selects missing)) t ∧
        Toggles (trajectory step afterReset (selects missing)) u ∧ t + 638 = u ∧
        ∀ k, t < k → k < u → ¬ Toggles (trajectory step afterReset (selects missing)) k := by
  have he := execution_selects missing
  have hfirst : Toggles (trajectory step afterReset (selects missing)) 125 := by
    rw [toggles_iff he]
    decide +kernel
  obtain ⟨hsecond, hnone⟩ := toggles_late he hfirst
    (fun k hk hk500 => decide_eq_false (by omega)) fun k hk => decide_eq_true (by omega)
  exact ⟨he, 125, 125 + 638, hfirst, hsecond, rfl, hnone⟩

end AvalonCores.De0Nano.I2cClocking
