import Mathlib.Tactic
import Mathlib.Dynamics.PeriodicPts.Lemmas

/-! Minimal periods from the prime factors of a period, and maps on a finite type with one fixed
point and one cycle through all other points. -/

namespace AvalonCores.Lfsr

open Function

variable {α : Type*} {f : α → α} {x y z : α} {N : ℕ}

/-- A period is minimal if its quotients by its prime factors are no periods. -/
theorem minimalPeriod_eq_of_prime_factors {qs : List ℕ} (hprod : qs.prod = N)
    (hprime : ∀ q ∈ qs, q.Prime) (h : f^[N] x = x) (hne : ∀ q ∈ qs, f^[N / q] x ≠ x) :
    minimalPeriod f x = N := by
  have hpos : 0 < N := by
    rw [← hprod]
    exact Nat.pos_of_ne_zero (List.prod_ne_zero fun h0 => Nat.not_prime_zero (hprime 0 h0))
  obtain ⟨d, hd⟩ := IsPeriodicPt.minimalPeriod_dvd (n := N) h
  by_contra hminimal
  have hd1 : d ≠ 1 := by
    rintro rfl
    rw [Nat.mul_one] at hd
    exact hminimal hd.symm
  obtain ⟨q, hq, c, rfl⟩ := Nat.exists_prime_and_dvd hd1
  have hmem : q ∈ qs := by
    refine mem_list_primes_of_dvd_prod hq.prime (fun r hr => (hprime r hr).prime) ?_
    rw [hprod, hd]
    exact Dvd.intro_left _ (by ring : minimalPeriod f x * c * q = _)
  refine hne q hmem (isPeriodicPt_iff_minimalPeriod_dvd.mpr ⟨c, ?_⟩)
  rw [hd, show minimalPeriod f x * (q * c) = minimalPeriod f x * c * q by ring,
    Nat.mul_div_cancel _ hq.pos]

/-- A cycle as long as there are points other than the fixed point `z` goes through all of them. -/
theorem mem_cycle [Fintype α] [DecidableEq α] (hz : f z = z) (hx : x ≠ z)
    (h : minimalPeriod f x = Fintype.card α - 1) (hy : y ≠ z) : ∃ n, f^[n] x = y := by
  have hperiodic : f^[minimalPeriod f x] x = x := iterate_minimalPeriod
  have hne : ∀ n < minimalPeriod f x, f^[n] x ≠ z := by
    intro n hn heq
    obtain ⟨d, hd⟩ := Nat.exists_eq_add_of_lt hn
    rw [hd, show n + d + 1 = d + 1 + n by omega, iterate_add_apply, heq, iterate_fixed hz]
      at hperiodic
    exact hx hperiodic.symm
  let cycle : Finset α := (Finset.range (minimalPeriod f x)).image (f^[·] x)
  have hcard : cycle.card = minimalPeriod f x := by
    rw [Finset.card_image_of_injOn, Finset.card_range]
    rw [Finset.coe_range]
    exact iterate_injOn_Iio_minimalPeriod
  have hsubset : cycle ⊆ Finset.univ.erase z := by
    intro w hw
    obtain ⟨n, hn, rfl⟩ := Finset.mem_image.mp hw
    exact Finset.mem_erase.mpr ⟨hne n (Finset.mem_range.mp hn), Finset.mem_univ _⟩
  have hall : cycle = Finset.univ.erase z := by
    refine Finset.eq_of_subset_of_card_le hsubset ?_
    rw [Finset.card_erase_of_mem (Finset.mem_univ z), Finset.card_univ, hcard, h]
  have hmem : y ∈ cycle := by
    rw [hall]
    exact Finset.mem_erase.mpr ⟨hy, Finset.mem_univ _⟩
  obtain ⟨n, -, hn⟩ := Finset.mem_image.mp hmem
  exact ⟨n, hn⟩

theorem minimalPeriod_eq_of_cycle [Fintype α] [DecidableEq α] (hz : f z = z) (hx : x ≠ z)
    (h : minimalPeriod f x = Fintype.card α - 1) (hy : y ≠ z) :
    minimalPeriod f y = Fintype.card α - 1 := by
  obtain ⟨n, rfl⟩ := mem_cycle hz hx h hy
  have hpos : 0 < minimalPeriod f x := by
    have : 1 < Fintype.card α := Fintype.one_lt_card_iff.mpr ⟨x, z, hx⟩
    omega
  rw [minimalPeriod_apply_iterate (minimalPeriod_pos_iff_mem_periodicPts.mp hpos), h]

/-- The minimal period of a periodic point is the least number of steps that lead back to it. -/
theorem isLeast_minimalPeriod (h : 0 < minimalPeriod f x) :
    IsLeast {k | 0 < k ∧ f^[k] x = x} (minimalPeriod f x) :=
  ⟨⟨h, iterate_minimalPeriod⟩, fun _ hk => IsPeriodicPt.minimalPeriod_le hk.1 hk.2⟩

end AvalonCores.Lfsr
