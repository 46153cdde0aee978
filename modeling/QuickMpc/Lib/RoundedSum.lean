import Mathlib.Algebra.BigOperators.Field
import Mathlib.Algebra.Order.Field.Basic
import Mathlib.Algebra.Order.Field.Rat
import Mathlib.Tactic.FieldSimp
import QuickMpc.Lib.TruncDiv

/-!
# Rounding errors

How errors add up: over the terms of a sum (`abs_sum_sub_sum_le`), and over quotients that
are rounded one by one, here beside the exact rational quotient.
-/

namespace RoundedSum

section Order

variable {ι K : Type*} [Field K] [LinearOrder K] [IsStrictOrderedRing K]

/-- The errors of the terms add up. -/
theorem abs_sum_sub_sum_le {s : Finset ι} {a b δ : ι → K} (h : ∀ i ∈ s, |a i - b i| ≤ δ i) :
    |∑ i ∈ s, a i - ∑ i ∈ s, b i| ≤ ∑ i ∈ s, δ i := by
  rw [← Finset.sum_sub_distrib]
  exact (Finset.abs_sum_le_sum_abs _ _).trans (Finset.sum_le_sum h)

end Order

/-- A quotient that is off by at most one unit. -/
theorem abs_sub_div_le {c q a : ℤ} (hc : c ≠ 0) (h : |a - c * q| ≤ |c|) : |(q : ℚ) - a / c| ≤ 1 := by
  have hne : (c : ℚ) ≠ 0 := by exact_mod_cast hc
  have hrest : (q : ℚ) - a / c = -((a - c * q) / c) := by
    field_simp
    ring
  have hle : |(a : ℚ) - c * q| ≤ |(c : ℚ)| := by exact_mod_cast h
  rw [hrest, abs_neg, abs_div]
  exact (div_le_one (abs_pos.mpr hne)).mpr hle

/-- Quotients that are rounded one by one. -/
theorem abs_sum_quot_sub_div_le {ι : Type*} [Fintype ι] {c : ℤ} (hc : c ≠ 0) {q a : ι → ℤ}
    (h : ∀ i, |a i - c * q i| ≤ |c|) :
    |((∑ i, q i : ℤ) : ℚ) - (∑ i, a i : ℤ) / c| ≤ Fintype.card ι := by
  have hsum := abs_sum_sub_sum_le (s := Finset.univ) (δ := fun _ => (1 : ℚ)) fun i _ =>
    abs_sub_div_le hc (h i)
  rw [Finset.sum_const, Finset.card_univ, nsmul_eq_mul, mul_one, ← Finset.sum_div] at hsum
  exact_mod_cast hsum

/-- Quotients that are truncated one by one. -/
theorem abs_sum_tdiv_sub_div_le {ι : Type*} [Fintype ι] {c : ℤ} (hc : c ≠ 0) (a : ι → ℤ) :
    |((∑ i, (a i).tdiv c : ℤ) : ℚ) - (∑ i, a i : ℤ) / c| ≤ Fintype.card ι := by
  refine abs_sum_quot_sub_div_le hc fun i => ?_
  have hsplit := Int.mul_tdiv_add_tmod (a i) c
  rw [show a i - c * (a i).tdiv c = (a i).tmod c by linarith]
  exact (TruncDiv.abs_tmod_lt hc (a i)).le

end RoundedSum
