import Mathlib.Algebra.BigOperators.Ring.Finset
import Mathlib.Algebra.Order.BigOperators.Group.Finset
import Mathlib.Algebra.Order.Ring.Int
import Mathlib.Tactic.Linarith
import Mathlib.Tactic.Ring

/-!
# Truncating division

`Int.tdiv` rounds toward zero, as integer division does in C++. A quotient is
off by less than one unit (`abs_mul_tdiv_sub_lt`), and a sum of separately
truncated quotients by at most one unit for each summand
(`abs_mul_sum_tdiv_sub_le`): the error of a division that several parties carry
out on their own summands.
-/

namespace TruncDiv

/-- A truncated quotient is off by less than one unit. -/
theorem abs_mul_tdiv_sub_lt {c : ℤ} (hc : 0 < c) (a : ℤ) : |c * a.tdiv c - a| < c := by
  have hsplit : c * a.tdiv c + a.tmod c = a := Int.mul_tdiv_add_tmod a c
  have hlt : a.tmod c < c := Int.tmod_lt_of_pos a hc
  have hgt : -c < a.tmod c := by
    have h := Int.tmod_lt_of_pos (-a) hc
    rw [Int.neg_tmod] at h
    omega
  rw [abs_lt]
  exact ⟨by omega, by omega⟩

/-- A remainder is smaller than the divisor. -/
theorem abs_tmod_lt {c : ℤ} (hc : c ≠ 0) (a : ℤ) : |a.tmod c| < |c| := by
  have hpos : ∀ {d : ℤ}, 0 < d → |a.tmod d| < d := by
    intro d hd
    have hsplit := Int.mul_tdiv_add_tmod a d
    have h := abs_mul_tdiv_sub_lt hd a
    rwa [← abs_neg, show -a.tmod d = d * a.tdiv d - a by linarith]
  rcases lt_or_gt_of_ne hc with hneg | hgt
  · rw [abs_of_neg hneg, ← Int.tmod_neg]
    exact hpos (neg_pos.mpr hneg)
  · rw [abs_of_pos hgt]
    exact hpos hgt

theorem abs_mul_tdiv_sub_le {c : ℤ} (hc : 0 < c) (a : ℤ) : |c * a.tdiv c - a| ≤ c - 1 := by
  have h := abs_mul_tdiv_sub_lt hc a
  omega

/-- Truncating every summand on its own: the errors add up, one unit each. -/
theorem abs_mul_sum_tdiv_sub_le {ι : Type*} [Fintype ι] {c : ℤ} (hc : 0 < c) (a : ι → ℤ) :
    |c * ∑ i, (a i).tdiv c - ∑ i, a i| ≤ Fintype.card ι * (c - 1) := by
  have hsplit : c * ∑ i, (a i).tdiv c - ∑ i, a i = ∑ i, (c * (a i).tdiv c - a i) := by
    rw [Finset.mul_sum, Finset.sum_sub_distrib]
  calc |c * ∑ i, (a i).tdiv c - ∑ i, a i|
      = |∑ i, (c * (a i).tdiv c - a i)| := by rw [hsplit]
    _ ≤ ∑ i, |c * (a i).tdiv c - a i| := Finset.abs_sum_le_sum_abs _ _
    _ ≤ ∑ _i : ι, (c - 1) := Finset.sum_le_sum fun i _ => abs_mul_tdiv_sub_le hc (a i)
    _ = Fintype.card ι * (c - 1) := by
      rw [Finset.sum_const, Finset.card_univ, nsmul_eq_mul]

/-- A remainder has the sign of the dividend. -/
theorem tmod_mul_self_nonneg (a c : ℤ) : 0 ≤ a.tmod c * a := by
  rcases le_total 0 a with hpos | hneg
  · exact mul_nonneg (Int.tmod_nonneg c hpos) hpos
  · have hmod := Int.tmod_nonneg c (neg_nonneg.mpr hneg)
    rw [Int.neg_tmod, neg_nonneg] at hmod
    exact mul_nonneg_of_nonpos_of_nonpos hmod hneg

/-- Multiplied back, a quotient has the sign of the dividend. -/
theorem mul_tdiv_mul_self_nonneg (a c : ℤ) : 0 ≤ c * a.tdiv c * a := by
  have hpos : ∀ b : ℤ, 0 ≤ b → 0 ≤ c * b.tdiv c := by
    intro b hb
    rcases le_total 0 c with hc | hc
    · exact mul_nonneg hc (Int.tdiv_nonneg hb hc)
    · exact mul_nonneg_of_nonpos_of_nonpos hc (Int.tdiv_nonpos_of_nonneg_of_nonpos hb hc)
  rcases le_total 0 a with ha | ha
  · exact mul_nonneg (hpos a ha) ha
  · have h := hpos (-a) (neg_nonneg.mpr ha)
    rw [Int.neg_tdiv, mul_neg, neg_nonneg] at h
    exact mul_nonneg_of_nonpos_of_nonpos h ha

/-- A common factor cancels under the truncation. -/
theorem mul_tdiv_mul_left {k : ℤ} (hk : 0 < k) (a c : ℤ) :
    (a * k).tdiv (c * k) = a.tdiv c := by
  rw [mul_comm a, mul_comm c]
  exact Int.mul_tdiv_mul_of_pos a c hk

end TruncDiv
