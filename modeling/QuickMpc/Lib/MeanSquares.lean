import Mathlib.Algebra.BigOperators.Field
import Mathlib.Algebra.Order.BigOperators.Ring.Finset
import Mathlib.Algebra.Order.Field.Basic
import Mathlib.Tactic.FieldSimp
import Mathlib.Tactic.Linarith
import Mathlib.Tactic.Positivity
import Mathlib.Tactic.Ring

/-!
# Means and sums of squared differences

The mean of finitely many numbers and the sum `spread` of their squared
differences to a number `c`. The spread is smallest at the mean, and around any
other number it is larger by the squared distance to the mean, once for every
element (`spread_eq`): a mean that is known up to `δ` is good enough up to `δ ^ 2`.
Where the elements are in cells, a step of each towards the mean of its cell does not make
the sum of the squares larger (`sum_step_le`).
-/

namespace MeanSquares

variable {ι K : Type*} [Field K] (s : Finset ι) (x : ι → K)

/-- The mean, `0` of nothing. -/
def mean : K := (∑ i ∈ s, x i) / s.card

/-- The sum of the squared differences to `c`. -/
def spread (c : K) : K := ∑ i ∈ s, (x i - c) ^ 2

variable {s x}

theorem card_mul_mean [CharZero K] : s.card * mean s x = ∑ i ∈ s, x i := by
  rcases s.eq_empty_or_nonempty with rfl | hne
  · simp
  · rw [mean, mul_div_cancel₀]
    exact Nat.cast_ne_zero.mpr (Finset.card_ne_zero_of_mem hne.choose_spec)

/-- The spread around any number, from the one around the mean. -/
theorem spread_eq [CharZero K] (c : K) :
    spread s x c = spread s x (mean s x) + s.card * (mean s x - c) ^ 2 := by
  have hcross : ∑ i ∈ s, (x i - mean s x) = 0 := by
    rw [Finset.sum_sub_distrib, Finset.sum_const, nsmul_eq_mul, card_mul_mean, sub_self]
  have hsplit : ∀ i ∈ s, (x i - c) ^ 2 = (x i - mean s x) ^ 2
      + 2 * (mean s x - c) * (x i - mean s x) + (mean s x - c) ^ 2 := by
    intro i _
    ring
  rw [spread, Finset.sum_congr rfl hsplit, Finset.sum_add_distrib, Finset.sum_add_distrib,
    ← Finset.mul_sum, hcross, mul_zero, add_zero, Finset.sum_const, nsmul_eq_mul, spread]

variable [LinearOrder K] [IsStrictOrderedRing K]

theorem spread_mean_le (c : K) : spread s x (mean s x) ≤ spread s x c := by
  rw [spread_eq c]
  exact le_add_of_nonneg_right (by positivity)

/-- The spread around a number close to the mean. -/
theorem spread_le_of_abs_sub_le {c δ : K} (h : |mean s x - c| ≤ δ) :
    spread s x c ≤ spread s x (mean s x) + s.card * δ ^ 2 := by
  rw [spread_eq c]
  have hsq : (mean s x - c) ^ 2 ≤ δ ^ 2 := sq_le_sq' (neg_le_of_abs_le h) (le_of_abs_le h)
  gcongr

/-! ### Steps towards the mean -/

/-- A step towards the mean that goes less than twice as far makes the squares no
larger. -/
theorem spread_step_le {lr : K} (h : |1 - lr| ≤ 1) :
    spread s x (lr * mean s x) ≤ ∑ i ∈ s, x i ^ 2 := by
  have hzero : ∑ i ∈ s, x i ^ 2 = spread s x 0 := Finset.sum_congr rfl fun i _ => by rw [sub_zero]
  have hstep : (mean s x - lr * mean s x) ^ 2 ≤ (mean s x - 0) ^ 2 := by
    have hsq : (1 - lr) ^ 2 ≤ 1 := (sq_le_one_iff_abs_le_one _).mpr h
    calc (mean s x - lr * mean s x) ^ 2 = (1 - lr) ^ 2 * (mean s x - 0) ^ 2 := by ring
      _ ≤ (mean s x - 0) ^ 2 := mul_le_of_le_one_left (sq_nonneg _) hsq
  rw [hzero, spread_eq (lr * mean s x), spread_eq 0]
  gcongr

/-- One step in every cell of a partition, each towards its own mean. -/
theorem sum_step_le [Fintype ι] [DecidableEq ι] {cell : ι → Finset ι}
    (hcell : ∀ i j, j ∈ cell i ↔ cell j = cell i) {lr : K} (h : |1 - lr| ≤ 1) :
    ∑ i, (x i - lr * mean (cell i) x) ^ 2 ≤ ∑ i, x i ^ 2 := by
  have hfiber : ∀ i, (Finset.univ.filter fun j => cell j = cell i) = cell i := by
    intro i
    ext j
    rw [Finset.mem_filter, and_iff_right (Finset.mem_univ j), hcell]
  have hmem : ∀ i ∈ Finset.univ, cell i ∈ Finset.univ.image cell :=
    fun i hi => Finset.mem_image_of_mem cell hi
  rw [← Finset.sum_fiberwise_of_maps_to hmem, ← Finset.sum_fiberwise_of_maps_to hmem]
  refine Finset.sum_le_sum fun c hc => ?_
  obtain ⟨i, -, rfl⟩ := Finset.mem_image.mp hc
  have hsame : ∀ j ∈ cell i, (x j - lr * mean (cell j) x) ^ 2
      = (x j - lr * mean (cell i) x) ^ 2 := by
    intro j hj
    rw [(hcell i j).mp hj]
  rw [hfiber, Finset.sum_congr rfl hsame]
  exact spread_step_le h

end MeanSquares
