import Mathlib.Algebra.Order.BigOperators.Group.Finset
import Mathlib.Algebra.Order.Field.Basic
import Mathlib.Data.Matrix.Mul
import Mathlib.Tactic.Abel
import Mathlib.Tactic.Linarith

/-!
# Normal equations with errors

A matrix is inverted behind a blinding factor: `U` is `R * M`, `V` is taken for the inverse
of `U`, and `B = V * R` for that of `M`. Every product has an error, and `V` may be any
matrix at all: `B` differs from a left inverse by what `V` differs from one of `U`, and by
the errors of the two products (`blinded_inverse`). A solution of the normal equations
that is computed with `B` differs from an exact one by that much of the exact one
(`solution_sub`).
-/

namespace NormalEquations

open Matrix

variable {a b c d s K : Type*} [Fintype b] [Fintype d] [Fintype s]

/-! ### Entries -/

section Entries

variable [Field K] [LinearOrder K] [IsStrictOrderedRing K]

/-- Every entry of a matrix is at most `e`. -/
def Within (e : K) (E : Matrix a b K) : Prop := ∀ i j, |E i j| ≤ e

theorem abs_mul_apply_le (A : Matrix a b K) (B : Matrix b c K) (i : a) (j : c) :
    |(A * B) i j| ≤ ∑ k, |A i k| * |B k j| := by
  rw [mul_apply]
  exact (Finset.abs_sum_le_sum_abs _ _).trans (Finset.sum_le_sum fun k _ => (abs_mul _ _).le)

theorem Within.mul_right {e : K} {E : Matrix a b K} (h : Within e E) (A : Matrix b c K) (i : a)
    (j : c) : |(E * A) i j| ≤ e * ∑ k, |A k j| := by
  rw [Finset.mul_sum]
  exact (abs_mul_apply_le E A i j).trans
    (Finset.sum_le_sum fun k _ => mul_le_mul_of_nonneg_right (h i k) (abs_nonneg _))

theorem Within.mul_left {e : K} {E : Matrix b c K} (h : Within e E) (A : Matrix a b K) (i : a)
    (j : c) : |(A * E) i j| ≤ e * ∑ k, |A i k| := by
  rw [Finset.mul_sum]
  refine (abs_mul_apply_le A E i j).trans (Finset.sum_le_sum fun k _ => ?_)
  rw [mul_comm e]
  exact mul_le_mul_of_nonneg_left (h k j) (abs_nonneg _)

end Entries

/-! ### The blinded inverse -/

section Identities

variable [CommRing K] [DecidableEq d] {M R U V B : Matrix d d K}

/-- How far `B` is from a left inverse of `M`. -/
theorem blinded_inverse :
    B * M - 1 = (V * U - 1) - V * (U - R * M) + (B - V * R) * M := by
  rw [Matrix.mul_sub, Matrix.sub_mul, Matrix.mul_assoc]
  abel

/-- What is computed with `B`, beside an exact solution `x` of the normal equations. -/
theorem solution_sub {X : Matrix s d K} {P : Matrix d s K} {y : Matrix s c K} {x w : Matrix d c K}
    (hx : Xᵀ * X * x = Xᵀ * y) :
    w - x = (B * M - 1) * x - B * (M - Xᵀ * X) * x + (P - B * Xᵀ) * y + (w - P * y) := by
  have hexact : B * (Xᵀ * X) * x = B * Xᵀ * y := by
    rw [Matrix.mul_assoc, hx, Matrix.mul_assoc]
  rw [Matrix.sub_mul, Matrix.one_mul, Matrix.mul_sub, Matrix.sub_mul, hexact, Matrix.sub_mul]
  abel

end Identities

/-! ### Bounds -/

section Bounds

variable [Field K] [LinearOrder K] [IsStrictOrderedRing K] [DecidableEq d]

/-- How far `B` may be from a left inverse, in one entry. -/
def inverseGap (V U M : Matrix d d K) (e₁ e₂ : K) (i j : d) : K :=
  |(V * U - 1) i j| + e₁ * ∑ k, |V i k| + e₂ * ∑ k, |M k j|

variable {M R U V B : Matrix d d K} {e₀ e₁ e₂ e₃ e₄ : K}

theorem abs_blinded_inverse_le (hU : Within e₁ (U - R * M)) (hB : Within e₂ (B - V * R)) (i j : d) :
    |(B * M - 1) i j| ≤ inverseGap V U M e₁ e₂ i j := by
  rw [blinded_inverse (R := R) (U := U) (V := V), inverseGap, Matrix.add_apply, Matrix.sub_apply]
  have hV := hU.mul_left V i j
  have hM := hB.mul_right M i j
  refine (abs_add_le _ _).trans (add_le_add ?_ hM)
  exact (abs_sub _ _).trans (add_le_add le_rfl hV)

/-- The error of a solution: what the inverse is off, and the errors of the products. -/
theorem abs_solution_sub_le {X : Matrix s d K} {P : Matrix d s K} {y : Matrix s c K}
    {x w : Matrix d c K} (hx : Xᵀ * X * x = Xᵀ * y) (hM : Within e₀ (M - Xᵀ * X))
    (hU : Within e₁ (U - R * M)) (hB : Within e₂ (B - V * R)) (hP : Within e₃ (P - B * Xᵀ))
    (hw : Within e₄ (w - P * y)) (i : d) (j : c) :
    |w i j - x i j| ≤ ∑ k, (inverseGap V U M e₁ e₂ i k + e₀ * ∑ l, |B i l|) * |x k j|
      + e₃ * ∑ k, |y k j| + e₄ := by
  have hinverse : |((B * M - 1) * x - B * (M - Xᵀ * X) * x : Matrix d c K) i j|
      ≤ ∑ k, (inverseGap V U M e₁ e₂ i k + e₀ * ∑ l, |B i l|) * |x k j| := by
    rw [← Matrix.sub_mul]
    refine (abs_mul_apply_le _ _ i j).trans (Finset.sum_le_sum fun k _ => ?_)
    refine mul_le_mul_of_nonneg_right ?_ (abs_nonneg _)
    rw [Matrix.sub_apply]
    exact (abs_sub _ _).trans (add_le_add (abs_blinded_inverse_le hU hB i k) (hM.mul_left B i k))
  have hsub : w i j - x i j = (w - x) i j := rfl
  rw [hsub, solution_sub (M := M) (B := B) (P := P) hx, Matrix.add_apply, Matrix.add_apply]
  refine (abs_add_le _ _).trans (add_le_add ?_ (hw i j))
  exact (abs_add_le _ _).trans (add_le_add hinverse (hP.mul_right y i j))

end Bounds

end NormalEquations
