import Mathlib.Analysis.InnerProductSpace.PiL2

/-!
# The root of a sum of squares

The size of a finite family of rational numbers, as the norm of a vector. It is monotone
in the sum of the squares, and an error of `δ` in every entry adds `δ` times the root of
the number of entries.
-/

namespace RootSquares

variable {ι : Type*} [Fintype ι]

/-- The root of the sum of the squares. -/
noncomputable def rootSquares (x : ι → ℚ) : ℝ :=
  ‖(WithLp.toLp 2 fun i => (x i : ℝ) : EuclideanSpace ℝ ι)‖

variable {x y : ι → ℚ}

theorem rootSquares_eq_sqrt (x : ι → ℚ) : rootSquares x = √((∑ i, x i ^ 2 : ℚ) : ℝ) := by
  have hterm : ∀ i, ‖(x i : ℝ)‖ ^ 2 = ((x i ^ 2 : ℚ) : ℝ) := by
    intro i
    rw [Real.norm_eq_abs, sq_abs, Rat.cast_pow]
  rw [rootSquares, EuclideanSpace.norm_eq, Rat.cast_sum]
  exact congrArg _ (Finset.sum_congr rfl fun i _ => hterm i)

theorem rootSquares_le_of_sum_sq_le (h : ∑ i, x i ^ 2 ≤ ∑ i, y i ^ 2) :
    rootSquares x ≤ rootSquares y := by
  rw [rootSquares_eq_sqrt, rootSquares_eq_sqrt]
  exact Real.sqrt_le_sqrt (by exact_mod_cast h)

theorem rootSquares_add_le : rootSquares (fun i => x i + y i) ≤ rootSquares x + rootSquares y := by
  have hadd : (WithLp.toLp 2 fun i => ((x i + y i : ℚ) : ℝ) : EuclideanSpace ℝ ι)
      = WithLp.toLp 2 (fun i => (x i : ℝ)) + WithLp.toLp 2 fun i => (y i : ℝ) := by
    ext i
    simp
  rw [rootSquares, hadd]
  exact norm_add_le _ _

theorem rootSquares_le_of_abs_le {δ : ℚ} (hδ : 0 ≤ δ) (h : ∀ i, |x i| ≤ δ) :
    rootSquares x ≤ √(Fintype.card ι) * δ := by
  have hsum : ∑ i, x i ^ 2 ≤ Fintype.card ι * δ ^ 2 := by
    have hterm : ∀ i ∈ Finset.univ, x i ^ 2 ≤ δ ^ 2 := fun i _ =>
      sq_le_sq' (neg_le_of_abs_le (h i)) (le_of_abs_le (h i))
    have hle := Finset.sum_le_sum hterm
    rwa [Finset.sum_const, Finset.card_univ, nsmul_eq_mul] at hle
  have hroot : (δ : ℝ) = √((δ : ℝ) ^ 2) := (Real.sqrt_sq (by exact_mod_cast hδ)).symm
  rw [rootSquares_eq_sqrt, hroot, ← Real.sqrt_mul (Nat.cast_nonneg _)]
  exact Real.sqrt_le_sqrt (by exact_mod_cast hsum)

/-- An error of `δ` in every entry. -/
theorem rootSquares_le_add {δ : ℚ} (hδ : 0 ≤ δ) (h : ∀ i, |x i - y i| ≤ δ) :
    rootSquares x ≤ rootSquares y + √(Fintype.card ι) * δ := by
  have hsplit : x = fun i => y i + (x i - y i) := by
    funext i
    ring
  rw [hsplit]
  exact rootSquares_add_le.trans (by gcongr; exact rootSquares_le_of_abs_le hδ h)

end RootSquares
