import QuickMpc.Gbdt.Products
import QuickMpc.Lib.MeanSquares
import QuickMpc.Rounding

/-!
# QuickMpc.Math.Statistics

Mean, variance, standard deviation and correlation of shared columns.

A mean is rounded by every party when it divides, a variance once more for each square.
The standard deviation is opened: it is the root of the opened variance, rounded down,
and a variance that rounding has made negative counts as `0`. The correlation divides by
the two opened deviations, and by `0.001` in the place of a smaller one, so its error
grows with their reciprocals.
-/

namespace QuickMpc.Math

open Share (toRat ulp recons)
open FixedPoint (ofInt ofDouble)
open Gbdt (mulVec sum)
open MeanSquares (mean spread)

variable {n N M : ℕ}

/-! ### The code -/

section Code

/-- `smean`. -/
def smean [Multiprecision] (v : Fin N → Share n FixedPoint) : Share n FixedPoint := sum v / ofInt N

variable [Config n] (t : ℕ → BtsTriple n)

/-- `variance`. -/
def variance [Multiprecision] (v : Fin N → Share n FixedPoint) : Supply (Share n FixedPoint) := do
  let avg := smean v
  let var := fun i => v i - avg
  let varVec ← mulVec t var var
  return sum varVec / ofInt N

/-- `stdev`; the root of the decimal with 100 digits is exact here, before it is cut off. -/
def stdev [Multiprecision] (v : Fin N → Share n FixedPoint) : Supply FixedPoint := do
  let var ← variance t v
  let value := recons var
  let value := if value < ofInt 0 then ofInt 0 else value
  return value.sqrt

/-- The deviation that `correl` divides by. -/
def divisor (stde : FixedPoint) : FixedPoint :=
  if ¬ofDouble (1 / 1000) < stde ∧ ¬stde < ofDouble (-1 / 1000) then ofDouble (1 / 1000) else stde

/-- `correl`, once the sizes have been compared. -/
def correlSized [Multiprecision] (x y : Fin N → Share n FixedPoint) :
    Supply (Share n FixedPoint) := do
  let aveX := smean x
  let aveY := smean y
  let stdeX ← stdev t x
  let stdeY ← stdev t y
  let tmpX := fun i => x i - aveX
  let tmpY := fun i => y i - aveY
  let tmpVec ← mulVec t tmpX tmpY
  return sum tmpVec / divisor stdeX / divisor stdeY / ofInt N

/-- `correl`. -/
def correl [Multiprecision] (x : Fin N → Share n FixedPoint) (y : Fin M → Share n FixedPoint) :
    Run (Supply (Share n FixedPoint)) :=
  if h : N = M then .ok (correlSized t x fun i => y (i.cast h))
  else .error (.runtimeError "input Size is not Equal")

end Code

/-! ### Mean and variance -/

/-- The numbers of a column. -/
def column (v : Fin N → Share n FixedPoint) (i : Fin N) : ℚ := toRat (v i)

/-- The mean of a column. -/
def columnMean (v : Fin N → Share n FixedPoint) : ℚ := mean Finset.univ (column v)

/-- The covariance of two columns, with the divisor `N`. -/
def covariance (x y : Fin N → Share n FixedPoint) : ℚ :=
  (∑ i, (column x i - columnMean x) * (column y i - columnMean y)) / N

theorem toRat_sum (v : Fin N → Share n FixedPoint) : toRat (sum v) = ∑ i, column v i := by
  rw [sum, Share.toRat_foldl_add, Share.toRat_zero, zero_add, ← List.ofFn_eq_map, List.sum_ofFn]
  rfl

theorem abs_smean_sub_le [Multiprecision] (hN : 0 < N) (v : Fin N → Share n FixedPoint) :
    |toRat (smean v) - columnMean v| ≤ n * ulp := by
  have hne : (N : ℤ) ≠ 0 := by exact_mod_cast hN.ne'
  have h := Share.abs_toRat_div_ofInt_sub_le (sum v) hne
  rw [toRat_sum] at h
  rw [smean, columnMean, mean, Finset.card_univ, Fintype.card_fin]
  exact_mod_cast h

/-- The products of the differences to two numbers near the means. -/
theorem sum_sub_mul_sub (hN : 0 < N) (x y : Fin N → Share n FixedPoint) (a b : ℚ) :
    (∑ i, (column x i - a) * (column y i - b)) / N
      = covariance x y + (columnMean x - a) * (columnMean y - b) := by
  have hne : (N : ℚ) ≠ 0 := by exact_mod_cast hN.ne'
  have hzero : ∀ v : Fin N → Share n FixedPoint, ∑ i, (column v i - columnMean v) = 0 := by
    intro v
    have h := MeanSquares.card_mul_mean (s := Finset.univ) (x := column v)
    rw [Finset.sum_sub_distrib, Finset.sum_const, nsmul_eq_mul, columnMean, h, sub_self]
  have hsplit : ∀ i, (column x i - a) * (column y i - b)
      = (column x i - columnMean x) * (column y i - columnMean y)
        + (columnMean y - b) * (column x i - columnMean x)
        + (columnMean x - a) * (column y i - columnMean y)
        + (columnMean x - a) * (columnMean y - b) := by
    intro i
    ring
  rw [covariance, Finset.sum_congr rfl fun i _ => hsplit i, Finset.sum_add_distrib,
    Finset.sum_add_distrib, Finset.sum_add_distrib, ← Finset.mul_sum, ← Finset.mul_sum, hzero, hzero,
    mul_zero, mul_zero, add_zero, add_zero, Finset.sum_const, Finset.card_univ, Fintype.card_fin,
    nsmul_eq_mul, add_div, mul_div_cancel_left₀ _ hne]

section Returns

variable [Config n] (t : ℕ → BtsTriple n)

/-- The sum of the products of two vectors: one unit is lost for each. -/
theorem sum_mulVec_returns (x y : Fin N → Share n FixedPoint) :
    Supply.Returns (mulVec t x y) fun r =>
      |toRat (sum r) - ∑ i, toRat (x i) * toRat (y i)| ≤ N * ulp := by
  refine .take fun k => ?_
  set r := Share.bulkMul (fun i => (t (k + i)).convertStr2Triple) x y with hr
  have hprod : ∀ i ∈ Finset.univ, |column r i - toRat (x i) * toRat (y i)| ≤ ulp := by
    intro i _
    rw [column, hr, Share.bulkMul_apply]
    exact (Share.abs_toRat_mul_sub_lt (t (k + i)) (x i) (y i)).le
  have hsum := RoundedSum.abs_sum_sub_sum_le hprod
  rwa [Finset.sum_const, Finset.card_univ, Fintype.card_fin, nsmul_eq_mul, ← toRat_sum] at hsum

/-- The products of the differences to the computed means: the error of the means counts
with its square. -/
theorem sumProducts_returns [Multiprecision] (hN : 0 < N) (x y : Fin N → Share n FixedPoint) :
    Supply.Returns (mulVec t (fun i => x i - smean x) fun i => y i - smean y) fun r =>
      |toRat (sum r) / N - covariance x y| ≤ ulp + (n * ulp) ^ 2 := by
  have hNpos : (0 : ℚ) < N := by exact_mod_cast hN
  refine (sum_mulVec_returns t _ _).mono fun r hsum => ?_
  simp only [Share.toRat_sub] at hsum
  have hdiv : |toRat (sum r) / N
      - (∑ i, (column x i - toRat (smean x)) * (column y i - toRat (smean y))) / N| ≤ ulp := by
    rw [← sub_div, abs_div, abs_of_pos hNpos, div_le_iff₀ hNpos, mul_comm ulp]
    exact hsum
  have hmeans : |(columnMean x - toRat (smean x)) * (columnMean y - toRat (smean y))|
      ≤ (n * ulp) ^ 2 := by
    have hx := abs_smean_sub_le hN x
    have hy := abs_smean_sub_le hN y
    rw [abs_sub_comm] at hx hy
    rw [abs_mul, sq]
    exact mul_le_mul hx hy (abs_nonneg _) ((abs_nonneg _).trans hx)
  rw [sum_sub_mul_sub hN] at hdiv
  rw [abs_le] at hdiv hmeans ⊢
  constructor <;> linarith

/-- How far a variance may be off. -/
def varianceSlack (n : ℕ) : ℚ := (n + 1) * ulp + (n * ulp) ^ 2

theorem variance_returns [Multiprecision] (hN : 0 < N) (v : Fin N → Share n FixedPoint) :
    Supply.Returns (variance t v) fun r => |toRat r - covariance v v| ≤ varianceSlack n := by
  have hne : (N : ℤ) ≠ 0 := by exact_mod_cast hN.ne'
  refine (sumProducts_returns t hN v v).bind fun r hr => .pure ?_
  have hdiv := Share.abs_toRat_div_ofInt_sub_le (sum r) hne
  rw [Int.cast_natCast] at hdiv
  rw [varianceSlack]
  rw [abs_le] at hr hdiv ⊢
  constructor <;> linarith

end Returns

/-! ### Standard deviation -/

/-- The root is rounded down. -/
theorem sqrt_bounds {x : FixedPoint} (hx : 0 ≤ x.value) :
    0 ≤ x.sqrt.getDoubleVal ∧ x.sqrt.getDoubleVal ^ 2 ≤ x.getDoubleVal
      ∧ x.getDoubleVal < (x.sqrt.getDoubleVal + ulp) ^ 2 := by
  have hulp := Share.ulp_pos
  have hroot : x.sqrt.getDoubleVal = (Nat.sqrt (x.value * FixedPoint.shift).toNat : ℕ) * ulp := by
    rw [Share.getDoubleVal_eq]
    rfl
  have hunits : (((x.value * FixedPoint.shift).toNat : ℕ) : ℚ) * ulp ^ 2 = x.getDoubleVal := by
    have hnonneg : 0 ≤ x.value * FixedPoint.shift := mul_nonneg hx FixedPoint.shift_pos.le
    have hcast : (((x.value * FixedPoint.shift).toNat : ℕ) : ℚ) = x.value * FixedPoint.shift := by
      exact_mod_cast Int.toNat_of_nonneg hnonneg
    rw [hcast, sq, Share.getDoubleVal_eq, mul_assoc, ← mul_assoc (FixedPoint.shift : ℚ),
      Share.shift_mul_ulp, one_mul]
  set m := (x.value * FixedPoint.shift).toNat
  have hle : ((Nat.sqrt m : ℕ) : ℚ) ^ 2 ≤ m := by exact_mod_cast Nat.sqrt_le' m
  have hlt : (m : ℚ) < ((Nat.sqrt m : ℕ) + 1 : ℚ) ^ 2 := by exact_mod_cast Nat.lt_succ_sqrt' m
  rw [hroot, ← hunits]
  refine ⟨by positivity, ?_, ?_⟩
  · rw [mul_pow]
    gcongr
  · rw [← add_one_mul, mul_pow]
    gcongr

/-- `s` is the root, rounded down, of a number that is the variance up to rounding. -/
def IsDeviation (v : Fin N → Share n FixedPoint) (s : ℚ) : Prop :=
  ∃ V, |V - covariance v v| ≤ varianceSlack n ∧ 0 ≤ s ∧ s ^ 2 ≤ max V 0 ∧ max V 0 < (s + ulp) ^ 2

theorem stdev_returns [Multiprecision] [Config n] (t : ℕ → BtsTriple n) (hN : 0 < N)
    (v : Fin N → Share n FixedPoint) :
    Supply.Returns (stdev t v) fun r => 0 ≤ r.value ∧ IsDeviation v r.getDoubleVal := by
  refine (variance_returns t hN v).bind fun var hvar => .pure ?_
  have hulp := Share.ulp_pos
  set value := if recons var < ofInt 0 then ofInt 0 else recons var with hvalue
  have hcases : 0 ≤ value.value ∧ value.getDoubleVal = max (toRat var) 0 := by
    have hrat : toRat var = (recons var).value * ulp := Share.getDoubleVal_eq _
    have hzero : (ofInt 0).value = 0 := by rw [FixedPoint.ofInt_value, zero_mul]
    rw [hvalue]
    split
    · rename_i hneg
      rw [FixedPoint.lt_iff, hzero] at hneg
      have hcast : ((recons var).value : ℚ) ≤ 0 := by exact_mod_cast hneg.le
      refine ⟨hzero.ge, ?_⟩
      rw [Share.getDoubleVal_ofInt, Int.cast_zero, max_eq_right]
      rw [hrat]
      exact mul_nonpos_of_nonpos_of_nonneg hcast hulp.le
    · rename_i hnonneg
      rw [FixedPoint.lt_iff, hzero, not_lt] at hnonneg
      have hcast : (0 : ℚ) ≤ (recons var).value := by exact_mod_cast hnonneg
      refine ⟨hnonneg, ?_⟩
      rw [max_eq_left, toRat]
      rw [hrat]
      exact mul_nonneg hcast hulp.le
  obtain ⟨hroot, hle, hlt⟩ := sqrt_bounds hcases.1
  rw [hcases.2] at hle hlt
  exact ⟨Int.natCast_nonneg _, toRat var, hvar, hroot, hle, hlt⟩

/-! ### Correlation -/

/-- What `correl` divides by is the deviation, and `0.001` at least. -/
theorem divisor_spec {s : FixedPoint} (hs : 0 ≤ s.value) :
    (divisor s).value ≠ 0 ∧ (divisor s).getDoubleVal = max s.getDoubleVal (1 / 1000) := by
  have hlow : (ofDouble (1 / 1000)).value = 100000 :=
    FixedPoint.ofDouble_value (by norm_num [FixedPoint.shift])
  have hneg : (ofDouble (-1 / 1000)).value = -100000 :=
    FixedPoint.ofDouble_value (by norm_num [FixedPoint.shift])
  have hrat : (1 / 1000 : ℚ) = ((100000 : ℤ) : ℚ) * ulp := by
    norm_num [ulp, FixedPoint.shift]
  have hulp := Share.ulp_pos
  unfold divisor
  split
  · rename_i hsmall
    rw [FixedPoint.lt_iff, hlow, not_lt] at hsmall
    have hcast : (s.value : ℚ) ≤ (100000 : ℤ) := by exact_mod_cast hsmall.1
    rw [Share.getDoubleVal_eq, Share.getDoubleVal_eq, hlow, hrat, max_eq_right (by gcongr)]
    exact ⟨by norm_num, rfl⟩
  · rename_i hlarge
    rw [FixedPoint.lt_iff, FixedPoint.lt_iff, hlow, hneg] at hlarge
    have hgt : 100000 < s.value := by omega
    have hcast : ((100000 : ℤ) : ℚ) ≤ s.value := by exact_mod_cast hgt.le
    rw [Share.getDoubleVal_eq, hrat, max_eq_left (by gcongr)]
    exact ⟨by omega, rfl⟩

/-- How far a correlation may be off, from the deviations that it divides by. -/
def correlSlack (n : ℕ) (sx sy : ℚ) : ℚ := (ulp + (n * ulp) ^ 2) / (sx * sy) + 1002 * (n * ulp)

/-- The three divisions of `correl`: what the first two lose is divided by what follows. -/
theorem abs_quotient_sub_le {s q₁ q₂ r c sx sy m e δ : ℚ} (hm : 1 ≤ m) (hsx : 1 / 1000 ≤ sx)
    (hsy : 1 / 1000 ≤ sy) (hs : |s / m - c| ≤ e) (h₁ : |q₁ - s / sx| ≤ δ) (h₂ : |q₂ - q₁ / sy| ≤ δ)
    (h₃ : |r - q₂ / m| ≤ δ) : |r - c / (sx * sy)| ≤ e / (sx * sy) + 1002 * δ := by
  have hsxpos : 0 < sx := by linarith
  have hsypos : 0 < sy := by linarith
  have hmpos : 0 < m := by linarith
  have hδ : 0 ≤ δ := (abs_nonneg _).trans h₁
  have hsplit : r - c / (sx * sy) = (r - q₂ / m) + (q₂ - q₁ / sy) / m
      + (q₁ - s / sx) / (sy * m) + (s / m - c) / (sx * sy) := by
    field_simp
    ring
  have hsecond : |(q₂ - q₁ / sy) / m| ≤ δ := by
    rw [abs_div, abs_of_pos hmpos]
    exact (div_le_of_le_mul₀ hmpos.le hδ (by nlinarith))
  have hfirst : |(q₁ - s / sx) / (sy * m)| ≤ 1000 * δ := by
    rw [abs_div, abs_of_pos (mul_pos hsypos hmpos), div_le_iff₀ (mul_pos hsypos hmpos)]
    have hlarge : 1 ≤ 1000 * (sy * m) := by nlinarith
    nlinarith
  have hsum : |(s / m - c) / (sx * sy)| ≤ e / (sx * sy) := by
    rw [abs_div, abs_of_pos (mul_pos hsxpos hsypos)]
    gcongr
  rw [hsplit]
  calc _ ≤ |r - q₂ / m| + |(q₂ - q₁ / sy) / m| + |(q₁ - s / sx) / (sy * m)|
        + |(s / m - c) / (sx * sy)| :=
        (abs_add_le _ _).trans (by gcongr; exact (abs_add_le _ _).trans (by gcongr; exact abs_add_le _ _))
    _ ≤ δ + δ + 1000 * δ + e / (sx * sy) := by gcongr
    _ = e / (sx * sy) + 1002 * δ := by ring

theorem correlSized_returns [Multiprecision] [Config n] (t : ℕ → BtsTriple n) (hN : 0 < N)
    (x y : Fin N → Share n FixedPoint) :
    Supply.Returns (correlSized t x y) fun r => ∃ dx dy, IsDeviation x dx ∧ IsDeviation y dy ∧
      |toRat r - covariance x y / (max dx (1 / 1000) * max dy (1 / 1000))|
        ≤ correlSlack n (max dx (1 / 1000)) (max dy (1 / 1000)) := by
  have hNone : (1 : ℚ) ≤ N := by exact_mod_cast hN
  have hNne : (N : ℤ) ≠ 0 := by exact_mod_cast hN.ne'
  refine (stdev_returns t hN x).bind fun stdeX hX => ?_
  refine (stdev_returns t hN y).bind fun stdeY hY => ?_
  refine (sumProducts_returns t hN x y).bind fun tmpVec hsum => .pure ?_
  refine ⟨_, _, hX.2, hY.2, ?_⟩
  obtain ⟨hXne, hXval⟩ := divisor_spec hX.1
  obtain ⟨hYne, hYval⟩ := divisor_spec hY.1
  have hfirst := Share.abs_toRat_div_value_sub_le (sum tmpVec) hXne
  have hsecond := Share.abs_toRat_div_value_sub_le (sum tmpVec / divisor stdeX) hYne
  have hthird := Share.abs_toRat_div_ofInt_sub_le (sum tmpVec / divisor stdeX / divisor stdeY) hNne
  rw [hXval] at hfirst
  rw [hYval] at hsecond
  rw [Int.cast_natCast] at hthird
  have hsx : 1 / 1000 ≤ max stdeX.getDoubleVal (1 / 1000) := le_max_right _ _
  have hsy : 1 / 1000 ≤ max stdeY.getDoubleVal (1 / 1000) := le_max_right _ _
  generalize max stdeX.getDoubleVal (1 / 1000) = sx at *
  generalize max stdeY.getDoubleVal (1 / 1000) = sy at *
  exact abs_quotient_sub_le hNone hsx hsy hsum hfirst hsecond hthird

end QuickMpc.Math
