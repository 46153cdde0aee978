import QuickMpc.Division
import QuickMpc.Lib.RoundedSum

/-!
# QuickMpc.Rounding

The fixed-point shares as rational numbers: `toRat` is what `recons` and
`getDoubleVal` return. Sums and differences are exact. A product is off by less than
one unit in the last place, `ulp`; a product or a quotient with a public number is
rounded by every party and is off by one unit for each of them. A quotient of two
shares loses more, by the factor that `getInv` multiplies with.
-/

namespace QuickMpc.Share

open FixedPoint (shift)

variable {n : ℕ}

/-- The number that a share stands for. -/
def toRat (x : Share n FixedPoint) : ℚ := (recons x).getDoubleVal

/-- One unit in the last place. -/
def ulp : ℚ := 1 / shift

theorem shift_cast_pos : (0 : ℚ) < shift := by exact_mod_cast FixedPoint.shift_pos

theorem ulp_pos : 0 < ulp := one_div_pos.mpr shift_cast_pos

theorem toRat_eq (x : Share n FixedPoint) : toRat x = secret x * ulp := by
  rw [toRat, FixedPoint.getDoubleVal, recons_value_fixedPoint, ulp, mul_one_div]

theorem getDoubleVal_eq (c : FixedPoint) : c.getDoubleVal = c.value * ulp := by
  rw [FixedPoint.getDoubleVal, ulp, mul_one_div]

theorem shift_mul_ulp : (shift : ℚ) * ulp = 1 := mul_one_div_cancel shift_cast_pos.ne'

theorem getDoubleVal_ofInt (k : ℤ) : (FixedPoint.ofInt k).getDoubleVal = k := by
  rw [getDoubleVal_eq, FixedPoint.ofInt_value, Int.cast_mul, mul_assoc, shift_mul_ulp, mul_one]

theorem toRat_inj {x y : Share n FixedPoint} : toRat x = toRat y ↔ secret x = secret y := by
  rw [toRat_eq, toRat_eq, mul_left_inj' ulp_pos.ne', Int.cast_inj]

theorem toRat_eq_zero_iff {x : Share n FixedPoint} : toRat x = 0 ↔ secret x = 0 := by
  rw [toRat_eq, mul_eq_zero, or_iff_left ulp_pos.ne', Int.cast_eq_zero]

/-! ### What is exact -/

@[simp] theorem toRat_zero : toRat (0 : Share n FixedPoint) = 0 := by
  rw [toRat_eq, secret_zero, Int.cast_zero, zero_mul]

@[simp] theorem toRat_add (x y : Share n FixedPoint) : toRat (x + y) = toRat x + toRat y := by
  simp only [toRat_eq, secret_add]
  push_cast
  ring

@[simp] theorem toRat_sub (x y : Share n FixedPoint) : toRat (x - y) = toRat x - toRat y := by
  simp only [toRat_eq, secret_sub]
  push_cast
  ring

/-- A loop that adds up shares. -/
theorem toRat_foldl_add {ι : Type} (f : ι → Share n FixedPoint) :
    ∀ (is : List ι) (acc : Share n FixedPoint),
      toRat (is.foldl (fun ret i => ret + f i) acc) = toRat acc + (is.map fun i => toRat (f i)).sum
  | [], acc => by simp
  | i :: is, acc => by
      rw [List.foldl_cons, toRat_foldl_add f is, toRat_add, List.map_cons, List.sum_cons, add_assoc]

/-- A whole share. -/
theorem toRat_of_secret {x : Share n FixedPoint} {k : ℤ} (h : secret x = shift * k) :
    toRat x = k := by
  rw [toRat_eq, h, Int.cast_mul, mul_right_comm, shift_mul_ulp, one_mul]

section Public

variable [Config n]

@[simp] theorem toRat_add_value (x : Share n FixedPoint) (c : FixedPoint) :
    toRat (x + c) = toRat x + c.getDoubleVal := by
  simp only [toRat_eq, secret_add_value, getDoubleVal_eq, denote_eq_value]
  push_cast
  ring

@[simp] theorem toRat_sharize (x : FixedPoint) (r : Fin n → FixedPoint) :
    toRat (sharize x r) = x.getDoubleVal := by
  rw [toRat_eq, secret_sharize, denote_eq_value, getDoubleVal_eq]

end Public

/-! ### What is rounded -/

/-- A bound in units, for the numbers. -/
theorem abs_mul_ulp_lt {a b : ℤ} (h : |shift * a - b| < shift) :
    |(a : ℚ) * ulp - b * (ulp * ulp)| < ulp := by
  have hcast : |(shift : ℚ) * a - b| < shift := by exact_mod_cast h
  have hscale : (a : ℚ) * ulp - b * (ulp * ulp) = (shift * a - b) * (ulp * ulp) := by
    rw [sub_mul, mul_comm (shift : ℚ), mul_assoc, ← mul_assoc (shift : ℚ), shift_mul_ulp, one_mul]
  have hpos : 0 < ulp * ulp := mul_pos ulp_pos ulp_pos
  calc |(a : ℚ) * ulp - b * (ulp * ulp)| = |(shift : ℚ) * a - b| * (ulp * ulp) := by
        rw [hscale, abs_mul, abs_of_pos hpos]
    _ < shift * (ulp * ulp) := mul_lt_mul_of_pos_right hcast hpos
    _ = ulp := by rw [← mul_assoc, shift_mul_ulp, one_mul]

section Multiplication

variable [Config n]

/-- The product of two shares. -/
theorem abs_toRat_mul_sub_lt (t : BtsTriple n) (x y : Share n FixedPoint) :
    |toRat (mul t.convertStr2Triple x y) - toRat x * toRat y| < ulp := by
  have h := abs_mul_ulp_lt (abs_shift_mul_secret_mul_sub_lt t x y)
  rw [toRat_eq, toRat_eq x, toRat_eq y]
  convert h using 2
  push_cast
  ring

/-- A product with a whole factor is exact. -/
theorem toRat_mul_whole (t : BtsTriple n) (x y : Share n FixedPoint) {k : ℤ}
    (hy : secret y = shift * k) : toRat (mul t.convertStr2Triple x y) = toRat x * k := by
  rw [toRat_eq, secret_mul_whole t x y hy, toRat_eq, Int.cast_mul, mul_right_comm]

theorem toRat_whole_mul (t : BtsTriple n) (x y : Share n FixedPoint) {k : ℤ}
    (hx : secret x = shift * k) : toRat (mul t.convertStr2Triple x y) = k * toRat y := by
  rw [toRat_eq, secret_whole_mul t x y hx, toRat_eq, Int.cast_mul, mul_assoc]

end Multiplication

/-- The inverse is too small, in absolute value, by at most the random factor in units. -/
theorem abs_toRat_getInv_sub_le [Multiprecision] [Config n] (t : Fin 2 → BtsTriple n)
    (r sent : Draws n) {s : Share n FixedPoint} (hs : secret s ≠ 0) :
    |toRat (getInv t r sent s) - 1 / toRat s| ≤ r.factor * ulp := by
  have hne : (secret s : ℚ) ≠ 0 := by exact_mod_cast hs
  have hshift := shift_cast_pos
  have hmul : (secret s : ℚ) * inverse (secret s) r.factor
      = shift * shift - lost (secret s) r.factor := by
    exact_mod_cast mul_inverse (secret s) r.factor
  have hdiff : toRat (getInv t r sent s) - 1 / toRat s
      = -(lost (secret s) r.factor / secret s * ulp) := by
    rw [toRat_eq, toRat_eq, secret_getInv, ulp]
    field_simp
    linarith
  have hle : (lost (secret s) r.factor : ℚ) ≤ |(secret s : ℚ)| * r.factor := by
    exact_mod_cast lost_le hs r.factor_pos
  have hnonneg : (0 : ℚ) ≤ lost (secret s) r.factor := by exact_mod_cast lost_nonneg _ _
  rw [hdiff, abs_neg, abs_mul, abs_div, abs_of_nonneg hnonneg, abs_of_pos ulp_pos]
  refine mul_le_mul_of_nonneg_right ?_ ulp_pos.le
  rw [div_le_iff₀ (abs_pos.mpr hne), mul_comm]
  exact hle

theorem Draws.factor_le (r : Draws n) : r.factor ≤ 999 * n := by
  have hle : ∀ i ∈ Finset.univ, r.value i ≤ 999 := fun i _ => Int.le_of_lt_add_one (r.lt i)
  have hsum := Finset.sum_le_card_nsmul _ _ _ hle
  rw [Finset.card_univ, Fintype.card_fin, nsmul_eq_mul, mul_comm] at hsum
  exact hsum

/-- The quotient of two shares. -/
theorem abs_toRat_div_sub_lt [Multiprecision] [Config n] (t : Fin 3 → BtsTriple n)
    (r sent : Draws n) (x : Share n FixedPoint) {y : Share n FixedPoint} (hy : secret y ≠ 0) :
    |toRat (div t r sent x y) - toRat x / toRat y| < (999 * n * |toRat x| + 1) * ulp := by
  have hmul := abs_toRat_mul_sub_lt (t (Fin.last 2)) x (getInv (fun i => t i.castSucc) r sent y)
  have hinv := abs_toRat_getInv_sub_le (fun i => t i.castSucc) r sent hy
  have hfactor : (r.factor : ℚ) ≤ 999 * n := by exact_mod_cast r.factor_le
  set inv := getInv (fun i => t i.castSucc) r sent y
  have hcut : |toRat x * toRat inv - toRat x / toRat y| ≤ |toRat x| * (999 * n * ulp) := by
    rw [div_eq_mul_one_div (toRat x), ← mul_sub, abs_mul]
    exact mul_le_mul_of_nonneg_left
      (hinv.trans (mul_le_mul_of_nonneg_right hfactor ulp_pos.le)) (abs_nonneg _)
  calc |toRat (div t r sent x y) - toRat x / toRat y|
      ≤ |toRat (div t r sent x y) - toRat x * toRat inv|
          + |toRat x * toRat inv - toRat x / toRat y| := abs_sub_le _ _ _
    _ < ulp + |toRat x| * (999 * n * ulp) := add_lt_add_of_lt_of_le hmul hcut
    _ = (999 * n * |toRat x| + 1) * ulp := by ring

/-- The quotient by a public number. -/
theorem abs_toRat_div_value_sub_le [Multiprecision] (x : Share n FixedPoint) {c : FixedPoint}
    (hc : c.value ≠ 0) : |toRat (x / c) - toRat x / c.getDoubleVal| ≤ n * ulp := by
  have hsum := RoundedSum.abs_sum_quot_sub_div_le hc fun i =>
    FixedPoint.abs_sub_mul_quot_le hc (x.value i).value
  have hnum : toRat (x / c) - toRat x / c.getDoubleVal
      = (((∑ i, FixedPoint.quot (x.value i).value c.value : ℤ) : ℚ)
          - (∑ i, (x.value i).value * shift : ℤ) / c.value) * ulp := by
    have hquot : secret (x / c) = ∑ i, FixedPoint.quot (x.value i).value c.value := rfl
    rw [toRat_eq, hquot, toRat_eq x, secret_eq_sum, FixedPoint.getDoubleVal, ← Finset.sum_mul, ulp]
    push_cast
    have hshift := shift_cast_pos.ne'
    have hcne : (c.value : ℚ) ≠ 0 := by exact_mod_cast hc
    field_simp
  rw [Fintype.card_fin] at hsum
  rw [hnum, abs_mul, abs_of_pos ulp_pos]
  exact mul_le_mul_of_nonneg_right hsum ulp_pos.le

/-- The product with a public number. -/
theorem abs_toRat_mul_value_sub_le (x : Share n FixedPoint) (c : FixedPoint) :
    |toRat (x * c) - toRat x * c.getDoubleVal| ≤ n * ulp := by
  have hsum := RoundedSum.abs_sum_tdiv_sub_div_le FixedPoint.shift_pos.ne' fun i =>
    (x.value i).value * c.value
  have hnum : toRat (x * c) - toRat x * c.getDoubleVal
      = (((∑ i, ((x.value i).value * c.value).tdiv shift : ℤ) : ℚ)
          - (∑ i, (x.value i).value * c.value : ℤ) / shift) * ulp := by
    have hprod : secret (x * c) = ∑ i, ((x.value i).value * c.value).tdiv shift := rfl
    rw [toRat_eq, hprod, toRat_eq x, secret_eq_sum, FixedPoint.getDoubleVal, ← Finset.sum_mul, ulp]
    push_cast
    have hshift := shift_cast_pos.ne'
    field_simp
  rw [Fintype.card_fin] at hsum
  rw [hnum, abs_mul, abs_of_pos ulp_pos]
  exact mul_le_mul_of_nonneg_right hsum ulp_pos.le

theorem abs_toRat_value_mul_sub_le (c : FixedPoint) (x : Share n FixedPoint) :
    |toRat (c * x) - c.getDoubleVal * toRat x| ≤ n * ulp := by
  have h := abs_toRat_mul_value_sub_le x c
  rwa [mul_comm (toRat x)] at h

/-- The quotient by a whole number. -/
theorem abs_toRat_div_ofInt_sub_le [Multiprecision] (x : Share n FixedPoint) {k : ℤ} (hk : k ≠ 0) :
    |toRat (x / FixedPoint.ofInt k) - toRat x / k| ≤ n * ulp := by
  have hne : (FixedPoint.ofInt k).value ≠ 0 :=
    mul_ne_zero hk FixedPoint.shift_pos.ne'
  have h := abs_toRat_div_value_sub_le x hne
  rwa [getDoubleVal_ofInt] at h

end QuickMpc.Share
