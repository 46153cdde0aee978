import Mathlib.Algebra.Order.Field.Power
import Mathlib.Algebra.Order.Field.Rat
import Mathlib.Data.Nat.Log
import Mathlib.Data.Rat.Floor
import Mathlib.Tactic.FieldSimp
import Mathlib.Tactic.Linarith
import Mathlib.Tactic.NormNum
import Mathlib.Tactic.Positivity

/-!
# Double precision

The result of one operation on double-precision numbers, as a rational number: the exact
result, rounded to 53 binary digits (`round`), or infinite where it is too large (`ofRat`).

An operation is off by at most one part in `2 ^ 53`. Numbers below the normal range are
rounded no differently here: they do not occur where a result is at least `10 ^ -8`.
-/

namespace Binary64

/-- The exponent of the power of two just below a number. -/
def exponent (q : ℚ) : ℤ :=
  let e := (q.num.natAbs.log2 : ℤ) - q.den.log2
  if (2 : ℚ) ^ e ≤ |q| then e else e - 1

/-- The nearest whole number, the even one of two. -/
def nearestEven (q : ℚ) : ℤ :=
  let below := ⌊q⌋
  if q - below < 1 / 2 then below
  else if 1 / 2 < q - below then below + 1
  else if below % 2 = 0 then below
  else below + 1

/-- The nearest number with 53 binary digits. -/
def round (q : ℚ) : ℚ :=
  if q = 0 then 0
  else
    let unit := (2 : ℚ) ^ (exponent q - 52)
    nearestEven (q / unit) * unit

/-- From here on a result is rounded to an infinite one. -/
def limit : ℚ := 2 ^ 1024 - 2 ^ 970

/-- A result, `none` when it is infinite. -/
def ofRat (q : ℚ) : Option ℚ := if |q| < limit then some (round q) else none

theorem two_pow_le_limit : (2 : ℚ) ^ 1023 ≤ limit := by
  have hsmall : (2 : ℚ) ^ 970 ≤ 2 ^ 1023 := pow_le_pow_right₀ one_le_two (by norm_num)
  rw [limit, pow_succ 2 1023, mul_two, le_sub_iff_add_le]
  exact add_le_add le_rfl hsmall

theorem zpow_exponent_le {q : ℚ} (hq : q ≠ 0) : (2 : ℚ) ^ exponent q ≤ |q| := by
  have hnum : q.num.natAbs ≠ 0 := Int.natAbs_ne_zero.mpr (Rat.num_ne_zero.mpr hq)
  unfold exponent
  dsimp only
  split
  · assumption
  · have hlow : (2 : ℚ) ^ q.num.natAbs.log2 ≤ q.num.natAbs := by
      exact_mod_cast Nat.log2_self_le hnum
    have hhigh : (q.den : ℚ) ≤ 2 ^ (q.den.log2 + 1) := by
      exact_mod_cast Nat.lt_log2_self.le
    have hden : (0 : ℚ) < q.den := by exact_mod_cast q.den_pos
    have habs : |q| = q.num.natAbs / q.den := by
      rw [Rat.abs_def, Rat.divInt_eq_div, Int.cast_natCast, Int.cast_natCast]
    rw [habs, le_div_iff₀ hden, sub_sub, zpow_sub₀ two_ne_zero, zpow_natCast]
    rw [div_mul_eq_mul_div, div_le_iff₀ (by positivity)]
    exact_mod_cast mul_le_mul hlow hhigh hden.le (by positivity)

theorem abs_nearestEven_sub_le (q : ℚ) : |(nearestEven q : ℚ) - q| ≤ 1 / 2 := by
  have hlow := Int.floor_le q
  have hhigh := (Int.lt_floor_add_one q).le
  unfold nearestEven
  dsimp only
  rw [abs_le]
  split
  · exact ⟨by linarith, by linarith⟩
  · split
    · push_cast
      exact ⟨by linarith, by linarith⟩
    · split
      · exact ⟨by linarith, by linarith⟩
      · push_cast
        exact ⟨by linarith, by linarith⟩

/-- Rounding is off by at most one part in `2 ^ 53`. -/
theorem abs_round_sub_le (q : ℚ) : |round q - q| ≤ |q| / 2 ^ 53 := by
  unfold round
  split
  next hzero => simp [hzero]
  next hne =>
    dsimp only
    set unit := (2 : ℚ) ^ (exponent q - 52) with hunit
    have hpos : 0 < unit := zpow_pos two_pos _
    have hscale : nearestEven (q / unit) * unit - q = (nearestEven (q / unit) - q / unit) * unit := by
      field_simp
    have hle : unit * 2 ^ 52 ≤ |q| := by
      rw [hunit, ← zpow_natCast, ← zpow_add₀ two_ne_zero]
      simpa using zpow_exponent_le hne
    rw [hscale, abs_mul, abs_of_pos hpos]
    have hhalf := mul_le_mul_of_nonneg_right (abs_nearestEven_sub_le (q / unit)) hpos.le
    rw [le_div_iff₀ (by positivity)]
    linarith

theorem round_nonneg {q : ℚ} (hq : 0 ≤ q) : 0 ≤ round q := by
  have h := (abs_le.mp (abs_round_sub_le q)).1
  rw [abs_of_nonneg hq] at h
  linarith

/-- Two roundings, one after the other. -/
theorem abs_sub_le_of_near {a b c : ℚ} {k : ℕ} (hab : |b - a| ≤ |a| / 2 ^ k)
    (hbc : |c - b| ≤ |b| / 2 ^ (k + 1)) : |c - a| ≤ |a| / 2 ^ k * 2 := by
  have hpow : (1 : ℚ) ≤ 2 ^ k := one_le_pow₀ one_le_two
  have hb : |b| ≤ 2 * |a| := by
    have htri := abs_sub_abs_le_abs_sub b a
    have hle : |a| / 2 ^ k ≤ |a| := div_le_self (abs_nonneg a) hpow
    linarith
  have hsecond : |b| / 2 ^ (k + 1) ≤ |a| / 2 ^ k := by
    rw [pow_succ, ← div_div, div_right_comm]
    exact div_le_div_of_nonneg_right (by linarith) (by positivity)
  calc |c - a| ≤ |c - b| + |b - a| := abs_sub_le _ _ _
    _ ≤ |a| / 2 ^ k * 2 := by linarith

end Binary64
