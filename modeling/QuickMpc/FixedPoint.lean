import Mathlib.Algebra.Order.Field.Rat
import Mathlib.Data.Rat.Floor
import Mathlib.Tactic.NormNum.DivMod
import QuickMpc.Basic
import QuickMpc.Lib.Binary64
import QuickMpc.Lib.Decimal
import QuickMpc.Lib.TruncDiv

/-!
# QuickMpc.FixedPoint

The value type `FixedPointImpl<cpp_int, cpp_dec_float<50>, 18, 8>`: an unbounded
integer counting units of `10^-8`.

Addition and subtraction are exact, and a product is rounded toward zero. What the
number types of `boost::multiprecision` decide is a parameter (`Multiprecision`):

* A quotient is taken in `cpp_dec_float<50>`, which multiplies with a reciprocal that
  its iteration leaves a little too small, and is then rounded toward zero. So a
  quotient that does not come out even is the one of integer division, and one that
  does may be a unit short of it: `1 / 0.3125` is `3.19999999`, and `21 / 7` is
  `2.99999999`.
* A stored integer becomes a double, `double`, with a small relative error.
* A text carries the fifty digits of the decimal type, and more are not relied on.

`ofDouble` stands for the doubles that the source writes down, all of which are stored
exactly, and `ofComputed` for those that it computes. `getDoubleVal` is the number that a
stored value stands for. It is used for the double as well where that is rounded to a
whole number or compared with a constant, or where the stored integers that are compared
stay below `2^53` and keep their order.
`operator==` tolerates one unit in the last place; `operator<` does not.
-/

namespace QuickMpc

/-- A fixed-point number; `value` counts units of `10^-8`. -/
@[ext] structure FixedPoint where
  value : ℤ
  deriving DecidableEq, Repr

namespace FixedPoint

/-- `shift = 10^resolution`: the units in `1`. -/
def shift : ℤ := 100000000

/-- `maxInt = 10^(length - resolution)`. -/
def maxInt : ℤ := 10000000000

theorem shift_pos : 0 < shift := by norm_num [shift]

/-- Rounding toward zero, `static_cast` from a floating-point number. -/
def truncate (q : ℚ) : ℤ := q.num.tdiv q.den

/-- The constructor from an integer. -/
def ofInt (v : ℤ) : FixedPoint := ⟨v * shift⟩

/-- The constructor from a floating-point number. -/
def ofDouble (v : ℚ) : FixedPoint := ⟨truncate (v * shift)⟩

/-- `getDoubleVal`. -/
def getDoubleVal (x : FixedPoint) : ℚ := x.value / shift

/-- `std::round`: the nearest integer, halves away from zero. -/
def stdRound (q : ℚ) : ℤ := if 0 ≤ q then ⌊q + 1 / 2⌋ else -⌊-q + 1 / 2⌋

/-- `T(std::sqrt(x.getDoubleVal()))`, for a value that is not negative: the root
of `x.value / shift`, in units and rounded down. -/
def sqrt (x : FixedPoint) : FixedPoint := ⟨Nat.sqrt (x.value * shift).toNat⟩

end FixedPoint

/-- The number types of `boost::multiprecision`, as far as the code relies on them. -/
class Multiprecision where
  /-- Whether the decimal quotient of `a` and `b`, which comes out even, falls short of it. The
  operands are taken to fit into the digits of a decimal. -/
  short : ℤ → ℤ → Bool
  /-- `convert_to<double>`; nothing stands for an infinite double. -/
  toDouble : ℤ → Option ℚ
  toDouble_near : ∀ a : ℤ, |a| < 2 ^ 1023 →
    ∃ d, toDouble a = some d ∧ |d - a| ≤ |(a : ℚ)| / 2 ^ 52
  /-- The text of a stored integer, with twenty places. -/
  str : ℤ → String
  /-- The stored integer for a text; without a result where the decimal type throws. -/
  parse : String → Option ℤ
  parse_str : ∀ a : ℤ, |a| < 10 ^ 50 → parse (str a) = some a

namespace FixedPoint

/-- `D(a) / D(b) * shift`, rounded toward zero. -/
def quot [Multiprecision] (a b : ℤ) : ℤ :=
  let q := (a * shift).tdiv b
  if (a * shift).tmod b = 0 ∧ Multiprecision.short a b then q - q.sign else q

/-- The largest double. -/
def dblMax : ℤ := 2 ^ 1024 - 2 ^ 971

/-- The double that `getDoubleVal` returns. -/
def double [Multiprecision] (x : FixedPoint) : ℚ :=
  Binary64.round ((Multiprecision.toDouble x.value).getD dblMax / shift)

/-- The constructor from a double that was computed, where nothing stands for an infinite one:
this is replaced by the largest. When the product with the shift is infinite, its conversion
does not come back. -/
def ofComputed : Option ℚ → Option FixedPoint
  | none => some ⟨dblMax⟩
  | some v => (Binary64.ofRat (v * shift)).map fun w => ⟨truncate w⟩

/-- `getStrVal`. -/
def getStrVal [Multiprecision] (v : FixedPoint) : String := Multiprecision.str v.value

/-- The constructor from a text; without a result where it throws. -/
def ofString [Multiprecision] (str : String) : Option FixedPoint :=
  (Multiprecision.parse str).map FixedPoint.mk

/-- `getInv`, for a value that is not zero. -/
def getInv [Multiprecision] (x : FixedPoint) : FixedPoint := ⟨quot shift x.value⟩

instance : Zero FixedPoint := ⟨⟨0⟩⟩

/-- `operator+=`. -/
instance : Add FixedPoint := ⟨fun x y => ⟨x.value + y.value⟩⟩

/-- `operator-=`. -/
instance : Sub FixedPoint := ⟨fun x y => ⟨x.value - y.value⟩⟩

/-- Unary minus. -/
instance : Neg FixedPoint := ⟨fun x => ⟨-x.value⟩⟩

/-- `operator*=`: the product carries the shift twice, one is divided away. -/
instance : Mul FixedPoint := ⟨fun x y => ⟨(x.value * y.value).tdiv shift⟩⟩

/-- `operator/=`, for a non-zero divisor. -/
instance [Multiprecision] : Div FixedPoint := ⟨fun x y => ⟨quot x.value y.value⟩⟩

/-- `operator%=`: the sign follows the dividend. -/
instance : Mod FixedPoint := ⟨fun x y => ⟨x.value.tmod y.value⟩⟩

/-- `operator==`: equality up to one unit in the last place. -/
def eq (x y : FixedPoint) : Bool :=
  decide (x.value - y.value ≥ -1) && decide (x.value - y.value ≤ 1)

/-- `operator<`. -/
instance : LT FixedPoint := ⟨fun x y => x.value < y.value⟩

instance (x y : FixedPoint) : Decidable (x < y) :=
  inferInstanceAs (Decidable (x.value < y.value))

@[simp] theorem zero_value : (0 : FixedPoint).value = 0 := rfl
@[simp] theorem add_value (x y : FixedPoint) : (x + y).value = x.value + y.value := rfl
@[simp] theorem sub_value (x y : FixedPoint) : (x - y).value = x.value - y.value := rfl
@[simp] theorem neg_value (x : FixedPoint) : (-x).value = -x.value := rfl
@[simp] theorem ofInt_value (v : ℤ) : (ofInt v).value = v * shift := rfl

theorem mul_value (x y : FixedPoint) : (x * y).value = (x.value * y.value).tdiv shift := rfl
theorem div_value [Multiprecision] (x y : FixedPoint) : (x / y).value = quot x.value y.value := rfl
theorem getInv_value [Multiprecision] (x : FixedPoint) : x.getInv.value = quot shift x.value := rfl
theorem mod_value (x y : FixedPoint) : (x % y).value = x.value.tmod y.value := rfl

theorem lt_iff {x y : FixedPoint} : x < y ↔ x.value < y.value := Iff.rfl

/-- Multiplication by a whole number is exact. -/
theorem mul_ofInt_value (x : FixedPoint) (k : ℤ) : (x * ofInt k).value = x.value * k := by
  rw [mul_value, ofInt_value, ← mul_assoc, Int.mul_tdiv_cancel _ shift_pos.ne']

theorem ofInt_mul_value (k : ℤ) (x : FixedPoint) : (ofInt k * x).value = k * x.value := by
  rw [mul_value, ofInt_value, mul_right_comm, Int.mul_tdiv_cancel _ shift_pos.ne']

/-- Multiplication is off by less than one unit in the last place. -/
theorem abs_shift_mul_sub_lt (x y : FixedPoint) :
    |shift * (x * y).value - x.value * y.value| < shift :=
  TruncDiv.abs_mul_tdiv_sub_lt shift_pos _

/-- A whole double keeps its value. -/
theorem truncate_intCast (k : ℤ) : truncate k = k := by
  simp [truncate]

/-- On what is not negative, rounding toward zero is rounding down. -/
theorem truncate_of_nonneg {q : ℚ} (hq : 0 ≤ q) : truncate q = ⌊q⌋ := by
  rw [truncate, Int.tdiv_eq_ediv_of_nonneg (Rat.num_nonneg.mpr hq), Rat.floor_def']

/-- A decimal with at most eight places is stored exactly. -/
theorem ofDouble_value {v : ℚ} {k : ℤ} (h : v * shift = k) : (ofDouble v).value = k := by
  rw [ofDouble, h, truncate_intCast]

theorem ofDouble_intCast (k : ℤ) : ofDouble k = ofInt k := by
  ext
  exact ofDouble_value (Int.cast_mul k shift).symm

theorem ofDouble_ofNat (k : ℕ) [k.AtLeastTwo] :
    ofDouble (OfNat.ofNat k) = ofInt (OfNat.ofNat k) :=
  ofDouble_intCast (OfNat.ofNat k)

/-- `FixedPoint(1.0)`. -/
theorem ofDouble_one_value : (ofDouble 1).value = shift := by
  rw [show (1 : ℚ) = ((1 : ℤ) : ℚ) from Int.cast_one.symm, ofDouble_intCast, ofInt_value, one_mul]

/-- `FixedPoint(0.5)`. -/
theorem ofDouble_half_value : (ofDouble (1 / 2)).value = 50000000 :=
  ofDouble_value (by norm_num [shift])

/-- Multiplication by `0.5` halves the stored integer, toward zero. -/
theorem mul_half_value (x : FixedPoint) : (x * ofDouble (1 / 2)).value = x.value.tdiv 2 := by
  rw [mul_value, ofDouble_half_value, show shift = 2 * 50000000 by norm_num [shift]]
  exact TruncDiv.mul_tdiv_mul_left (by norm_num) x.value 2

/-! ### Doubles and texts -/

/-- A double is off by at most one part in `2 ^ 51`. -/
theorem abs_double_sub_le [Multiprecision] {x : FixedPoint} (hx : |x.value| < 2 ^ 1023) :
    |x.double - x.getDoubleVal| ≤ |x.getDoubleVal| / 2 ^ 51 := by
  obtain ⟨d, hd, hnear⟩ := Multiprecision.toDouble_near x.value hx
  have hshift : (0 : ℚ) < shift := by exact_mod_cast shift_pos
  have hscaled : |d / shift - x.getDoubleVal| ≤ |x.getDoubleVal| / 2 ^ 52 := by
    rw [getDoubleVal, ← sub_div, abs_div, abs_div, abs_of_pos hshift, div_right_comm]
    exact div_le_div_of_nonneg_right hnear hshift.le
  rw [double, hd, Option.getD_some]
  have h := Binary64.abs_sub_le_of_near hscaled (Binary64.abs_round_sub_le (d / shift))
  have hpow : |x.getDoubleVal| / 2 ^ 52 * 2 = |x.getDoubleVal| / 2 ^ 51 := by ring
  rwa [hpow] at h

/-- A text with fifty digits comes back as it was. -/
theorem ofString_getStrVal [Multiprecision] {v : FixedPoint} (hv : |v.value| < 10 ^ 50) :
    ofString v.getStrVal = some v := by
  rw [ofString, getStrVal, Multiprecision.parse_str v.value hv, Option.map_some]

/-! ### Quotients -/

section Quotients

variable [Multiprecision]

theorem quot_zero_left (b : ℤ) : quot 0 b = 0 := by simp [quot]

/-- A quotient that does not come out even is the one of integer division. -/
theorem quot_of_tmod_ne_zero {a b : ℤ} (h : (a * shift).tmod b ≠ 0) :
    quot a b = (a * shift).tdiv b :=
  if_neg fun hshort => h hshort.1

/-- What is missing from the dividend when the quotient is multiplied back. -/
theorem sub_mul_quot (a b : ℤ) :
    a * shift - b * quot a b
      = if (a * shift).tmod b = 0 ∧ Multiprecision.short a b then b * ((a * shift).tdiv b).sign
        else (a * shift).tmod b := by
  have hsplit := Int.mul_tdiv_add_tmod (a * shift) b
  unfold quot
  dsimp only
  split
  next hshort =>
    rw [hshort.1, add_zero] at hsplit
    rw [mul_sub, hsplit, sub_sub_cancel]
  next => linarith

/-- A quotient is off by at most one unit. -/
theorem abs_sub_mul_quot_le {b : ℤ} (hb : b ≠ 0) (a : ℤ) : |a * shift - b * quot a b| ≤ |b| := by
  have hsign : ∀ q : ℤ, |q.sign| ≤ 1 := by
    intro q
    rcases Int.sign_trichotomy q with h | h | h <;> rw [h] <;> decide
  rw [sub_mul_quot]
  split
  · rw [abs_mul]
    exact mul_le_of_le_one_right (abs_nonneg b) (hsign _)
  · exact (TruncDiv.abs_tmod_lt hb _).le

/-- It is off toward zero. -/
theorem sub_mul_quot_mul_nonneg (a b : ℤ) : 0 ≤ (a * shift - b * quot a b) * a := by
  refine nonneg_of_mul_nonneg_left ?_ shift_pos
  rw [mul_assoc, sub_mul_quot]
  split
  next hshort =>
    have heven := Int.mul_tdiv_add_tmod (a * shift) b
    rw [hshort.1, add_zero] at heven
    set q := (a * shift).tdiv b
    calc 0 ≤ b * b * (q.sign * q) := by
          rw [Int.sign_mul_self]
          exact mul_nonneg (mul_self_nonneg b) (Int.natCast_nonneg _)
      _ = b * q.sign * (a * shift) := by
          rw [← heven]
          ring
  next => exact TruncDiv.tmod_mul_self_nonneg _ b

/-- Multiplied back, the quotient has the sign of the dividend. -/
theorem mul_quot_mul_nonneg (a b : ℤ) : 0 ≤ b * quot a b * a := by
  refine nonneg_of_mul_nonneg_left ?_ shift_pos
  rw [mul_assoc]
  unfold quot
  dsimp only
  split
  next hshort =>
    have heven := Int.mul_tdiv_add_tmod (a * shift) b
    rw [hshort.1, add_zero] at heven
    set q := (a * shift).tdiv b
    have hstep : 0 ≤ (q - q.sign) * q := by
      rw [sub_mul, Int.sign_mul_self, ← Int.natAbs_mul_self, sub_nonneg]
      exact_mod_cast Nat.le_mul_self _
    calc 0 ≤ b * b * ((q - q.sign) * q) := mul_nonneg (mul_self_nonneg b) hstep
      _ = b * (q - q.sign) * (a * shift) := by
          rw [← heven]
          ring
  next => exact TruncDiv.mul_tdiv_mul_self_nonneg _ b

/-- What is missing from the dividend when it is divided by a whole number. -/
theorem sub_mul_div_ofInt (x : FixedPoint) (k : ℤ) :
    (x.value - k * (x / ofInt k).value) * shift
      = x.value * shift - (k * shift) * quot x.value (k * shift) := by
  rw [div_value, ofInt_value]
  ring

/-- Division by a whole number, in units. -/
theorem abs_sub_mul_div_ofInt_le {k : ℤ} (hk : k ≠ 0) (x : FixedPoint) :
    |x.value - k * (x / ofInt k).value| ≤ |k| := by
  have h := abs_sub_mul_quot_le (mul_ne_zero hk shift_pos.ne') x.value
  rw [← sub_mul_div_ofInt, abs_mul, abs_mul] at h
  exact le_of_mul_le_mul_right h (abs_pos.mpr shift_pos.ne')

theorem sub_mul_div_ofInt_mul_nonneg (k : ℤ) (x : FixedPoint) :
    0 ≤ (x.value - k * (x / ofInt k).value) * x.value := by
  have h := sub_mul_quot_mul_nonneg x.value (k * shift)
  rw [← sub_mul_div_ofInt, mul_right_comm] at h
  exact nonneg_of_mul_nonneg_left h shift_pos

end Quotients

/-- Rounding moves a value by at most half a unit. -/
theorem abs_stdRound_sub_le (q : ℚ) : |(stdRound q : ℚ) - q| ≤ 1 / 2 := by
  have hfloor : ∀ r : ℚ, |(⌊r + 1 / 2⌋ : ℚ) - r| ≤ 1 / 2 := by
    intro r
    have hle := Int.floor_le (r + 1 / 2)
    have hlt := Int.lt_floor_add_one (r + 1 / 2)
    rw [abs_le]
    exact ⟨by linarith, by linarith⟩
  unfold stdRound
  split
  · exact hfloor q
  · have h := hfloor (-q)
    rw [Int.cast_neg, ← abs_neg]
    convert h using 2
    ring

/-- Nothing above minus one half is rounded below zero. -/
theorem stdRound_nonneg {q : ℚ} (hq : -(1 / 2) < q) : 0 ≤ stdRound q := by
  unfold stdRound
  split
  · exact Int.floor_nonneg.mpr (by linarith)
  · have hlt : ⌊-q + 1 / 2⌋ < 1 := Int.floor_lt.mpr (by push_cast; linarith)
    omega

/-- The rounded value, in units. -/
theorem abs_stdRound_mul_shift_sub_le (x : FixedPoint) :
    2 * |stdRound x.getDoubleVal * shift - x.value| ≤ shift := by
  have h := abs_stdRound_sub_le x.getDoubleVal
  have hshift : (0 : ℚ) < shift := by exact_mod_cast shift_pos
  have hval : x.getDoubleVal * shift = x.value := div_mul_cancel₀ _ hshift.ne'
  have hscaled : 2 * |((stdRound x.getDoubleVal : ℚ) * shift - x.value)| ≤ shift := by
    rw [← hval, ← sub_mul, abs_mul, abs_of_pos hshift]
    nlinarith
  exact_mod_cast hscaled

/-- A whole number is read as itself. -/
theorem getDoubleVal_of_whole {x : FixedPoint} {k : ℤ} (h : x.value = shift * k) :
    x.getDoubleVal = k := by
  have hshift : (shift : ℚ) ≠ 0 := by exact_mod_cast shift_pos.ne'
  rw [getDoubleVal, h, Int.cast_mul, mul_div_cancel_left₀ _ hshift]

theorem neg_half_lt_getDoubleVal {x : FixedPoint} (h : -shift < 2 * x.value) :
    -(1 / 2) < x.getDoubleVal := by
  have hshift : (0 : ℚ) < shift := by exact_mod_cast shift_pos
  have hval : -(shift : ℚ) < 2 * x.value := by exact_mod_cast h
  rw [getDoubleVal, lt_div_iff₀ hshift]
  linarith

theorem getDoubleVal_eq_zero_iff {x : FixedPoint} : x.getDoubleVal = 0 ↔ x.value = 0 := by
  have hshift : (shift : ℚ) ≠ 0 := by exact_mod_cast shift_pos.ne'
  rw [getDoubleVal, div_eq_zero_iff, or_iff_left hshift, Int.cast_eq_zero]

/-- The parity of a whole number that is not negative, taken with `%`. -/
theorem ofInt_mod_two_value {k : ℤ} (hk : 0 ≤ k) : (ofInt k % ofInt 2).value = k % 2 * shift := by
  rw [mod_value, ofInt_value, ofInt_value,
    Int.tmod_eq_emod_of_nonneg (mul_nonneg hk shift_pos.le), mul_comm k, mul_comm 2,
    Int.mul_emod_mul_of_pos _ _ shift_pos, mul_comm]

/-- The root of a whole square is exact. -/
theorem sqrt_value_of_square {x : FixedPoint} {k : ℤ} (h : x.value = shift * (k * k)) :
    (sqrt x).value = |k| * shift := by
  have hsq : (x.value * shift).toNat = (k.natAbs * shift.toNat) * (k.natAbs * shift.toNat) := by
    have hcast : x.value * shift
        = (((k.natAbs * shift.toNat) * (k.natAbs * shift.toNat) : ℕ) : ℤ) := by
      push_cast
      rw [Int.toNat_of_nonneg shift_pos.le, h, ← abs_mul_abs_self k]
      ring
    rw [hcast, Int.toNat_natCast]
  rw [sqrt, hsq]
  dsimp only
  rw [Nat.sqrt_eq]
  push_cast
  rw [Int.toNat_of_nonneg shift_pos.le]

end FixedPoint

/-- No quotient falls short, a double is the nearest one, and every digit of a text counts. -/
@[reducible] def Multiprecision.plain : Multiprecision where
  short := fun _ _ => false
  toDouble := fun a => Binary64.ofRat a
  toDouble_near := by
    intro a ha
    have hlt : |(a : ℚ)| < Binary64.limit := by
      have hcast : ((|a| : ℤ) : ℚ) < ((2 ^ 1023 : ℤ) : ℚ) := Int.cast_lt.mpr ha
      rw [Int.cast_abs, Int.cast_pow, Int.cast_ofNat] at hcast
      exact hcast.trans_le Binary64.two_pow_le_limit
    refine ⟨Binary64.round a, if_pos hlt, (Binary64.abs_round_sub_le a).trans ?_⟩
    exact div_le_div_of_nonneg_left (abs_nonneg _) (by positivity) (by norm_num)
  str := fun a => String.ofList (Decimal.fixed 20 (a * 10 ^ 12))
  parse := fun str =>
    (Decimal.number? str.toList).map fun q => FixedPoint.truncate (q * FixedPoint.shift)
  parse_str := by
    intro a _
    have hvalue : ((a * 10 ^ 12 : ℤ) : ℚ) / 10 ^ 20 * FixedPoint.shift = a := by
      rw [FixedPoint.shift]
      push_cast
      ring
    rw [String.toList_ofList, Decimal.number?_fixed (by norm_num), Option.map_some, hvalue,
      FixedPoint.truncate_intCast]

end QuickMpc
