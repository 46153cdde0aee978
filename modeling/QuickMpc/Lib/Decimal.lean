import Mathlib.Data.List.TakeWhile
import Mathlib.Data.Rat.Cast.Order
import Mathlib.Tactic.FieldSimp
import Mathlib.Tactic.Ring

/-!
# QuickMpc.Lib.Decimal

Decimal texts: a sign, digits, and maybe a point with further digits behind it.

`number?` is what a text denotes, and `natural?` what digits alone do. `fixed d z` writes
`z / 10 ^ d` with `d` places, and `number?_fixed` reads it back.
-/

namespace Decimal

/-! ### Reading -/

/-- Digits only. -/
def natural? (cs : List Char) : Option ℕ :=
  if cs ≠ [] ∧ cs.all Char.isDigit then some (Nat.ofDigitChars 10 cs 0) else none

/-- Digits, with or without a point behind them. -/
def unsigned? (cs : List Char) : Option ℚ :=
  let whole := cs.takeWhile Char.isDigit
  if whole = [] then none
  else
    match cs.dropWhile Char.isDigit with
    | [] => some (Nat.ofDigitChars 10 whole 0)
    | '.' :: places =>
        if places.all Char.isDigit then
          some (Nat.ofDigitChars 10 (whole ++ places) 0 / 10 ^ places.length)
        else none
    | _ => none

/-- The number that a decimal text denotes. -/
def number? : List Char → Option ℚ
  | '-' :: cs => (unsigned? cs).map fun q => -q
  | '+' :: cs => unsigned? cs
  | cs => unsigned? cs

/-! ### Writing -/

/-- A number below `10 ^ w`, in `w` digits. -/
def padded (w k : ℕ) : List Char :=
  List.replicate (w - (Nat.toDigits 10 k).length) '0' ++ Nat.toDigits 10 k

/-- `x / 10 ^ d`, with `d` places. -/
def fixedNat (d x : ℕ) : List Char := Nat.toDigits 10 (x / 10 ^ d) ++ '.' :: padded d (x % 10 ^ d)

/-- `z / 10 ^ d`, with `d` places. -/
def fixed (d : ℕ) (z : ℤ) : List Char :=
  if z < 0 then '-' :: fixedNat d z.natAbs else fixedNat d z.natAbs

/-! ### Reading what is written -/

theorem isDigit_of_mem_toDigits {k : ℕ} {c : Char} (h : c ∈ Nat.toDigits 10 k) : c.isDigit :=
  Nat.isDigit_of_mem_toDigits (by norm_num) (by norm_num) h

theorem natural?_toDigits (k : ℕ) : natural? (Nat.toDigits 10 k) = some k := by
  have hall : (Nat.toDigits 10 k).all Char.isDigit :=
    List.all_eq_true.mpr fun c hc => isDigit_of_mem_toDigits hc
  rw [natural?, if_pos ⟨Nat.toDigits_ne_nil, hall⟩, Nat.ofDigitChars_ten_toDigits]

theorem isDigit_of_mem_padded {w k : ℕ} {c : Char} (h : c ∈ padded w k) : c.isDigit := by
  rcases List.mem_append.mp h with hzero | hdigit
  · rw [List.eq_of_mem_replicate hzero]
    decide
  · exact isDigit_of_mem_toDigits hdigit

theorem length_padded {w k : ℕ} (hw : 0 < w) (hk : k < 10 ^ w) : (padded w k).length = w := by
  have hlen := (Nat.length_toDigits_le_iff (by norm_num) hw).mpr hk
  rw [padded, List.length_append, List.length_replicate]
  omega

theorem ofDigitChars_padded (w k : ℕ) : Nat.ofDigitChars 10 (padded w k) 0 = k := by
  simp [padded, Nat.ofDigitChars_append]

theorem unsigned?_fixedNat {d : ℕ} (hd : 0 < d) (x : ℕ) :
    unsigned? (fixedNat d x) = some ((x : ℚ) / 10 ^ d) := by
  have hall : ∀ c ∈ Nat.toDigits 10 (x / 10 ^ d), c.isDigit := fun c hc => isDigit_of_mem_toDigits hc
  have htake : (fixedNat d x).takeWhile Char.isDigit = Nat.toDigits 10 (x / 10 ^ d) := by
    rw [fixedNat, List.takeWhile_append_of_pos hall]
    simp
  have hdrop : (fixedNat d x).dropWhile Char.isDigit = '.' :: padded d (x % 10 ^ d) := by
    rw [fixedNat, List.dropWhile_append_of_pos hall]
    simp
  have hplaces : (padded d (x % 10 ^ d)).all Char.isDigit :=
    List.all_eq_true.mpr fun c hc => isDigit_of_mem_padded hc
  have hlen := length_padded hd (Nat.mod_lt x (Nat.pow_pos (by norm_num : 0 < 10)))
  have hvalue : Nat.ofDigitChars 10 (Nat.toDigits 10 (x / 10 ^ d) ++ padded d (x % 10 ^ d)) 0 = x := by
    rw [Nat.ofDigitChars_append, Nat.ofDigitChars_ten_toDigits, Nat.ofDigitChars_eq_ofDigitChars_zero,
      ofDigitChars_padded, hlen]
    exact Nat.div_add_mod x (10 ^ d)
  simp only [unsigned?, htake, hdrop, Nat.toDigits_ne_nil, if_false, hplaces, if_true, hvalue, hlen]

/-- A text that starts with a digit has no sign. -/
theorem number?_toDigits_append (k : ℕ) (cs : List Char) :
    number? (Nat.toDigits 10 k ++ cs) = unsigned? (Nat.toDigits 10 k ++ cs) := by
  obtain ⟨c, ds, hds⟩ := List.exists_cons_of_ne_nil (Nat.toDigits_ne_nil (n := k) (b := 10))
  have hc : c.isDigit := isDigit_of_mem_toDigits (hds ▸ List.mem_cons_self)
  have hminus : c ≠ '-' := by
    rintro rfl
    exact absurd hc (by decide)
  have hplus : c ≠ '+' := by
    rintro rfl
    exact absurd hc (by decide)
  simp [hds, number?, hminus, hplus]

/-- What is written is read back. -/
theorem number?_fixed {d : ℕ} (hd : 0 < d) (z : ℤ) : number? (fixed d z) = some (z / 10 ^ d : ℚ) := by
  rw [fixed]
  split
  next hneg =>
    rw [number?, unsigned?_fixedNat hd, Option.map_some, Nat.cast_natAbs, abs_of_neg hneg,
      Int.cast_neg, neg_div, neg_neg]
  next hpos =>
    rw [fixedNat, number?_toDigits_append, ← fixedNat, unsigned?_fixedNat hd, Nat.cast_natAbs,
      abs_of_nonneg (not_lt.mp hpos)]

end Decimal
