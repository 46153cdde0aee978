import Mathlib.FieldTheory.Finite.Basic
import Mathlib.Tactic.NormNum.Prime
import QuickMpc.Basic
import QuickMpc.Lib.PowMod

/-!
# QuickMpc.PrimeField

The value type `PrimeField<checked_uint128_t>` of the comparison protocols:
arithmetic modulo `p = 2^64 - 59` on a stored integer.

The stored integer is *not* always reduced. The constructors and the compound
operators leave it in `[0, p)`, but unary minus stores `p - value`, which is `p`
itself for `0`; what every operation preserves is `value ≤ p`, the field `le_p`.
`operator==` and `operator<` compare the stored integers. All other operations
only see the residue, so the protocols are analysed through `toZMod`, a
homomorphism to `ZMod p` for each of them.

All intermediate results of the operators are below `2^128` (`le_p` and `p <
2^64`), so `checked_uint128_t` never raises there and plain naturals model it;
`modsqrt` does subtract below zero on some inputs, and the model raises then.
-/

namespace QuickMpc

/-- `PrimeField::p`, the number of elements: `2^64 - 59`. -/
def PrimeField.p : ℕ := 18446744073709551557

/-- A stored value. Unary minus can store `p` itself, nothing stores more. -/
structure PrimeField where
  value : ℕ
  le_p : value ≤ PrimeField.p
  deriving DecidableEq, Repr

namespace PrimeField

/-- `PrimeField::l`, the bit length of `p`. -/
def l : ℕ := 64

/-- `PrimeField::lambda`, the square root of `l`. -/
def lambda : ℕ := 8

instance : NeZero l := ⟨by norm_num [l]⟩

instance : NeZero lambda := ⟨by norm_num [lambda]⟩

/-- `PrimeField::inverse_of_two`. -/
def inverse_of_two : ℕ := 9223372036854775779

theorem p_pos : 0 < p := by norm_num [p]

theorem p_odd : p % 2 = 1 := by norm_num [p]

theorem p_lt_two_pow : p < 2 ^ 64 := by norm_num [p]

@[ext] theorem ext {x y : PrimeField} (h : x.value = y.value) : x = y := by
  cases x
  cases y
  simpa using h

/-! ### Construction -/

/-- A reduced value. This is what the constructor stores for an argument it
admits. -/
def ofNat (k : ℕ) : PrimeField := ⟨k % p, (Nat.mod_lt _ p_pos).le⟩

/-- `PrimeField(const U &obj)`: refuses what is not in `[0, p]`, reduces the
rest (so `p` is admitted and stored as `0`). -/
def construct (obj : ℤ) : Run PrimeField :=
  if obj < 0 ∨ obj > p then
    .error (.runtimeError "PrimeField: 変換不可能な値が入力されています")
  else .ok (ofNat obj.toNat)

theorem construct_natCast {k : ℕ} (h : k ≤ p) : construct k = .ok (ofNat k) := by
  unfold construct
  rw [if_neg (by omega), Int.toNat_natCast]

@[simp] theorem ofNat_value (k : ℕ) : (ofNat k).value = k % p := rfl

theorem ofNat_value_of_lt {k : ℕ} (h : k < p) : (ofNat k).value = k := Nat.mod_eq_of_lt h

/-! ### Operators -/

instance : Zero PrimeField := ⟨⟨0, Nat.zero_le _⟩⟩

@[simp] theorem zero_value : (0 : PrimeField).value = 0 := rfl

/-- `operator+=`. -/
instance : Add PrimeField := ⟨fun x y => ofNat (x.value + y.value)⟩

/-- `operator-=`: adds the complement of the subtrahend. -/
instance : Sub PrimeField := ⟨fun x y => ofNat (x.value + (p - y.value))⟩

/-- `operator*=`. -/
instance : Mul PrimeField := ⟨fun x y => ofNat (x.value * y.value)⟩

/-- Unary minus. The result is not reduced: `-0` stores `p`. -/
instance : Neg PrimeField := ⟨fun x => ⟨p - x.value, Nat.sub_le _ _⟩⟩

/-- `operator<`, on the stored integers. -/
instance : LT PrimeField := ⟨fun x y => x.value < y.value⟩

instance (x y : PrimeField) : Decidable (x < y) :=
  inferInstanceAs (Decidable (x.value < y.value))

/-- `operator<=`, as `boost::operators` derives it from `operator<`. -/
instance : LE PrimeField := ⟨fun x y => ¬ y < x⟩

instance (x y : PrimeField) : Decidable (x ≤ y) := inferInstanceAs (Decidable (¬ y < x))

theorem lt_iff {x y : PrimeField} : x < y ↔ x.value < y.value := Iff.rfl

theorem le_iff {x y : PrimeField} : x ≤ y ↔ x.value ≤ y.value := Nat.not_lt

theorem add_value (x y : PrimeField) : (x + y).value = (x.value + y.value) % p := rfl

theorem sub_value (x y : PrimeField) : (x - y).value = (x.value + (p - y.value)) % p := rfl

theorem mul_value (x y : PrimeField) : (x * y).value = (x.value * y.value) % p := rfl

theorem neg_value (x : PrimeField) : (-x).value = p - x.value := rfl

/-- `modpow(a, b)`: the exponent is a 128-bit integer, so `while (b)` runs at
most 128 rounds. -/
def modpow (a b : ℕ) : ℕ := PowMod.loop p 128 1 a b

theorem modpow_eq {b : ℕ} (hb : b < 2 ^ 128) (a : ℕ) : modpow a b = a ^ b % p :=
  PowMod.loop_eq_pow (by norm_num [p]) hb a

/-- `getInv`: the Fermat inverse, so that `0` is inverted to `0`. -/
def getInv (x : PrimeField) : PrimeField := ofNat (modpow x.value (p - 2))

/-- `operator/=`. -/
instance : Div PrimeField := ⟨fun x y => ofNat (x.value * y.getInv.value)⟩

/-! ### Square roots -/

/-- The inner loop of `modsqrt`: the first `i` in `[1, M)` with
`t ^ (2 ^ i) = 1`, or `M`. -/
def orderSearch (M : ℕ) : ℕ → ℕ → ℕ → ℕ
  | 0, i, _ => i
  | fuel + 1, i, t2 =>
    if i < M then
      let t2 := t2 * t2 % p
      if t2 = 1 then i else orderSearch M fuel (i + 1) t2
    else i

/-- The outer loop of `modsqrt`. A round either raises (`M - i - 1` below zero)
or continues with a smaller `M`, so `M` rounds are enough. -/
def modsqrtLoop : ℕ → ℕ → ℕ → ℕ → ℕ → Run ℕ
  | fuel, c, R, t, M =>
    if t = 1 then .ok R
    else
      let i := orderSearch M M 1 t
      if M < i + 1 then .error .rangeError
      else
        let b := modpow c (modpow 1 (M - i - 1))
        match fuel with
        | 0 => .error .rangeError
        | fuel + 1 => modsqrtLoop fuel (b * b % p) (R * b % p) (t * b % p * b % p) i

/-- `modsqrt(x)`: Tonelli–Shanks with `p - 1 = Q * 2^S` and `c = 2^Q`; of the
two roots the one not above `p / 2`. -/
def modsqrt (x : PrimeField) : Run PrimeField := do
  let n := x.value
  let Q := 4611686018427387889
  let S := 2
  let c := 2296021864060584341
  let R ← modsqrtLoop S c (modpow n ((Q + 1) / 2)) (modpow n Q) S
  if R ≤ p / 2 then return ofNat R else return ofNat (p - R)

/-! ### `p` is prime -/

theorem prime_5594472617641 : Nat.Prime 5594472617641 := by
  refine @PowMod.prime_of_lucas _ 13 64 [2, 2, 2, 3, 5, 1427, 2131, 15331] (by norm_num)
    (by norm_num) ?_ (by norm_num) (by decide +kernel) (by decide +kernel)
  intro q hq
  fin_cases hq <;> norm_num

theorem prime_p : Nat.Prime p := by
  refine @PowMod.prime_of_lucas _ 2 64 [2, 2, 11, 137, 547, 5594472617641] (by norm_num [p])
    (by norm_num [p]) ?_ (by norm_num [p]) (by decide +kernel) (by decide +kernel)
  intro q hq
  simp only [List.mem_cons, List.not_mem_nil, or_false] at hq
  rcases hq with rfl | rfl | rfl | rfl | rfl | rfl
  · norm_num
  · norm_num
  · norm_num
  · norm_num
  · norm_num
  · exact prime_5594472617641

instance : Fact (Nat.Prime p) := ⟨prime_p⟩

end PrimeField

end QuickMpc
