import Mathlib.Tactic.LinearCombination
import QuickMpc.PrimeField

/-!
# QuickMpc.Residue

The residue of a stored `PrimeField` value, and what the functions of
`PrimeField.hpp` do to it: every operator is the operator of the field `ZMod p`,
`getInv` is the field inverse (with `0⁻¹ = 0`), and `modsqrt` of a non-zero
square returns its canonical root, the one not above `p / 2`.
-/

namespace QuickMpc.PrimeField

/-- The residue a stored value stands for. -/
def toZMod (x : PrimeField) : ZMod p := (x.value : ZMod p)

@[simp] theorem toZMod_ofNat (k : ℕ) : toZMod (ofNat k) = (k : ZMod p) := by
  simp [toZMod]

@[simp] theorem toZMod_zero : toZMod 0 = 0 := by simp [toZMod]

@[simp] theorem toZMod_add (x y : PrimeField) : toZMod (x + y) = toZMod x + toZMod y := by
  simp [toZMod, add_value]

@[simp] theorem toZMod_neg (x : PrimeField) : toZMod (-x) = -toZMod x := by
  rw [toZMod, neg_value, Nat.cast_sub x.le_p]
  simp [toZMod]

@[simp] theorem toZMod_sub (x y : PrimeField) : toZMod (x - y) = toZMod x - toZMod y := by
  have hneg := toZMod_neg y
  rw [toZMod, neg_value] at hneg
  rw [toZMod, sub_value, ZMod.natCast_mod, Nat.cast_add, hneg, sub_eq_add_neg]
  rfl

@[simp] theorem toZMod_mul (x y : PrimeField) : toZMod (x * y) = toZMod x * toZMod y := by
  simp [toZMod, mul_value]

/-- A reduced value is determined by its residue. -/
theorem value_eq_val {x : PrimeField} (h : x.value < p) : x.value = (toZMod x).val := by
  rw [toZMod, ZMod.val_natCast, Nat.mod_eq_of_lt h]

theorem eq_of_toZMod_eq {x y : PrimeField} (hx : x.value < p) (hy : y.value < p)
    (h : toZMod x = toZMod y) : x = y := by
  ext
  rw [value_eq_val hx, value_eq_val hy, h]

theorem natCast_modpow {b : ℕ} (hb : b < 2 ^ 128) (a : ℕ) :
    ((modpow a b : ℕ) : ZMod p) = (a : ZMod p) ^ b := by
  rw [modpow_eq hb, ZMod.natCast_mod, Nat.cast_pow]

@[simp] theorem toZMod_getInv (x : PrimeField) : toZMod (getInv x) = (toZMod x)⁻¹ := by
  rw [getInv, toZMod_ofNat, natCast_modpow (by norm_num [p])]
  show toZMod x ^ (p - 2) = _
  by_cases hx : toZMod x = 0
  · rw [hx, inv_zero, zero_pow (by norm_num [p])]
  · refine eq_inv_of_mul_eq_one_left ?_
    rw [← pow_succ, show p - 2 + 1 = p - 1 by norm_num [p]]
    exact ZMod.pow_card_sub_one_eq_one hx

@[simp] theorem toZMod_div (x y : PrimeField) : toZMod (x / y) = toZMod x / toZMod y := by
  show toZMod (ofNat (x.value * y.getInv.value)) = _
  rw [toZMod_ofNat, Nat.cast_mul, div_eq_mul_inv, ← toZMod_getInv]
  rfl

/-- The constant `inverse_of_two` is the inverse of two. -/
theorem inverse_of_two_mul : (inverse_of_two : ZMod p) * 2 = 1 := by
  have h : ((inverse_of_two * 2 : ℕ) : ZMod p) = ((p + 1 : ℕ) : ZMod p) := by
    congr 1
  simpa using h

/-- Below `p`, a natural number is zero in the field only if it is zero. -/
theorem natCast_eq_zero_iff {k : ℕ} (hk : k < p) : (k : ZMod p) = 0 ↔ k = 0 := by
  rw [ZMod.natCast_eq_zero_iff]
  exact ⟨fun h => Nat.eq_zero_of_dvd_of_lt h hk, fun h => h ▸ dvd_zero p⟩

/-! ### `modsqrt` on squares -/

/-- On `t = 1` the loop is over at once. -/
theorem modsqrtLoop_one (fuel c R M : ℕ) : modsqrtLoop fuel c R 1 M = .ok R := by
  rw [modsqrtLoop, if_pos rfl]

/-- On `t = -1` the loop takes one round: it finds `i = 1`, multiplies by `c`
and leaves `t = 1`, since `c² = -1`. -/
theorem modsqrtLoop_neg_one (R : ℕ) :
    modsqrtLoop 2 2296021864060584341 R (p - 1) 2 = .ok (R * 2296021864060584341 % p) := by
  have hone : ¬ p - 1 = 1 := by norm_num [p]
  have hsearch : orderSearch 2 2 1 (p - 1) = 1 := by decide +kernel
  have hb : modpow 2296021864060584341 (modpow 1 (2 - 1 - 1)) = 2296021864060584341 := by
    decide +kernel
  have ht : (p - 1) * 2296021864060584341 % p * 2296021864060584341 % p = 1 := by
    norm_num [p]
  rw [modsqrtLoop, if_neg hone]
  simp only [hsearch, hb, ht, modsqrtLoop_one]
  rfl

/-- `c = 2296021864060584341` is a square root of `-1`: `2` is not a square. -/
theorem nonresidue_sq : (2296021864060584341 : ZMod p) * 2296021864060584341 = -1 := by
  have h : ((2296021864060584341 * 2296021864060584341 : ℕ) : ZMod p)
      = ((p - 1 : ℕ) : ZMod p) := by
    rw [ZMod.natCast_eq_natCast_iff']
    norm_num [p]
  rw [Nat.cast_mul, Nat.cast_ofNat, Nat.cast_sub (by norm_num [p]), ZMod.natCast_self,
    Nat.cast_one, zero_sub] at h
  exact h

/-- The loop started by `modsqrt` on a non-zero square ends with a root. -/
theorem modsqrtLoop_root {n : ℕ} {y : ZMod p} (hy : y ≠ 0) (hn : (n : ZMod p) = y * y) :
    ∃ R, modsqrtLoop 2 2296021864060584341 (modpow n ((4611686018427387889 + 1) / 2))
        (modpow n 4611686018427387889) 2 = .ok R ∧ (R : ZMod p) * R = n ∧ R < p := by
  set R₀ := modpow n ((4611686018427387889 + 1) / 2) with hR₀
  set t := modpow n 4611686018427387889 with ht
  have hR₀c : (R₀ : ZMod p) = (n : ZMod p) ^ ((4611686018427387889 + 1) / 2) :=
    natCast_modpow (by norm_num) n
  have htc : (t : ZMod p) = (n : ZMod p) ^ 4611686018427387889 :=
    natCast_modpow (by norm_num) n
  have hlt : t < p := by
    rw [ht, modpow_eq (by norm_num)]
    exact Nat.mod_lt _ p_pos
  -- the loop invariant `R² = n t` holds on entry
  have hinv : (R₀ : ZMod p) * R₀ = n * t := by
    rw [hR₀c, htc, ← pow_add, ← pow_succ']
  -- `t² = y ^ (p - 1) = 1`, so `t = 1` or `t = -1`
  have hsq : (t : ZMod p) * t = 1 := by
    have hexp : (t : ZMod p) * t = y ^ (p - 1) := by
      rw [htc, hn, ← mul_pow, show p - 1 = 4 * 4611686018427387889 by norm_num [p], pow_mul]
      ring
    rw [hexp, ZMod.pow_card_sub_one_eq_one hy]
  rcases mul_self_eq_one_iff.mp hsq with h1 | h1
  · have ht1 : t = 1 := by
      have hval : ((t : ℕ) : ZMod p) = ((1 : ℕ) : ZMod p) := by rw [h1, Nat.cast_one]
      rw [ZMod.natCast_eq_natCast_iff', Nat.mod_eq_of_lt hlt] at hval
      exact hval
    refine ⟨R₀, by rw [ht1, modsqrtLoop_one], by rw [hinv, h1, mul_one], ?_⟩
    rw [hR₀, modpow_eq (by norm_num)]
    exact Nat.mod_lt _ p_pos
  · have ht1 : t = p - 1 := by
      have hval : ((t : ℕ) : ZMod p) = ((p - 1 : ℕ) : ZMod p) := by
        rw [h1, Nat.cast_sub (by norm_num [p]), ZMod.natCast_self, Nat.cast_one, zero_sub]
      rw [ZMod.natCast_eq_natCast_iff', Nat.mod_eq_of_lt hlt] at hval
      rw [hval]
      norm_num [p]
    refine ⟨_, by rw [ht1, modsqrtLoop_neg_one], ?_, Nat.mod_lt _ p_pos⟩
    rw [ZMod.natCast_mod, Nat.cast_mul]
    calc ((R₀ : ZMod p) * (2296021864060584341 : ℕ)) * (R₀ * (2296021864060584341 : ℕ))
        = (R₀ * R₀) * (2296021864060584341 * 2296021864060584341) := by
          push_cast
          ring
      _ = n := by rw [hinv, h1, nonresidue_sq]; ring

/-- **`modsqrt` of a non-zero square** returns the root that is at most `p / 2`. -/
theorem modsqrt_square {x : PrimeField} {y : ZMod p} (hy : y ≠ 0) (hx : toZMod x = y * y) :
    ∃ r, modsqrt x = .ok r ∧ r.value ≤ p / 2 ∧ r.value < p ∧ toZMod r * toZMod r = toZMod x := by
  obtain ⟨R, hloop, hroot, hlt⟩ := modsqrtLoop_root hy hx
  have hodd := p_odd
  by_cases hR : R ≤ p / 2
  · refine ⟨ofNat R, ?_, ?_, ?_, ?_⟩
    · simp [modsqrt, hloop, hR, bind, Except.bind, pure, Except.pure]
    · rwa [ofNat_value_of_lt hlt]
    · rwa [ofNat_value_of_lt hlt]
    · rw [toZMod_ofNat, hroot]
      rfl
  · have hsub : p - R < p := by omega
    refine ⟨ofNat (p - R), ?_, ?_, ?_, ?_⟩
    · simp [modsqrt, hloop, hR, bind, Except.bind, pure, Except.pure]
    · rw [ofNat_value_of_lt hsub]
      omega
    · rwa [ofNat_value_of_lt hsub]
    · rw [toZMod_ofNat, Nat.cast_sub hlt.le, ZMod.natCast_self, zero_sub, neg_mul_neg, hroot]
      rfl

end QuickMpc.PrimeField
