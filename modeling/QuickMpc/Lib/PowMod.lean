import Mathlib.Algebra.BigOperators.Associated
import Mathlib.NumberTheory.LucasPrimality

/-!
# Square-and-multiply modulo a number

`loop m fuel ret a b` is the usual exponentiation loop on a binary exponent:
while `b` is not zero, multiply the accumulator by `a` when `b` is odd, square
`a`, halve `b`. The fuel bounds the number of bits of the exponent, so the loop
is structurally recursive and evaluates in the kernel; `loop_eq_pow` is its
specification for every exponent that fits.

Because it evaluates, the loop also decides Lucas's primality test
(`prime_of_lucas`): a witness `a` and the factorization of `p - 1`.
-/

namespace PowMod

/-- `ret * a ^ b` modulo `m`, for an exponent of at most `fuel` bits. -/
def loop (m : ℕ) : ℕ → ℕ → ℕ → ℕ → ℕ
  | 0, ret, _, _ => ret
  | fuel + 1, ret, a, b =>
    if b = 0 then ret
    else loop m fuel (if b % 2 = 1 then ret * a % m else ret) (a * a % m) (b / 2)

/-- One round keeps `ret * a ^ b` up to the modulus; the whole loop therefore
leaves it in the accumulator. -/
theorem loop_modEq (m : ℕ) :
    ∀ fuel ret a b, b < 2 ^ fuel → loop m fuel ret a b ≡ ret * a ^ b [MOD m]
  | 0, ret, a, b, h => by
      obtain rfl : b = 0 := by simpa using h
      simp [loop, Nat.ModEq.refl]
  | fuel + 1, ret, a, b, h => by
      rw [loop]
      by_cases hb : b = 0
      · subst hb
        simp [Nat.ModEq.refl]
      · rw [if_neg hb]
        have hhalf : b / 2 < 2 ^ fuel := by rw [pow_succ] at h; omega
        have ih := loop_modEq m fuel (if b % 2 = 1 then ret * a % m else ret)
          (a * a % m) (b / 2) hhalf
        have hsq : (a * a % m) ^ (b / 2) ≡ a ^ (2 * (b / 2)) [MOD m] := by
          rw [pow_mul, pow_two]
          exact (Nat.mod_modEq _ _).pow _
        refine ih.trans ?_
        by_cases hodd : b % 2 = 1
        · have hexp : a ^ b = a * a ^ (2 * (b / 2)) := by
            rw [← pow_succ']
            congr 1
            omega
          rw [if_pos hodd, hexp, ← mul_assoc]
          exact (Nat.mod_modEq _ _).mul hsq
        · have hexp : a ^ b = a ^ (2 * (b / 2)) := by
            congr 1
            omega
          rw [if_neg hodd, hexp]
          exact (Nat.ModEq.refl _).mul hsq

/-- The accumulator stays reduced. -/
theorem loop_lt {m : ℕ} (hm : 0 < m) :
    ∀ fuel ret a b, ret < m → loop m fuel ret a b < m
  | 0, _, _, _, h => h
  | fuel + 1, ret, a, b, h => by
      rw [loop]
      split
      · exact h
      · refine loop_lt hm fuel _ _ _ ?_
        split
        · exact Nat.mod_lt _ hm
        · exact h

/-- The loop started at `1` computes the power. -/
theorem loop_eq_pow {m fuel b : ℕ} (hm : 1 < m) (hb : b < 2 ^ fuel) (a : ℕ) :
    loop m fuel 1 a b = a ^ b % m := by
  have hmod := loop_modEq m fuel 1 a b hb
  rw [one_mul] at hmod
  rw [← hmod, Nat.mod_eq_of_lt (loop_lt (by omega) fuel 1 a b hm)]

/-- The order test of Lucas's criterion, read off the loop. -/
theorem loop_eq_one_iff {p fuel k : ℕ} (hp : 1 < p) (hk : k < 2 ^ fuel) (a : ℕ) :
    loop p fuel 1 a k = 1 ↔ (a : ZMod p) ^ k = 1 := by
  have hcast : ((a ^ k : ℕ) : ZMod p) = (a : ZMod p) ^ k := Nat.cast_pow a k
  rw [loop_eq_pow hp hk, ← hcast]
  constructor
  · intro h
    rw [← ZMod.natCast_mod, h, Nat.cast_one]
  · intro h
    have hmod : a ^ k ≡ 1 [MOD p] :=
      (ZMod.natCast_eq_natCast_iff _ _ _).mp (by rw [h, Nat.cast_one])
    rw [hmod, Nat.mod_eq_of_lt hp]

/-- **Lucas's test, evaluated.** A witness of order `p - 1`, checked against the
prime factors of `p - 1`, certifies `p`. -/
theorem prime_of_lucas {p a fuel : ℕ} {qs : List ℕ} (hp : 1 < p) (hfuel : p ≤ 2 ^ fuel)
    (hqs : ∀ q ∈ qs, q.Prime) (hprod : qs.prod = p - 1)
    (hone : loop p fuel 1 a (p - 1) = 1)
    (hne : ∀ q ∈ qs, loop p fuel 1 a ((p - 1) / q) ≠ 1) : p.Prime := by
  have hfits : ∀ k, k ≤ p - 1 → k < 2 ^ fuel := fun k hk => by omega
  refine lucas_primality p (a : ZMod p) ?_ ?_
  · exact (loop_eq_one_iff hp (hfits _ le_rfl) a).mp hone
  · intro q hq hdvd
    rw [← hprod, Prime.dvd_prod_iff hq.prime] at hdvd
    obtain ⟨q', hmem, hdvd'⟩ := hdvd
    obtain rfl : q = q' := (Nat.prime_dvd_prime_iff_eq hq (hqs q' hmem)).mp hdvd'
    exact fun h => hne q hmem
      ((loop_eq_one_iff hp (hfits _ (Nat.div_le_self _ _)) a).mpr h)

end PowMod
