import QuickMpc.Division
import QuickMpc.ShareVector

/-!
# QuickMpc.PublicDivision

The two divisions by a public value. `operator/=(SV)` of a share divides what every
party stores. `operator/` of a vector multiplies with the reciprocal instead, which is
cut to eight decimals: it drifts away from the other one by `|x| * lost c 1 / |c|`, with
the size of the dividend (`secret_drift`), and from `c = 10 ^ 8` on the reciprocal has no
digit left.

So there are divisors for which the two agree on every vector, those whose reciprocal is
exact, and for every other divisor they agree on the small dividends and on no large one
(`quotientsAgree_iff`).
-/

namespace QuickMpc.Share

open FixedPoint (shift ofDouble quot)

variable {n N : ℕ}

/-- The reciprocal, in units of the last place. -/
theorem one_div_value [Multiprecision] (c : FixedPoint) :
    (ofDouble 1 / c).value = inverse c.value 1 := by
  rw [FixedPoint.div_value, FixedPoint.ofDouble_one_value, inverse, mul_one, mul_one]

/-- The reciprocal is exact when it has at most eight decimals and does not fall short. -/
theorem lost_one_eq_zero_iff [Multiprecision] {c : ℤ} (hc : c ≠ 0) :
    lost c 1 = 0 ↔ c ∣ shift * shift ∧ ¬Multiprecision.short shift c := by
  have hlost : lost c 1 = shift * shift - c * quot shift c := by rw [lost, mul_one]
  have hdvd : (shift * shift).tmod c = 0 ↔ c ∣ shift * shift := Int.dvd_iff_tmod_eq_zero.symm
  rw [hlost, FixedPoint.sub_mul_quot, ← hdvd]
  split
  next hshort =>
    have hsplit := Int.mul_tdiv_add_tmod (shift * shift) c
    rw [hshort.1, add_zero] at hsplit
    refine iff_of_false (fun h => ?_) fun h => h.2 hshort.2
    rw [mul_eq_zero, or_iff_right hc, Int.sign_eq_zero_iff_zero] at h
    rw [h, mul_zero] at hsplit
    exact (mul_pos FixedPoint.shift_pos FixedPoint.shift_pos).ne hsplit
  next hshort => exact ⟨fun h => ⟨h, fun hs => hshort ⟨h, hs⟩⟩, fun h => h.1⟩

section Rests

variable [Multiprecision]

/-- What the parties drop when they divide by `c`. -/
def divRest (x : Share n FixedPoint) (c : ℤ) : ℤ :=
  ∑ i, ((x.value i).value * shift - c * quot (x.value i).value c)

/-- What the parties drop when they multiply with the reciprocal of `c`. -/
def mulRest (x : Share n FixedPoint) (c : ℤ) : ℤ :=
  ∑ i, ((x.value i).value * inverse c 1).tmod shift

/-! ### The roundings of one party -/

/-- The two quotients of one number. -/
theorem party_drift (x c : ℤ) :
    c * shift * (quot x c - (x * inverse c 1).tdiv shift)
      = x * lost c 1 - (shift * (x * shift - c * quot x c) - c * (x * inverse c 1).tmod shift) := by
  have hmul := Int.mul_tdiv_add_tmod (x * inverse c 1) shift
  have hinv := mul_inverse c 1
  linear_combination (-c) * hmul - x * hinv

/-- Both roundings go toward zero, so they compensate each other in part. -/
theorem abs_roundings_le {x c : ℤ} (hc : c ≠ 0) :
    |shift * (x * shift - c * quot x c) - c * (x * inverse c 1).tmod shift| ≤ |c| * shift := by
  set u := shift * (x * shift - c * quot x c) with hu
  set v := c * (x * inverse c 1).tmod shift with hv
  have hule : |u| ≤ |c| * shift := by
    rw [hu, abs_mul, abs_of_pos FixedPoint.shift_pos, mul_comm |c|]
    exact mul_le_mul_of_nonneg_left (FixedPoint.abs_sub_mul_quot_le hc x) FixedPoint.shift_pos.le
  have hvle : |v| ≤ |c| * shift := by
    have hrest := TruncDiv.abs_tmod_lt FixedPoint.shift_pos.ne' (x * inverse c 1)
    rw [abs_of_pos FixedPoint.shift_pos] at hrest
    rw [hv, abs_mul]
    exact mul_le_mul_of_nonneg_left hrest.le (abs_nonneg c)
  have hux : 0 ≤ u * x := by
    rw [hu, mul_assoc]
    exact mul_nonneg FixedPoint.shift_pos.le (FixedPoint.sub_mul_quot_mul_nonneg x c)
  have hvx : 0 ≤ v * x := by
    have h := losses_same_sign (s := shift) (a := x) zero_le_one (mul_inverse_nonneg c 1)
    rwa [mul_one, mul_comm _ c] at h
  rw [abs_le] at hule hvle ⊢
  rcases lt_trichotomy x 0 with hneg | hzero | hpos
  · have hu0 := nonpos_of_mul_nonneg_left hux hneg
    have hv0 := nonpos_of_mul_nonneg_left hvx hneg
    exact ⟨by linarith, by linarith⟩
  · rw [hu, hv, hzero, zero_mul, zero_mul, FixedPoint.quot_zero_left, Int.zero_tmod, mul_zero,
      sub_zero, sub_zero, mul_zero]
    exact ⟨by linarith, by linarith⟩
  · have hu0 := nonneg_of_mul_nonneg_left hux hpos
    have hv0 := nonneg_of_mul_nonneg_left hvx hpos
    exact ⟨by linarith, by linarith⟩

/-! ### The quotients of a share -/

/-- The two quotients of a share, up to what the roundings drop. -/
theorem secret_drift (x : Share n FixedPoint) (c : FixedPoint) :
    c.value * shift * (secret (x / c) - secret (x * (ofDouble 1 / c)))
      = secret x * lost c.value 1 - (shift * divRest x c.value - c.value * mulRest x c.value) := by
  have hdiv : secret (x / c) = ∑ i, quot (x.value i).value c.value := rfl
  have hmul : secret (x * (ofDouble 1 / c))
      = ∑ i, ((x.value i).value * inverse c.value 1).tdiv shift := by
    rw [← one_div_value]
    rfl
  rw [hdiv, hmul, secret_eq_sum, divRest, mulRest, ← Finset.sum_sub_distrib, Finset.mul_sum,
    Finset.mul_sum, Finset.mul_sum, Finset.sum_mul, ← Finset.sum_sub_distrib,
    ← Finset.sum_sub_distrib]
  exact Finset.sum_congr rfl fun i _ => party_drift _ _

/-- What the roundings drop is at most one unit for each party. -/
theorem abs_rests_le (x : Share n FixedPoint) {c : ℤ} (hc : c ≠ 0) :
    |shift * divRest x c - c * mulRest x c| ≤ n * (|c| * shift) := by
  have hsum : shift * divRest x c - c * mulRest x c
      = ∑ i, (shift * ((x.value i).value * shift - c * quot (x.value i).value c)
          - c * ((x.value i).value * inverse c 1).tmod shift) := by
    rw [divRest, mulRest, Finset.mul_sum, Finset.mul_sum, Finset.sum_sub_distrib]
  calc |shift * divRest x c - c * mulRest x c|
      ≤ ∑ i, |shift * ((x.value i).value * shift - c * quot (x.value i).value c)
          - c * ((x.value i).value * inverse c 1).tmod shift| := by
        rw [hsum]
        exact Finset.abs_sum_le_sum_abs _ _
    _ ≤ ∑ _i : Fin n, |c| * shift := Finset.sum_le_sum fun i _ => abs_roundings_le hc
    _ = n * (|c| * shift) := by
        rw [Finset.sum_const, Finset.card_univ, Fintype.card_fin, nsmul_eq_mul]

/-- The quotients of an element, by the two operators, are at most `n + 1` units apart. -/
def QuotientsAgree (x : Fin N → Share n FixedPoint) (c : FixedPoint) (k : Fin N) : Prop :=
  |(recons (divVec x c k)).value - (recons (x k / c)).value| ≤ n + 1

/-- The distance of the two quotients, in fractions of a unit. -/
theorem abs_quotients_mul (x : Fin N → Share n FixedPoint) (c : FixedPoint) (k : Fin N) :
    |(recons (divVec x c k)).value - (recons (x k / c)).value| * (|c.value| * shift)
      = |(recons (x k)).value * lost c.value 1
          - (shift * divRest (x k) c.value - c.value * mulRest (x k) c.value)| := by
  have hdivVec : secret (divVec x c k) = secret (x k * (ofDouble 1 / c)) := rfl
  rw [recons_value_fixedPoint, recons_value_fixedPoint, recons_value_fixedPoint, ← secret_drift,
    abs_mul, abs_mul, abs_of_pos FixedPoint.shift_pos, abs_sub_comm (secret (divVec x c k)),
    hdivVec, mul_comm]

theorem abs_mul_lost (y c : ℤ) : |y * lost c 1| = |y| * lost c 1 := by
  rw [abs_mul, abs_of_nonneg (lost_nonneg c 1)]

variable {c : FixedPoint} {x : Fin N → Share n FixedPoint} {k : Fin N}

/-- A loss of less than two units is small enough, whatever is rounded. -/
theorem quotientsAgree_of_lt (hc : c.value ≠ 0)
    (h : |(recons (x k)).value| * lost c.value 1 < 2 * (|c.value| * shift)) :
    QuotientsAgree x c k := by
  have hunit : 0 < |c.value| * shift := mul_pos (abs_pos.mpr hc) FixedPoint.shift_pos
  have hrests := abs_rests_le (x k) hc
  have htri := abs_sub (a := (recons (x k)).value * lost c.value 1)
    (b := shift * divRest (x k) c.value - c.value * mulRest (x k) c.value)
  rw [abs_mul_lost, ← abs_quotients_mul] at htri
  -- the distance is whole: below `n + 2` units it is at most `n + 1`
  refine Int.lt_add_one_iff.mp (lt_of_mul_lt_mul_right ?_ hunit.le)
  linarith

/-- A loss of more than `2 * n + 1` units is too large, whatever is rounded. -/
theorem not_quotientsAgree_of_lt (hc : c.value ≠ 0)
    (h : (2 * n + 1) * (|c.value| * shift) < |(recons (x k)).value| * lost c.value 1) :
    ¬QuotientsAgree x c k := by
  intro hagree
  have hunit : 0 < |c.value| * shift := mul_pos (abs_pos.mpr hc) FixedPoint.shift_pos
  have hrests := abs_rests_le (x k) hc
  have htri := abs_sub_abs_le_abs_sub ((recons (x k)).value * lost c.value 1)
    (shift * divRest (x k) c.value - c.value * mulRest (x k) c.value)
  have hle := mul_le_mul_of_nonneg_right hagree hunit.le
  rw [abs_quotients_mul] at hle
  rw [abs_mul_lost] at htri
  linarith

end Rests

/-- **The two divisions by a public value** agree on all vectors exactly when the reciprocal
of the divisor is exact: the divisor divides `10 ^ 16`, in units, and the reciprocal does
not fall short. For any other divisor the size of the dividend decides: what the reciprocal
loses must stay below two units, and from `2 * n + 1` units on nothing makes up for it. In
between it depends on how the dividend is shared. -/
theorem quotientsAgree_iff [Multiprecision] [Config n] (c : FixedPoint) (hc : c.value ≠ 0) :
    ((∀ {N : ℕ} (x : Fin N → Share n FixedPoint) (k : Fin N), QuotientsAgree x c k) ↔
      c.value ∣ shift * shift ∧ ¬Multiprecision.short shift c.value) ∧
    (∀ {N : ℕ} (x : Fin N → Share n FixedPoint) (k : Fin N),
      |(recons (x k)).value| * lost c.value 1 < 2 * (|c.value| * shift) → QuotientsAgree x c k) ∧
    ∀ {N : ℕ} (x : Fin N → Share n FixedPoint) (k : Fin N),
      (2 * n + 1) * (|c.value| * shift) < |(recons (x k)).value| * lost c.value 1 →
        ¬QuotientsAgree x c k := by
  have hunit : 0 < |c.value| * shift := mul_pos (abs_pos.mpr hc) FixedPoint.shift_pos
  refine ⟨?_, fun x k => quotientsAgree_of_lt hc, fun x k => not_quotientsAgree_of_lt hc⟩
  rw [← lost_one_eq_zero_iff hc]
  refine ⟨fun h => ?_, fun h N x k => quotientsAgree_of_lt hc ?_⟩
  · by_contra hne
    have hpos : 1 ≤ lost c.value 1 := by
      have hlost := lost_nonneg c.value 1
      omega
    -- a dividend so large that one unit lost in each is too much
    set X := (2 * n + 2) * (|c.value| * shift) with hXdef
    have hX : 0 ≤ X := mul_nonneg (by omega) hunit.le
    have hrec : (recons ((0 : Share n FixedPoint) + (⟨X⟩ : FixedPoint))).value = X := by
      rw [recons_value_fixedPoint, secret_add_value, secret_zero, zero_add, denote_eq_value]
    refine not_quotientsAgree_of_lt hc ?_
      (h (fun _ : Fin 1 => (0 : Share n FixedPoint) + (⟨X⟩ : FixedPoint)) 0)
    rw [hrec, abs_of_nonneg hX]
    calc (2 * n + 1) * (|c.value| * shift) < X := by linarith
      _ ≤ X * lost c.value 1 := le_mul_of_one_le_right hX hpos
  · rw [h, mul_zero]
    exact mul_pos zero_lt_two hunit

/-- The reciprocal of `2` is exact. -/
theorem quotientsAgree_iff_two :
    letI := Multiprecision.plain
    (FixedPoint.ofInt 2).value ≠ 0 ∧
      ∀ {N : ℕ} (x : Fin N → Share 3 FixedPoint) (k : Fin N),
        QuotientsAgree x (FixedPoint.ofInt 2) k := by
  let _ := threeParties
  let _ := Multiprecision.plain
  have hc : (FixedPoint.ofInt 2).value ≠ 0 := by decide
  exact ⟨hc, (quotientsAgree_iff (FixedPoint.ofInt 2) hc).1.mpr (by decide)⟩

/-- `10 ^ 10` divided by `2 * 10 ^ 8` is `0` in a vector and `50` on its own; `61` divided
by `3` is off by `20` units. -/
theorem quotients_disagree :
    letI := Multiprecision.plain
    let x : Fin 2 → Share 3 FixedPoint :=
      ![⟨![.ofInt FixedPoint.maxInt, 0, 0]⟩, ⟨![.ofInt 61, 0, 0]⟩]
    (recons (divVec x (.ofInt 200000000) 0) = 0 ∧
      recons (x 0 / FixedPoint.ofInt 200000000) = .ofInt 50 ∧
      ¬QuotientsAgree x (.ofInt 200000000) 0) ∧
    (recons (divVec x (.ofInt 3) 1)).value = 2033333313 ∧
      (recons (x 1 / FixedPoint.ofInt 3)).value = 2033333333 ∧ ¬QuotientsAgree x (.ofInt 3) 1 := by
  intro x
  refine ⟨⟨by decide +kernel, by decide +kernel, ?_⟩, by decide +kernel, by decide +kernel, ?_⟩
  · unfold QuotientsAgree
    decide +kernel
  · unfold QuotientsAgree
    decide +kernel

/-- Two ways to share `13`: divided by `3`, the quotients are four units apart for the one
and five for the other. -/
example :
    letI := Multiprecision.plain
    let x : Fin 2 → Share 3 FixedPoint :=
      ![⟨![⟨1300000000⟩, 0, 0]⟩, ⟨![⟨100000003⟩, ⟨100000003⟩, ⟨1099999994⟩]⟩]
    recons (x 0) = recons (x 1) ∧ QuotientsAgree x (.ofInt 3) 0 ∧
      ¬QuotientsAgree x (.ofInt 3) 1 := by
  unfold QuotientsAgree
  decide +kernel

end QuickMpc.Share
