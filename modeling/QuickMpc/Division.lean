import QuickMpc.Multiplication

/-!
# QuickMpc.Division

Division by a shared value. `getInv` opens the divisor times a random factor, inverts
that in the clear and takes the factor out again.

The inverse of the product `b * ρ` is cut to eight decimals before `ρ` is
multiplied back. What is cut off is `lost b ρ`, and it grows with the product: a quotient
`a / b` is off by `|a| * lost b ρ / |b|`, up to a rounding in the last place
(`accurate_iff`). Once `b * ρ` is larger than `10 ^ 8` the inverse is zero, and with it
every quotient.
-/

namespace QuickMpc

open FixedPoint (shift)

namespace Share

variable {n : ℕ}

/-- A `getRand(1, 1000)` of every party. -/
structure Draws (n : ℕ) where
  value : Fin n → ℤ
  one_le : ∀ i, 1 ≤ value i
  lt : ∀ i, value i < 1000

/-- The factor that the parties draw together. -/
def Draws.factor (r : Draws n) : ℤ := ∑ i, r.value i

section Code

variable [Config n]

/-- `getInv`. The party `sp_id` inverts what is opened, and `sharize` sends the others
their shares. -/
def getInv [Multiprecision] (t : Fin 2 → BtsTriple n) (r sent : Draws n) (s : Share n FixedPoint) :
    Share n FixedPoint :=
  let r : Share n FixedPoint := ⟨fun i => .ofInt (r.value i)⟩
  let u := mul (t 0).convertStr2Triple s r
  let u_rec := recons u
  let s_inv := sharize u_rec.getInv fun i => .ofInt (sent.value i)
  mul (t 1).convertStr2Triple s_inv r

/-- `operator/=(const Share &)`. -/
def div [Multiprecision] (t : Fin 3 → BtsTriple n) (r sent : Draws n) (x obj : Share n FixedPoint) :
    Share n FixedPoint :=
  mul (t (Fin.last 2)).convertStr2Triple x (getInv (fun i => t i.castSucc) r sent obj)

/-- `operator/(const SV &, const Share &)`. -/
def valueDiv [Multiprecision] (t : Fin 2 → BtsTriple n) (r sent : Draws n) (left : FixedPoint)
    (right : Share n FixedPoint) : Share n FixedPoint :=
  getInv t r sent right * left

end Code

/-- The quotient to within `0.1`. -/
def Accurate (q a b : FixedPoint) : Prop :=
  |q.getDoubleVal - a.getDoubleVal / b.getDoubleVal| ≤ 1 / 10

/-- What is cut off the inverse of `b * ρ`: the inverse times `b * ρ` is `1` less this. It
is the remainder of the division, unless the inverse comes out even and falls short. -/
def lost [Multiprecision] (b ρ : ℤ) : ℤ := shift * shift - b * ρ * FixedPoint.quot shift (b * ρ)

/-- The inverse of `b` that is left, in units of the last place. -/
def inverse [Multiprecision] (b ρ : ℤ) : ℤ := FixedPoint.quot shift (b * ρ) * ρ

/-- What a product of `a` with the inverse has below the last place. -/
def rest [Multiprecision] (a b ρ : ℤ) : ℤ := |(a * inverse b ρ).tmod shift|

/-! ### The inverse -/

theorem Draws.factor_pos [Config n] (r : Draws n) : 0 < r.factor := by
  refine Finset.sum_pos (fun i _ => ?_) ⟨Config.sp_id, Finset.mem_univ _⟩
  have hone := r.one_le i
  omega

section Inverse

variable [Multiprecision]

theorem mul_inverse (b ρ : ℤ) : b * inverse b ρ = shift * shift - lost b ρ := by
  rw [inverse, lost]
  ring

theorem lost_nonneg (b ρ : ℤ) : 0 ≤ lost b ρ :=
  nonneg_of_mul_nonneg_left (FixedPoint.sub_mul_quot_mul_nonneg shift (b * ρ)) FixedPoint.shift_pos

theorem lost_le {b ρ : ℤ} (hb : b ≠ 0) (hρ : 0 < ρ) : lost b ρ ≤ |b| * ρ := by
  have hle := FixedPoint.abs_sub_mul_quot_le (mul_ne_zero hb hρ.ne') shift
  rw [abs_mul, abs_of_pos hρ] at hle
  exact (le_abs_self _).trans hle

theorem mul_inverse_nonneg (b ρ : ℤ) : 0 ≤ b * inverse b ρ := by
  have hassoc : b * inverse b ρ = b * ρ * FixedPoint.quot shift (b * ρ) := by
    rw [inverse]
    ring
  rw [hassoc]
  exact nonneg_of_mul_nonneg_left (FixedPoint.mul_quot_mul_nonneg shift (b * ρ))
    FixedPoint.shift_pos

end Inverse

/-- `getInv` shares the inverse, whatever is sent and whatever the triples are. -/
theorem secret_getInv [Multiprecision] [Config n] (t : Fin 2 → BtsTriple n) (r sent : Draws n)
    (s : Share n FixedPoint) : secret (getInv t r sent s) = inverse (secret s) r.factor := by
  have hr := secret_ofInt r.value
  have hu : (recons (mul (t 0).convertStr2Triple s ⟨fun i => .ofInt (r.value i)⟩)).value
      = secret s * r.factor := by
    rw [recons_value_fixedPoint, secret_mul_whole _ _ _ hr, Draws.factor]
  rw [getInv, secret_mul_whole _ _ _ hr, secret_sharize, denote_eq_value,
    FixedPoint.getInv_value, hu, inverse, Draws.factor]

/-! ### Rounded products with the inverse -/

/-- A quotient is compared with the true one by cross products. -/
theorem accurate_iff_abs {q a b : FixedPoint} (hb : b.value ≠ 0) :
    Accurate q a b ↔ 10 * |q.value * b.value - shift * a.value| ≤ shift * |b.value| := by
  have hshift : (0 : ℚ) < shift := by exact_mod_cast FixedPoint.shift_pos
  have hb' : (b.value : ℚ) ≠ 0 := by exact_mod_cast hb
  have hdiff : q.getDoubleVal - a.getDoubleVal / b.getDoubleVal
      = (q.value * b.value - shift * a.value) / (shift * b.value) := by
    simp only [FixedPoint.getDoubleVal]
    field_simp
  have hpos : (0 : ℚ) < shift * |(b.value : ℚ)| := mul_pos hshift (abs_pos.mpr hb')
  rw [Accurate, hdiff, abs_div, abs_mul, abs_of_pos hshift, div_le_iff₀ hpos, one_div,
    ← div_eq_inv_mul, le_div_iff₀ (by norm_num), mul_comm]
  norm_cast

/-- The product of `a` and the inverse of `b`, with the rounding error `e`. -/
theorem accurate_iff [Multiprecision] {q a b : FixedPoint} {ρ e : ℤ} (hb : b.value ≠ 0)
    (hq : shift * q.value = a.value * inverse b.value ρ + e) :
    Accurate q a b ↔ 10 * |e * b.value - a.value * lost b.value ρ| ≤ shift * shift * |b.value| := by
  have hcross : e * b.value - a.value * lost b.value ρ
      = shift * (q.value * b.value - shift * a.value) := by
    have hinv := mul_inverse b.value ρ
    linear_combination (-b.value) * hq - a.value * hinv
  rw [accurate_iff_abs hb, hcross, abs_mul, abs_of_pos FixedPoint.shift_pos, mul_left_comm,
    mul_assoc, mul_le_mul_iff_right₀ FixedPoint.shift_pos]

/-- The loss of the product and the loss of the inverse have the same sign. -/
theorem losses_same_sign {s a b k l : ℤ} (hl : 0 ≤ l) (hbk : 0 ≤ b * k) :
    0 ≤ (a * k).tmod s * b * (a * l) := by
  rcases eq_or_ne k 0 with rfl | hk
  · simp
  · have hsquare : 0 < k * k := mul_self_pos.mpr hk
    refine nonneg_of_mul_nonneg_left ?_ hsquare
    calc 0 ≤ (a * k).tmod s * (a * k) * (b * k) * l :=
          mul_nonneg (mul_nonneg (TruncDiv.tmod_mul_self_nonneg _ s) hbk) hl
      _ = (a * k).tmod s * b * (a * l) * (k * k) := by ring

/-- A multiple of `s` close to `p` is `p` rounded toward zero, or away from it. -/
theorem rounding_cases {s p q e : ℤ} (hs : 0 < s) (hq : s * q = p + e) (he : |e| < s) :
    e = -p.tmod s ∨ 0 < p.tmod s * e := by
  have hsplit := Int.mul_tdiv_add_tmod p s
  have hmod := TruncDiv.abs_tmod_lt hs.ne' p
  rw [abs_of_pos hs] at hmod
  rw [abs_lt] at he hmod
  have hsum : s * (q - p.tdiv s) = p.tmod s + e := by linarith
  have hlow : -2 < q - p.tdiv s := by nlinarith
  have hhigh : q - p.tdiv s < 2 := by nlinarith
  obtain hstep | hstep | hstep :
      q - p.tdiv s = 0 ∨ q - p.tdiv s = 1 ∨ q - p.tdiv s = -1 := by omega
  · left
    rw [hstep] at hsum
    linarith
  · right
    rw [hstep] at hsum
    exact mul_pos (by linarith) (by linarith)
  · right
    rw [hstep] at hsum
    exact mul_pos_of_neg_of_neg (by linarith) (by linarith)

/-- The losses of the inverse and of a product that is rounded either way. -/
theorem abs_losses_le {s a b k l q e m : ℤ} (hs : 0 < s) (hl : 0 ≤ l) (hbk : 0 ≤ b * k)
    (hq : s * q = a * k + e) (he : |e| < s) (hlosses : |a| * l + |b| * |(a * k).tmod s| ≤ m)
    (hm : s * |b| ≤ m) : |e * b - a * l| ≤ m := by
  have hal : |a * l| ≤ m := by
    rw [abs_mul, abs_of_nonneg hl]
    have h := mul_nonneg (abs_nonneg b) (abs_nonneg ((a * k).tmod s))
    linarith
  have heb : |e * b| ≤ m := by
    rw [abs_mul]
    exact (mul_le_mul_of_nonneg_right he.le (abs_nonneg b)).trans hm
  rcases rounding_cases hs hq he with rfl | hsame
  · calc |-(a * k).tmod s * b - a * l| = |(a * k).tmod s * b + a * l| := by
          rw [← abs_neg]
          ring_nf
      _ ≤ |(a * k).tmod s * b| + |a * l| := abs_add_le _ _
      _ = |a| * l + |b| * |(a * k).tmod s| := by
          rw [abs_mul, abs_mul, abs_of_nonneg hl]
          ring
      _ ≤ m := hlosses
  · -- the product gains what the inverse has lost
    have hsign : 0 ≤ e * b * (a * l) := by
      refine nonneg_of_mul_nonneg_left ?_ hsame
      calc 0 ≤ (a * k).tmod s * b * (a * l) * (e * e) :=
            mul_nonneg (losses_same_sign hl hbk) (mul_self_nonneg e)
        _ = e * b * (a * l) * ((a * k).tmod s * e) := by ring
    rw [abs_le] at hal heb ⊢
    rcases mul_nonneg_iff.mp hsign with ⟨h1, h2⟩ | ⟨h1, h2⟩
    · exact ⟨by linarith, by linarith⟩
    · exact ⟨by linarith, by linarith⟩

/-! ### The quotients -/

section Quotients

variable [Config n] {a b : FixedPoint} {r : Draws n}

/-- The quotient of two shares is rounded once. -/
theorem exists_div_rounding [Multiprecision] (t : Fin 3 → BtsTriple n) (sent : Draws n)
    {x y : Share n FixedPoint} (hx : recons x = a) (hy : recons y = b) :
    ∃ e, |e| < shift ∧
      shift * (recons (div t r sent x y)).value = a.value * inverse b.value r.factor + e := by
  refine ⟨_, ?_, (add_sub_cancel _ _).symm⟩
  rw [recons_value_fixedPoint, ← hx, ← hy, recons_value_fixedPoint, recons_value_fixedPoint,
    ← secret_getInv (fun i => t i.castSucc) r sent]
  exact abs_shift_mul_secret_mul_sub_lt (t 2) x _

/-- The quotient of a public value is rounded by every party. -/
theorem exists_valueDiv_rounding [Multiprecision] (t : Fin 2 → BtsTriple n) (sent : Draws n)
    {y : Share n FixedPoint} (hy : recons y = b) :
    ∃ e, |e| ≤ n * shift ∧
      shift * (recons (valueDiv t r sent a y)).value = a.value * inverse b.value r.factor + e := by
  refine ⟨_, ?_, (add_sub_cancel _ _).symm⟩
  have herr := abs_shift_mul_secret_mul_value_sub_le (getInv t r sent y) a
  have hsecret : secret (getInv t r sent y) = inverse b.value r.factor := by
    rw [secret_getInv, ← hy, recons_value_fixedPoint]
  rw [recons_value_fixedPoint, mul_comm a.value, ← hsecret]
  refine le_trans herr ?_
  have hn : (0 : ℤ) ≤ n := Int.natCast_nonneg n
  nlinarith

/-- Accurate to within `0.1`, in units: what is lost, times ten, fits into the divisor. -/
theorem accurate_iff_le [Multiprecision] {q : FixedPoint} {ρ e : ℤ} (hb : b.value ≠ 0)
    (hq : shift * q.value = a.value * inverse b.value ρ + e) :
    Accurate q a b ↔ |e * b.value - a.value * lost b.value ρ| ≤ 10 ^ 15 * |b.value| := by
  have hunits : shift * shift = 10 * 10 ^ 15 := by norm_num [shift]
  rw [accurate_iff hb hq, hunits, mul_assoc]
  exact mul_le_mul_iff_right₀ (by norm_num)

theorem accurate_of_le [Multiprecision] {q : FixedPoint} {ρ e m : ℤ} (hb : b.value ≠ 0)
    (hq : shift * q.value = a.value * inverse b.value ρ + e) (he : |e| ≤ m)
    (h : |a.value| * lost b.value ρ ≤ (10 ^ 15 - m) * |b.value|) : Accurate q a b := by
  rw [accurate_iff_le hb hq]
  calc |e * b.value - a.value * lost b.value ρ|
      ≤ |e * b.value| + |a.value * lost b.value ρ| := abs_sub _ _
    _ = |e| * |b.value| + |a.value| * lost b.value ρ := by
        rw [abs_mul, abs_mul, abs_of_nonneg (lost_nonneg _ _)]
    _ ≤ m * |b.value| + (10 ^ 15 - m) * |b.value| :=
        add_le_add (mul_le_mul_of_nonneg_right he (abs_nonneg _)) h
    _ = 10 ^ 15 * |b.value| := by ring

theorem not_accurate_of_lt [Multiprecision] {q : FixedPoint} {ρ e m : ℤ} (hb : b.value ≠ 0)
    (hq : shift * q.value = a.value * inverse b.value ρ + e) (he : |e| ≤ m)
    (h : (10 ^ 15 + m) * |b.value| < |a.value| * lost b.value ρ) : ¬Accurate q a b := by
  rw [accurate_iff_le hb hq, not_le]
  have hround : |e * b.value| ≤ m * |b.value| := by
    rw [abs_mul]
    exact mul_le_mul_of_nonneg_right he (abs_nonneg _)
  have hlost : |a.value * lost b.value ρ| = |a.value| * lost b.value ρ := by
    rw [abs_mul, abs_of_nonneg (lost_nonneg _ _)]
  have htri := abs_sub_abs_le_abs_sub (a.value * lost b.value ρ) (e * b.value)
  rw [hlost, abs_sub_comm] at htri
  linarith

/-- A triple of zeros: the factors themselves are opened. -/
def BtsTriple.zero (n : ℕ) : BtsTriple n :=
  ⟨fun _ => 0, fun _ => 0, fun _ => 0, BtsTriple.zero_valid n⟩

/-- With a triple of zeros the product is rounded toward zero. -/
theorem div_zero_value [Multiprecision] (sent : Draws n) {x y : Share n FixedPoint}
    (hx : recons x = a) (hy : recons y = b) :
    (recons (div (fun _ => BtsTriple.zero n) r sent x y)).value
      = (a.value * inverse b.value r.factor).tdiv shift := by
  obtain ⟨d, e, hd, he, hsecret⟩ := secret_mul_bts (BtsTriple.zero n) x
    (getInv (fun _ => BtsTriple.zero n) r sent y)
  have hzero : (∑ i, (BtsTriple.zero n).a i) = 0 ∧ (∑ i, (BtsTriple.zero n).b i) = 0
      ∧ (∑ i, (BtsTriple.zero n).c i) = 0 := by simp [BtsTriple.zero]
  rw [hzero.1, mul_zero, sub_zero] at hd
  rw [hzero.2.1, mul_zero, sub_zero, secret_getInv] at he
  rw [recons_value_fixedPoint]
  rw [hzero.1, hzero.2.1, hzero.2.2, mul_zero, mul_zero, mul_zero, zero_add, zero_add, zero_add,
    FixedPoint.mul_value, hd, he] at hsecret
  rw [← hx, ← hy, recons_value_fixedPoint, recons_value_fixedPoint]
  exact hsecret

end Quotients

/-- **Division is accurate where the inverse is.** A quotient of shares is within `0.1` of the
true one, for all sharings and triples, exactly when the inverse loses little enough; so is
a quotient of a public value, up to the roundings of the `n` parties. -/
theorem division_accurate_iff [Multiprecision] [Config n] (a b : FixedPoint) (hb : b.value ≠ 0)
    (r : Draws n) :
    ((∀ x y : Share n FixedPoint, recons x = a → recons y = b →
        ∀ (t : Fin 3 → BtsTriple n) (sent : Draws n), Accurate (recons (div t r sent x y)) a b) ↔
      |a.value| * lost b.value r.factor + |b.value| * rest a.value b.value r.factor
        ≤ 10 ^ 15 * |b.value|) ∧
    (|a.value| * lost b.value r.factor ≤ (10 ^ 15 - n * shift) * |b.value| →
      ∀ y : Share n FixedPoint, recons y = b → ∀ (t : Fin 2 → BtsTriple n) (sent : Draws n),
        Accurate (recons (valueDiv t r sent a y)) a b) ∧
    ((10 ^ 15 + n * shift) * |b.value| < |a.value| * lost b.value r.factor →
      ∀ y : Share n FixedPoint, recons y = b → ∀ (t : Fin 2 → BtsTriple n) (sent : Draws n),
        ¬Accurate (recons (valueDiv t r sent a y)) a b) := by
  refine ⟨⟨fun h => ?_, fun h x y hx hy t sent => ?_⟩, fun h y hy t sent => ?_,
    fun h y hy t sent => ?_⟩
  · have hconst : ∀ c : FixedPoint, recons ((0 : Share n FixedPoint) + c) = c := by
      intro c
      ext
      rw [recons_value_fixedPoint, secret_add_value, secret_zero, zero_add, denote_eq_value]
    have hrun := h _ _ (hconst a) (hconst b) (fun _ => BtsTriple.zero n) r
    have hq : shift * (recons (div (fun _ => BtsTriple.zero n) r r ((0 : Share n FixedPoint) + a)
        ((0 : Share n FixedPoint) + b))).value
          = a.value * inverse b.value r.factor
            + -(a.value * inverse b.value r.factor).tmod shift := by
      rw [div_zero_value r (hconst a) (hconst b), Int.mul_tdiv_self, sub_eq_add_neg]
    have hlosses := losses_same_sign (s := shift) (a := a.value) (lost_nonneg b.value r.factor)
      (mul_inverse_nonneg b.value r.factor)
    rw [accurate_iff_le hb hq, ← abs_neg] at hrun
    have hsum : -(-(a.value * inverse b.value r.factor).tmod shift * b.value
        - a.value * lost b.value r.factor)
          = (a.value * inverse b.value r.factor).tmod shift * b.value
            + a.value * lost b.value r.factor := by ring
    rw [hsum, (abs_add_eq_add_abs_iff _ _).mpr (mul_nonneg_iff.mp hlosses), abs_mul, abs_mul,
      abs_of_nonneg (lost_nonneg _ _)] at hrun
    rw [rest]
    linarith
  · obtain ⟨e, he, hq⟩ := exists_div_rounding t sent hx hy
    rw [accurate_iff_le hb hq]
    refine abs_losses_le FixedPoint.shift_pos (lost_nonneg _ _) (mul_inverse_nonneg _ _) hq he h ?_
    exact mul_le_mul_of_nonneg_right (by norm_num [shift]) (abs_nonneg _)
  · obtain ⟨e, he, hq⟩ := exists_valueDiv_rounding t sent hy
    exact accurate_of_le hb hq he h
  · obtain ⟨e, he, hq⟩ := exists_valueDiv_rounding t sent hy
    exact not_accurate_of_lt hb hq he h

/-- Up to `3000` the inverse of three parties is precise enough, whatever they draw. -/
theorem division_accurate_of_le [Multiprecision] [Config 3] {a b : FixedPoint} (hb : b.value ≠ 0)
    (hle : |b.value| ≤ 3000 * shift) (hab : |a.value| ≤ |b.value|) (r : Draws 3) :
    (∀ x y : Share 3 FixedPoint, recons x = a → recons y = b →
      ∀ (t : Fin 3 → BtsTriple 3) (sent : Draws 3), Accurate (recons (div t r sent x y)) a b) ∧
    ∀ y : Share 3 FixedPoint, recons y = b → ∀ (t : Fin 2 → BtsTriple 3) (sent : Draws 3),
      Accurate (recons (valueDiv t r sent a y)) a b := by
  have hfactor : r.factor ≤ 2997 := by
    rw [Draws.factor, Fin.sum_univ_three]
    have h0 := r.lt 0
    have h1 := r.lt 1
    have h2 := r.lt 2
    omega
  have hlost : lost b.value r.factor ≤ 10 ^ 15 - 3 * shift :=
    calc lost b.value r.factor ≤ |b.value| * r.factor := lost_le hb r.factor_pos
      _ ≤ (3000 * shift) * 2997 := mul_le_mul hle hfactor r.factor_pos.le (by norm_num [shift])
      _ ≤ 10 ^ 15 - 3 * shift := by norm_num [shift]
  have hprod : |a.value| * lost b.value r.factor ≤ (10 ^ 15 - 3 * shift) * |b.value| :=
    calc |a.value| * lost b.value r.factor ≤ |b.value| * (10 ^ 15 - 3 * shift) :=
          mul_le_mul hab hlost (lost_nonneg _ _) (abs_nonneg _)
      _ = (10 ^ 15 - 3 * shift) * |b.value| := mul_comm _ _
  refine ⟨fun x y hx hy t sent => ?_, fun y hy t sent => ?_⟩
  · obtain ⟨e, he, hq⟩ := exists_div_rounding t sent hx hy
    have he' : |e| ≤ 3 * shift := he.le.trans (by norm_num [shift])
    exact accurate_of_le hb hq he' hprod
  · obtain ⟨e, he, hq⟩ := exists_valueDiv_rounding t sent hy
    exact accurate_of_le hb hq (by exact_mod_cast he) hprod

/-- Every party draws `1`. -/
def ones : Draws 3 := ⟨fun _ => 1, by decide, by decide⟩

/-- One third. -/
theorem division_accurate_iff_third :
    letI := threeParties
    letI := Multiprecision.plain
    (FixedPoint.ofInt 3).value ≠ 0 ∧
      ∀ x y : Share 3 FixedPoint, recons x = FixedPoint.ofInt 1 → recons y = FixedPoint.ofInt 3 →
        ∀ (t : Fin 3 → BtsTriple 3) (sent : Draws 3),
          Accurate (recons (div t ones sent x y)) (FixedPoint.ofInt 1) (FixedPoint.ofInt 3) := by
  let _ := threeParties
  let _ := Multiprecision.plain
  have hb : (FixedPoint.ofInt 3).value ≠ 0 := by decide
  exact ⟨hb, (division_accurate_iff (FixedPoint.ofInt 1) _ hb ones).1.mpr (by decide)⟩

/-- The largest number divided by itself: its inverse has no digit left, and the quotient
is `0`. -/
theorem maxInt_div_maxInt :
    letI := threeParties
    letI := Multiprecision.plain
    let b := FixedPoint.ofInt FixedPoint.maxInt
    let y := (0 : Share 3 FixedPoint) + b
    recons y = b ∧
      recons (div (fun _ => BtsTriple.zero 3) ones ones y y) = 0 ∧
      recons (valueDiv (fun _ => BtsTriple.zero 3) ones ones b y) = 0 ∧ ¬Accurate 0 b b := by
  let _ := threeParties
  let _ := Multiprecision.plain
  refine ⟨by decide +kernel, by decide +kernel, by decide +kernel, ?_⟩
  rw [accurate_iff_abs (by decide)]
  decide

end Share

end QuickMpc
