import Mathlib.Analysis.Calculus.MeanValue
import Mathlib.Analysis.SpecialFunctions.Sigmoid
import QuickMpc.Gbdt.TrainingSet
import QuickMpc.Math.Statistics

/-!
# QuickMpc.Math.Sigmoid

The sigmoid of a share that is opened on the way. Every party takes the exponential of what
is opened, one of them shares it again, and `1` is divided by `1` and the share.

The exponential is `std::exp`, of which only the sign is used; what it is off enters
`sigmoidError`. When it is infinite, the largest double takes its place. When only its product
with the shift is infinite, the constructor does not come back, and neither does the sigmoid
(`openedExp_eq_none_iff`): this is so for what is opened between `-709.8` and `-691.4`.

The divisor is at least `1`, so the inverse that `getInv` truncates is off by less than the
random factor of the division in units, whatever the divisor is: a sigmoid is good to
`999 n` units. From an exponential of `10 ^ 8` on the inverse is zero, also where the texts of
what is opened no longer carry every digit. So no piece of the quotient is large
(`isinf_div_one`), and the retry for an infinite one is never taken.
-/

namespace QuickMpc

open FixedPoint (shift ofInt ofDouble)

variable {n : ℕ}

/-- The pieces of a triple are `int64`s. -/
def BtsTriple.Fits (t : BtsTriple n) : Prop :=
  ∀ i, |t.a i| ≤ 2 ^ 63 ∧ |t.b i| ≤ 2 ^ 63 ∧ |t.c i| ≤ 2 ^ 63

namespace Math

open Share (toRat ulp recons sharize)
open Gbdt (getConstantShare)

/-! ### The code -/

/-- What the divisions and the sharings draw. -/
structure SigmoidDraws (n : ℕ) where
  r : ℕ → Share.Draws n
  sent : ℕ → Share.Draws n
  rnd : ℕ → Fin n → FixedPoint

section Code

variable [Multiprecision]

/-- `std::exp(-(…))`, as a fixed-point number. `stdExp` is `std::exp`, without a result where it
is infinite. -/
def openedExp (stdExp : ℚ → Option ℚ) (v : FixedPoint) : Option FixedPoint :=
  FixedPoint.ofComputed (stdExp (-v.double))

/-- `isinf`, of a stored integer as a double. -/
def isinf (v : FixedPoint) : Bool := (Multiprecision.toDouble v.value).isNone

variable [Config n] (t : ℕ → BtsTriple n) (draws : SigmoidDraws n) (stdExp : ℚ → Option ℚ)

/-- `open_sigmoid`, up to its call of itself. A party makes it when its piece of the result is
infinite, and a party that does not make it leaves the others waiting. -/
def open_sigmoidBody (retry : Share n FixedPoint → FixedPoint → Supply (Share n FixedPoint))
    (x_s : Share n FixedPoint) (a : FixedPoint) : Supply (Share n FixedPoint) := do
  let s := recons x_s
  let E ← Supply.ofOption (openedExp stdExp (s * a))
  let E_s ← Supply.take 0 fun k => sharize E (draws.rnd k)
  let one_s := getConstantShare (ofInt 1)
  let ret ← Gbdt.div t draws.r draws.sent one_s (one_s + E_s)
  if ∀ i, isinf (ret.value i) then retry (Share.ofValue s) (ofInt 1)
  else if ∃ i, isinf (ret.value i) then failure
  else return ret

/-- `open_sigmoid`, with a number of retries. -/
def open_sigmoid : ℕ → Share n FixedPoint → FixedPoint → Supply (Share n FixedPoint)
  | 0 => open_sigmoidBody t draws stdExp fun _ _ => failure
  | retries + 1 => open_sigmoidBody t draws stdExp (open_sigmoid retries)

/-- `open_sigmoid_vector`, which does not pass its `a` on. -/
def open_sigmoid_vector (retries : ℕ) {N : ℕ} (v_s : Fin N → Share n FixedPoint)
    (_a : FixedPoint) : Supply (Share n FixedPoint) :=
  let x_s := Gbdt.sum v_s
  open_sigmoid t draws stdExp retries x_s (ofInt 1)

end Code

/-! ### The opened exponential -/

section OpenedExp

variable [Multiprecision] {stdExp : ℚ → Option ℚ} {v : FixedPoint}

/-- There is none exactly when the exponential is finite and its product with the shift is
not. -/
theorem openedExp_eq_none_iff :
    openedExp stdExp v = none ↔ ∃ e ∈ stdExp (-v.double), Binary64.limit ≤ |e * shift| := by
  unfold openedExp
  cases stdExp (-v.double) with
  | none => simp [FixedPoint.ofComputed]
  | some e => simp [FixedPoint.ofComputed, Binary64.ofRat]

theorem openedExp_eq {E : FixedPoint} (hE : openedExp stdExp v = some E) {e : ℚ}
    (hexp : stdExp (-v.double) = some e) :
    E = ⟨FixedPoint.truncate (Binary64.round (e * shift))⟩ := by
  rw [openedExp, hexp, FixedPoint.ofComputed] at hE
  obtain ⟨w, hw, rfl⟩ := Option.map_eq_some_iff.mp hE
  obtain ⟨-, hround⟩ := Option.ite_none_right_eq_some.mp hw
  rw [Option.some.inj hround]

theorem openedExp_nonneg (h : ∀ e ∈ stdExp (-v.double), 0 ≤ e) {E : FixedPoint}
    (hE : openedExp stdExp v = some E) : 0 ≤ E.getDoubleVal := by
  have hvalue : 0 ≤ E.value := by
    cases hexp : stdExp (-v.double) with
    | none =>
        rw [openedExp, hexp, FixedPoint.ofComputed] at hE
        obtain rfl := Option.some.inj hE
        have hle : (2 : ℤ) ^ 971 ≤ 2 ^ 1024 := pow_le_pow_right₀ one_le_two (by norm_num)
        exact sub_nonneg.mpr hle
    | some e =>
        have hround := Binary64.round_nonneg (mul_nonneg (h e hexp) Share.shift_cast_pos.le)
        rw [openedExp_eq hE hexp, FixedPoint.truncate_of_nonneg hround]
        exact Int.floor_nonneg.mpr hround
  rw [Share.getDoubleVal_eq]
  exact mul_nonneg (by exact_mod_cast hvalue) Share.ulp_pos.le

end OpenedExp

/-! ### The sigmoid -/

/-- How far the sigmoid of `v` is off that is computed from its exponential `E` in the clear. -/
noncomputable def sigmoidError (E v : FixedPoint) : ℝ :=
  |1 / (1 + (E.getDoubleVal : ℝ)) - Real.sigmoid v.getDoubleVal|

/-- How far a sigmoid is off for which `v` is opened, itself off by `e`. -/
noncomputable def sigmoidSlack (n : ℕ) (E v : FixedPoint) (e : ℝ) : ℝ :=
  999 * n * ulp + sigmoidError E v + 1 / 4 * e

/-- An error that is small next to `1 + b` stays as small in the reciprocals. -/
theorem abs_one_div_sub_le {a b η : ℝ} (ha : 0 ≤ a) (hb : 0 ≤ b) (h : |a - b| ≤ η * (1 + b)) :
    |1 / (1 + a) - 1 / (1 + b)| ≤ η := by
  have hapos : 0 < 1 + a := by linarith
  have hbpos : 0 < 1 + b := by linarith
  have hsplit : 1 / (1 + a) - 1 / (1 + b) = -((a - b) / ((1 + a) * (1 + b))) := by
    field_simp
    ring
  have hη : 0 ≤ η := nonneg_of_mul_nonneg_left ((abs_nonneg _).trans h) hbpos
  rw [hsplit, abs_neg, abs_div, abs_of_pos (mul_pos hapos hbpos),
    div_le_iff₀ (mul_pos hapos hbpos)]
  refine h.trans (mul_le_mul_of_nonneg_left ?_ hη)
  exact le_mul_of_one_le_left hbpos.le (by linarith)

/-- What is lost of an exponential when its product with the shift is rounded and cut. -/
theorem abs_openedExp_sub_le [Multiprecision] {stdExp : ℚ → Option ℚ} {E v : FixedPoint} {e : ℚ}
    (hE : openedExp stdExp v = some E) (hexp : stdExp (-v.double) = some e) (he : 0 ≤ e) :
    |E.getDoubleVal - e| ≤ (ulp + 1 / 2 ^ 53) * (1 + e) := by
  have hscaled : 0 ≤ e * shift := mul_nonneg he Share.shift_cast_pos.le
  have hround := Binary64.round_nonneg hscaled
  have hfloor : E.getDoubleVal = ⌊Binary64.round (e * shift)⌋ * ulp := by
    rw [openedExp_eq hE hexp, Share.getDoubleVal_eq, FixedPoint.truncate_of_nonneg hround]
  set w := Binary64.round (e * shift)
  have hcut : |(⌊w⌋ : ℚ) - w| ≤ 1 := by
    have hlow := Int.floor_le w
    have hhigh := (Int.lt_floor_add_one w).le
    rw [abs_le]
    constructor <;> linarith
  have hnear := Binary64.abs_round_sub_le (e * shift)
  rw [abs_of_nonneg hscaled] at hnear
  have hsum : |(⌊w⌋ : ℚ) - e * shift| ≤ 1 + e * shift / 2 ^ 53 :=
    (abs_sub_le _ w _).trans (add_le_add hcut hnear)
  have hunits : e = e * shift * ulp := by rw [mul_assoc, Share.shift_mul_ulp, mul_one]
  calc |E.getDoubleVal - e| = |(⌊w⌋ : ℚ) - e * shift| * ulp := by
        rw [hfloor, ← abs_of_pos Share.ulp_pos, ← abs_mul, abs_of_pos Share.ulp_pos, sub_mul,
          ← hunits]
    _ ≤ (1 + e * shift / 2 ^ 53) * ulp := mul_le_mul_of_nonneg_right hsum Share.ulp_pos.le
    _ = ulp + e / 2 ^ 53 := by rw [add_mul, one_mul, div_mul_eq_mul_div, ← hunits]
    _ ≤ (ulp + 1 / 2 ^ 53) * (1 + e) := by
        have hprod := mul_nonneg Share.ulp_pos.le he
        have hexpand : (ulp + 1 / 2 ^ 53) * (1 + e)
            = ulp + e / 2 ^ 53 + (ulp * e + 1 / 2 ^ 53) := by ring
        rw [hexpand]
        exact le_add_of_nonneg_right (by positivity)

/-- `std::exp` may have a relative error `η` where its result is large, and an absolute one
where it is small; its product with the shift is rounded, and one unit is lost when that becomes
a fixed-point number. -/
theorem sigmoidError_le [Multiprecision] {stdExp : ℚ → Option ℚ} {η : ℝ} {E v : FixedPoint} {e : ℚ}
    (hE : openedExp stdExp v = some E) (hexp : stdExp (-v.double) = some e) (he : 0 ≤ e)
    (hη : |(e : ℝ) - Real.exp (-v.getDoubleVal)| ≤ η * (1 + Real.exp (-v.getDoubleVal))) :
    sigmoidError E v ≤ ulp + 1 / 2 ^ 53 + η := by
  have hnonneg : ∀ e' ∈ stdExp (-v.double), 0 ≤ e' := fun e' he' =>
    Option.some.inj (hexp.symm.trans he') ▸ he
  have hEreal : (0 : ℝ) ≤ E.getDoubleVal := by exact_mod_cast openedExp_nonneg hnonneg hE
  have hereal : (0 : ℝ) ≤ e := by exact_mod_cast he
  have htruncate : |1 / (1 + (E.getDoubleVal : ℝ)) - 1 / (1 + (e : ℝ))| ≤ ulp + 1 / 2 ^ 53 := by
    have hcast := (Rat.cast_le (K := ℝ)).mpr (abs_openedExp_sub_le hE hexp he)
    push_cast at hcast
    exact abs_one_div_sub_le hEreal hereal hcast
  have hstdExp := abs_one_div_sub_le hereal (Real.exp_pos _).le hη
  rw [sigmoidError, Real.sigmoid_def, inv_eq_one_div]
  exact (abs_sub_le _ _ _).trans (add_le_add htruncate hstdExp)

/-- The slope of the sigmoid is `1 / 4` at most. -/
theorem abs_sigmoid_sub_le (x y : ℝ) : |Real.sigmoid x - Real.sigmoid y| ≤ 1 / 4 * |x - y| := by
  have hderiv : ∀ z ∈ Set.univ, ‖deriv Real.sigmoid z‖ ≤ 1 / 4 := by
    intro z _
    have hpos := Real.sigmoid_pos z
    have hlt := Real.sigmoid_lt_one z
    rw [Real.deriv_sigmoid, Real.norm_eq_abs, abs_of_nonneg (by nlinarith)]
    nlinarith [sq_nonneg (Real.sigmoid z - 1 / 2)]
  have hmean := convex_univ.norm_image_sub_le_of_norm_deriv_le
    (fun z _ => differentiable_sigmoid z) hderiv (Set.mem_univ y) (Set.mem_univ x)
  simpa [Real.norm_eq_abs] using hmean

/-! ### The pieces of the quotient -/

/-- What is opened for a factor is not much larger than it: the sums of the pieces of the triple
are small. -/
theorem abs_recons_sub_ofInt_le (hn : n < 2 ^ 31) {z : Share n FixedPoint}
    (hz : |Share.secret z| ≤ 2 ^ 54) {k : Fin n → ℤ} (hk : ∀ i, |k i| ≤ 2 ^ 63) :
    |(recons (z - (⟨fun i => .ofInt (k i)⟩ : Share n FixedPoint))).value| ≤ 2 ^ 122 := by
  have hsum : |∑ i, k i| ≤ 2 ^ 31 * 2 ^ 63 := by
    refine (Finset.abs_sum_le_sum_abs _ _).trans ((Finset.sum_le_card_nsmul _ _ _ fun i _ =>
      hk i).trans ?_)
    rw [Finset.card_univ, Fintype.card_fin, nsmul_eq_mul]
    exact mul_le_mul_of_nonneg_right (by exact_mod_cast hn.le) (by norm_num)
  have hshift : |shift * ∑ i, k i| ≤ 2 ^ 27 * (2 ^ 31 * 2 ^ 63) := by
    rw [abs_mul]
    exact mul_le_mul (by norm_num [shift]) hsum (abs_nonneg _) (by norm_num)
  rw [Share.recons_value_fixedPoint, Share.secret_sub, Share.secret_ofInt]
  refine (abs_sub _ _).trans ((add_le_add hz hshift).trans ?_)
  norm_num

theorem abs_mul_value_le (x y : FixedPoint) : |(x * y).value| ≤ |x.value| * |y.value| := by
  rw [FixedPoint.mul_value, ← abs_mul, Int.abs_eq_natAbs, Int.abs_eq_natAbs]
  exact_mod_cast Int.natAbs_tdiv_le_natAbs _ _

/-- The pieces of a product are not much larger than what is multiplied. -/
theorem abs_mul_piece_lt [Config n] {t : BtsTriple n} (ht : t.Fits) (hn : n < 2 ^ 31)
    {x y : Share n FixedPoint} (hx : |Share.secret x| ≤ 2 ^ 54) (hy : |Share.secret y| ≤ 2 ^ 54)
    (i : Fin n) : |((Share.mul t.convertStr2Triple x y).value i).value| < 2 ^ 1023 := by
  have hd := abs_recons_sub_ofInt_le hn hx fun i => (ht i).1
  have he := abs_recons_sub_ofInt_le hn hy fun i => (ht i).2.1
  set d := recons (x - (⟨fun i => .ofInt (t.a i)⟩ : Share n FixedPoint)) with hdef
  set e := recons (y - (⟨fun i => .ofInt (t.b i)⟩ : Share n FixedPoint)) with hedef
  have hprod : |(d * e).value| ≤ 2 ^ 122 * 2 ^ 122 :=
    (abs_mul_value_le d e).trans (mul_le_mul hd he (abs_nonneg _) (by norm_num))
  have hlocal : ∀ {u : FixedPoint} {k : ℤ}, |u.value| ≤ 2 ^ 122 → |k| ≤ 2 ^ 63 →
      |k * u.value| ≤ 2 ^ 63 * 2 ^ 122 := by
    intro u k hu hk
    rw [abs_mul]
    exact mul_le_mul hk hu (abs_nonneg _) (by norm_num)
  have hc : |t.c i * shift| ≤ 2 ^ 63 * 2 ^ 27 := by
    rw [abs_mul]
    exact mul_le_mul (ht i).2.2 (by norm_num [shift]) (abs_nonneg _) (by norm_num)
  have hbase : |t.c i * shift + t.b i * d.value + t.a i * e.value| ≤ 2 ^ 200 := by
    refine (abs_add_three _ _ _).trans ((add_le_add (add_le_add hc (hlocal hd (ht i).2.1))
      (hlocal he (ht i).1)).trans ?_)
    norm_num
  have hlarge : (2 : ℤ) ^ 250 < 2 ^ 1023 := pow_lt_pow_right₀ one_lt_two (by norm_num)
  have hpiece : ((Share.mul t.convertStr2Triple x y).value i).value
      = (ofInt (t.c i)).value + (ofInt (t.b i) * d).value + (ofInt (t.a i) * e).value
        + if i = Config.sp_id then (d * e).value else 0 := by
    show (if i = Config.sp_id then _ else _ : FixedPoint).value = _
    split
    · rfl
    · exact (add_zero _).symm
  refine lt_of_le_of_lt ?_ hlarge
  rw [hpiece, FixedPoint.ofInt_value, FixedPoint.ofInt_mul_value, FixedPoint.ofInt_mul_value]
  refine (abs_add_le _ _).trans ?_
  split
  · exact (add_le_add hbase hprod).trans (by norm_num)
  · rw [abs_zero, add_zero]
    exact hbase.trans (by norm_num)

theorem secret_getConstantShare_one [Config n] :
    Share.secret (getConstantShare (ofInt 1) : Share n FixedPoint) = shift * 1 :=
  (Gbdt.isBit_getConstantShare True).secret_eq

/-- The numerator is whole, so the quotient is the inverse. -/
theorem abs_toRat_div_one_sub_le [Multiprecision] [Config n] (t : Fin 3 → BtsTriple n)
    (r sent : Share.Draws n) {s : Share n FixedPoint} (hs : Share.secret s ≠ 0) :
    |toRat (Share.div t r sent (getConstantShare (ofInt 1)) s) - 1 / toRat s| ≤ 999 * n * ulp := by
  have hquot : toRat (Share.div t r sent (getConstantShare (ofInt 1)) s)
      = toRat (Share.getInv (fun i => t i.castSucc) r sent s) := by
    rw [Share.div, Share.toRat_whole_mul _ _ _ secret_getConstantShare_one, Int.cast_one, one_mul]
  have hfactor : (r.factor : ℚ) ≤ 999 * n := by exact_mod_cast r.factor_le
  rw [hquot]
  exact (Share.abs_toRat_getInv_sub_le _ r sent hs).trans
    (mul_le_mul_of_nonneg_right hfactor Share.ulp_pos.le)

/-- No piece of an inverse is infinite. -/
theorem isinf_div_one [Multiprecision] [Config n] {t : Fin 3 → BtsTriple n}
    (ht : (t (Fin.last 2)).Fits) (hn : n < 2 ^ 31) (r sent : Share.Draws n) {s : Share n FixedPoint}
    (hs : Share.secret s ≠ 0) (i : Fin n) :
    isinf ((Share.div t r sent (getConstantShare (ofInt 1)) s).value i) = false := by
  have hinv : |Share.secret (Share.getInv (fun i => t i.castSucc) r sent s)| ≤ 2 ^ 54 := by
    rw [Share.secret_getInv]
    have hmul := Share.mul_inverse (Share.secret s) r.factor
    have hlost := Share.lost_nonneg (Share.secret s) r.factor
    have hle : |Share.secret s * Share.inverse (Share.secret s) r.factor| ≤ shift * shift := by
      rw [abs_of_nonneg (Share.mul_inverse_nonneg _ _)]
      omega
    rw [abs_mul] at hle
    have hstep := le_mul_of_one_le_left (abs_nonneg (Share.inverse (Share.secret s) r.factor))
      (Int.one_le_abs hs)
    exact (hstep.trans hle).trans (by norm_num [shift])
  have hlt := abs_mul_piece_lt ht hn (x := getConstantShare (ofInt 1))
    (by rw [secret_getConstantShare_one]; norm_num [shift]) hinv i
  obtain ⟨d, hd, -⟩ := Multiprecision.toDouble_near _ hlt
  rw [isinf, Share.div, hd]
  rfl

section Computes

variable [Multiprecision] [Config n] {t : ℕ → BtsTriple n} (ht : ∀ k, (t k).Fits)
  (hn : n < 2 ^ 31) (draws : SigmoidDraws n) {stdExp : ℚ → Option ℚ}
  (hexp : ∀ v, ∀ e ∈ stdExp v, 0 ≤ e)

include ht hn hexp

/-- A result is returned unless there is no exponential, and without a retry. -/
theorem open_sigmoidBody_computes
    (retry : Share n FixedPoint → FixedPoint → Supply (Share n FixedPoint))
    (x_s : Share n FixedPoint) (a : FixedPoint) :
    Supply.Computes (open_sigmoidBody t draws stdExp retry x_s a)
      (openedExp stdExp (recons x_s * a)) fun r E =>
        |(toRat r : ℝ) - Real.sigmoid (recons x_s * a).getDoubleVal|
          ≤ 999 * n * ulp + sigmoidError E (recons x_s * a) := by
  set v := recons x_s * a with hv
  refine (Supply.Computes.ofOption _).bind_returns fun e E hE heE => ?_
  subst heE
  have he : 0 ≤ e.getDoubleVal := openedExp_nonneg (hexp _) hE
  refine .bind (P := fun E_s => toRat E_s = e.getDoubleVal)
    (.take fun k => Share.toRat_sharize e _) fun E_s hE_s => ?_
  have hdivisor : toRat (getConstantShare (ofInt 1) + E_s : Share n FixedPoint)
      = 1 + e.getDoubleVal := by
    rw [Share.toRat_add, hE_s, Share.toRat_of_secret secret_getConstantShare_one, Int.cast_one]
  have hne : Share.secret (getConstantShare (ofInt 1) + E_s : Share n FixedPoint) ≠ 0 := by
    rw [← Share.toRat_eq_zero_iff.ne, hdivisor]
    positivity
  refine .bind (P := fun ret => (∀ i, isinf (ret.value i) = false) ∧
    |(toRat ret : ℝ) - Real.sigmoid v.getDoubleVal| ≤ 999 * n * ulp + sigmoidError e v)
    (.take fun k => ⟨isinf_div_one (ht _) hn _ _ hne, ?_⟩) fun ret hret => ?_
  · have hquot := abs_toRat_div_one_sub_le (fun i : Fin 3 => t (k + i)) (draws.r k) (draws.sent k)
      hne
    rw [hdivisor] at hquot
    set q := Share.div (fun i : Fin 3 => t (k + i)) (draws.r k) (draws.sent k)
      (getConstantShare (ofInt 1)) (getConstantShare (ofInt 1) + E_s)
    have hreal : |(toRat q : ℝ) - 1 / (1 + (e.getDoubleVal : ℝ))| ≤ 999 * n * ulp := by
      exact_mod_cast hquot
    exact (abs_sub_le _ _ _).trans (add_le_add hreal le_rfl)
  · have hfinite : ¬∃ i, isinf (ret.value i) := by simp [hret.1]
    have hsome : ¬∀ i, isinf (ret.value i) := fun hall => hfinite ⟨Config.sp_id, hall _⟩
    rw [if_neg hsome, if_neg hfinite]
    exact .pure hret.2

theorem open_sigmoid_computes (retries : ℕ) (x_s : Share n FixedPoint) (a : FixedPoint) :
    Supply.Computes (open_sigmoid t draws stdExp retries x_s a)
      (openedExp stdExp (recons x_s * a)) fun r E =>
        |(toRat r : ℝ) - Real.sigmoid (recons x_s * a).getDoubleVal|
          ≤ 999 * n * ulp + sigmoidError E (recons x_s * a) := by
  cases retries with
  | zero => exact open_sigmoidBody_computes ht hn draws hexp _ x_s a
  | succ retries => exact open_sigmoidBody_computes ht hn draws hexp _ x_s a

/-- Without a factor. -/
theorem open_sigmoid_one_computes (retries : ℕ) (x_s : Share n FixedPoint) :
    Supply.Computes (open_sigmoid t draws stdExp retries x_s (ofInt 1))
      (openedExp stdExp (recons x_s)) fun r E =>
        |(toRat r : ℝ) - Real.sigmoid (toRat x_s)|
          ≤ 999 * n * ulp + sigmoidError E (recons x_s) := by
  have hone : recons x_s * ofInt 1 = recons x_s := by
    ext
    rw [FixedPoint.mul_ofInt_value, mul_one]
  have h := open_sigmoid_computes ht hn draws hexp retries x_s (ofInt 1)
  rwa [hone] at h

end Computes

end Math

end QuickMpc
