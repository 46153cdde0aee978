import QuickMpc.Multiplication

/-!
# QuickMpc.BitExtraction

Bits of fixed-point shares: `getRandBitShare` and `getLSBShare`.

A fixed-point random bit is only approximately `0` or `1`: the drawn number `r`
is divided by its absolute value, and both the inverse `1 / |r|` and the halving
at every party are rounded. For three parties the error is at most `1501` units,
and at most `2` units lead out of `[0, 1]` (`ApproxBit`). `getLSBShare` adds that
bit and an even mask to `y`, opens the sum and rounds it, so it decides which
whole number `M` it takes `y` for, and returns the parity of that number up to the
same error (`lsb_spec`, `getLSBShare_spec`).

All statements are about stored integers, in units of `10^-8` (`shift` units
make `1`).
-/

namespace QuickMpc.Share

open FixedPoint (shift ofInt ofDouble stdRound)

variable {n : ℕ}

/-! ### Local rounding

Every party rounds its own summand, so a rounded quotient of a share is off by
at most one unit for each party. -/

theorem two_mul_abs_le_iff {x c : ℤ} : 2 * |x| ≤ c ↔ -c ≤ 2 * x ∧ 2 * x ≤ c := by
  rw [← abs_le, abs_mul, abs_two]

theorem abs_two_mul_secret_half_le (x : Share n FixedPoint) :
    |2 * secret (x * ofDouble (1 / 2)) - secret x| ≤ n := by
  have h := TruncDiv.abs_mul_sum_tdiv_sub_le two_pos fun i => (x.value i).value
  have hsum : secret (x * ofDouble (1 / 2)) = ∑ i, (x.value i).value.tdiv 2 := by
    rw [secret_eq_sum]
    exact Finset.sum_congr rfl fun i _ => FixedPoint.mul_half_value (x.value i)
  rw [← hsum, ← secret_eq_sum, Fintype.card_fin] at h
  simpa using h

theorem abs_mul_secret_div_le [Multiprecision] {c : ℤ} (hc : 0 < c) (x : Share n FixedPoint) :
    |c * secret (x / ofInt c) - secret x| ≤ n * c := by
  have hsplit : c * secret (x / ofInt c) - secret x
      = ∑ i, (c * (x.value i / ofInt c).value - (x.value i).value) := by
    rw [secret_eq_sum, secret_eq_sum, Finset.mul_sum, ← Finset.sum_sub_distrib]
    rfl
  calc |c * secret (x / ofInt c) - secret x|
      ≤ ∑ i, |c * (x.value i / ofInt c).value - (x.value i).value| := by
        rw [hsplit]
        exact Finset.abs_sum_le_sum_abs _ _
    _ ≤ ∑ _i : Fin n, c := by
        refine Finset.sum_le_sum fun i _ => ?_
        have hterm := FixedPoint.abs_sub_mul_div_ofInt_le hc.ne' (x.value i)
        rwa [abs_sub_comm, abs_of_pos hc] at hterm
    _ = n * c := by rw [Finset.sum_const, Finset.card_univ, Fintype.card_fin, nsmul_eq_mul]

/-! ### `getRandBitShare` -/

/-- One turn of the loop of `getRandBitShare`: every party draws a whole number
from `[-1000, 1000)`, and a triple is used for the square. -/
structure RandBitDraw (n : ℕ) where
  r : Fin n → ℤ
  range : ∀ i, -1000 ≤ r i ∧ r i < 1000
  triple : BtsTriple n

/-- The draws of one call, the last of which does not share zero. -/
structure RandBitDraws (n : ℕ) where
  draws : List (RandBitDraw n)
  accepted : ∃ draw ∈ draws, ∑ i, draw.r i ≠ 0

/-- A share of the whole numbers `k`, one for every party. -/
def ofInts (k : Fin n → ℤ) : Share n FixedPoint := ⟨fun i => ofInt (k i)⟩

@[simp] theorem secret_ofInts (k : Fin n → ℤ) : secret (ofInts k) = shift * ∑ i, k i :=
  secret_ofInt k

variable [Config n]

/-- `getRandBitShare`. -/
def getRandBitShare [Multiprecision] : List (RandBitDraw n) → Run (Share n FixedPoint)
  | [] => .error .outOfDraws
  | draw :: draws =>
    let r := ofInts draw.r
    let square_r_rec := recons (mul draw.triple.convertStr2Triple r r)
    if square_r_rec.getDoubleVal ≠ 0 then
      let r_dash := FixedPoint.sqrt square_r_rec
      let inv_r_dash := ofDouble 1 / r_dash
      .ok (ofDouble (1 / 2) * (inv_r_dash * r + ofDouble 1))
    else getRandBitShare draws

/-- Whole numbers multiply exactly. -/
theorem secret_mul_ofInts (t : BtsTriple n) (k k' : Fin n → ℤ) :
    secret (mul t.convertStr2Triple (ofInts k) (ofInts k')) = shift * ((∑ i, k i) * ∑ i, k' i) := by
  obtain ⟨d, e, hd, he, hsecret⟩ := secret_mul_bts t (ofInts k) (ofInts k')
  rw [secret_ofInts, ← mul_sub] at hd he
  have hde : (d * e).value = shift * (((∑ i, k i) - ∑ i, t.a i) * ((∑ i, k' i) - ∑ i, t.b i)) := by
    rw [FixedPoint.mul_value, hd, he, show ∀ a b : ℤ, shift * a * (shift * b)
      = shift * (a * b) * shift from fun a b => by ring,
      Int.mul_tdiv_cancel _ FixedPoint.shift_pos.ne']
  rw [hsecret, hde, hd, he, ← t.valid]
  ring

/-- The loop ends at the first draw that does not share zero. -/
theorem getRandBitShare_eq [Multiprecision] : ∀ draws : List (RandBitDraw n),
    (∃ draw ∈ draws, ∑ i, draw.r i ≠ 0) →
      ∃ draw ∈ draws, ∑ i, draw.r i ≠ 0 ∧ getRandBitShare draws
        = .ok (ofDouble (1 / 2) * (ofDouble 1 / ofInt |∑ i, draw.r i| * ofInts draw.r + ofDouble 1))
  | [], h => by simp at h
  | draw :: draws, h => by
      have hsquare : (recons (mul draw.triple.convertStr2Triple (ofInts draw.r)
          (ofInts draw.r))).value = shift * ((∑ i, draw.r i) * ∑ i, draw.r i) := by
        rw [recons_value_fixedPoint, secret_mul_ofInts]
      have hzero : (recons (mul draw.triple.convertStr2Triple (ofInts draw.r)
          (ofInts draw.r))).getDoubleVal = 0 ↔ ∑ i, draw.r i = 0 := by
        rw [FixedPoint.getDoubleVal_eq_zero_iff, hsquare,
          mul_eq_zero_iff_left FixedPoint.shift_pos.ne', mul_self_eq_zero]
      by_cases hdraw : ∑ i, draw.r i = 0
      · obtain ⟨draw', hmem, hne, hrun⟩ := getRandBitShare_eq draws (by
          obtain ⟨draw', hmem, hne⟩ := h
          rcases List.mem_cons.mp hmem with rfl | hmem
          · exact absurd hdraw hne
          · exact ⟨draw', hmem, hne⟩)
        refine ⟨draw', List.mem_cons_of_mem _ hmem, hne, ?_⟩
        rw [getRandBitShare]
        dsimp only
        rw [if_neg (not_not.mpr (hzero.mpr hdraw)), hrun]
      · refine ⟨draw, List.mem_cons_self, hdraw, ?_⟩
        have hroot : FixedPoint.sqrt (recons (mul draw.triple.convertStr2Triple (ofInts draw.r)
            (ofInts draw.r))) = ofInt |∑ i, draw.r i| := by
          ext
          exact FixedPoint.sqrt_value_of_square hsquare
        rw [getRandBitShare]
        dsimp only
        rw [if_pos (mt hzero.mp hdraw), hroot]

/-- The rounded inverse of a positive whole number, times that number. -/
theorem inv_mul_bounds [Multiprecision] {k : ℤ} (hk : 0 < k) :
    shift - k ≤ (ofDouble 1 / ofInt k).value * k ∧ (ofDouble 1 / ofInt k).value * k ≤ shift := by
  have hle := FixedPoint.abs_sub_mul_div_ofInt_le hk.ne' (ofDouble 1)
  have hnonneg := FixedPoint.sub_mul_div_ofInt_mul_nonneg k (ofDouble 1)
  rw [FixedPoint.ofDouble_one_value] at hle hnonneg
  have hlow := nonneg_of_mul_nonneg_left hnonneg FixedPoint.shift_pos
  rw [abs_of_nonneg hlow, abs_of_pos hk] at hle
  exact ⟨by linarith, by linarith⟩

/-- The bit `β`, up to the rounding: short of it by at most `1501` units, and beyond it by
at most `2`. -/
def ApproxBit (β x : ℤ) : Prop := -2 ≤ x ∧ x ≤ shift + 2 ∧ |x - β * shift| ≤ 1501

/-- **`getRandBitShare`** returns a bit up to `1501` units, for three parties. -/
theorem getRandBitShare_spec [Multiprecision] [Config 3] {draws : List (RandBitDraw 3)}
    (accepted : ∃ draw ∈ draws, ∑ i, draw.r i ≠ 0) :
    ∃ r0 : Share 3 FixedPoint, ∃ β : ℤ, getRandBitShare draws = .ok r0 ∧ (β = 0 ∨ β = 1) ∧
      ApproxBit β (secret r0) := by
  obtain ⟨draw, -, hne, hrun⟩ := getRandBitShare_eq _ accepted
  set ρ := ∑ i, draw.r i with hρ
  have hrange : -3000 ≤ ρ ∧ ρ ≤ 3000 := by
    have h0 := draw.range 0
    have h1 := draw.range 1
    have h2 := draw.range 2
    rw [hρ, Fin.sum_univ_three]
    omega
  set v : Share 3 FixedPoint := ofDouble 1 / ofInt |ρ| * ofInts draw.r + ofDouble 1 with hv
  have hsecret : secret v = (ofDouble 1 / ofInt |ρ|).value * ρ + shift := by
    rw [hv, secret_add_value, denote_eq_value, ofInts, secret_mul_ofInt_share,
      FixedPoint.ofDouble_one_value]
  have hhalf : |2 * secret (ofDouble (1 / 2) * v) - secret v| ≤ 3 := abs_two_mul_secret_half_le v
  obtain ⟨hlo, hhi⟩ := inv_mul_bounds (abs_pos.mpr hne)
  rw [hsecret] at hhalf
  refine ⟨_, if 0 < ρ then 1 else 0, hrun, ?_, ?_⟩
  · split <;> simp
  · have hbig : 3000 ≤ shift := by norm_num [shift]
    rw [ApproxBit]
    rw [abs_le] at hhalf ⊢
    rcases lt_or_gt_of_ne hne with hneg | hpos
    · rw [abs_of_neg hneg] at hlo hhi hhalf
      rw [if_neg (by omega)]
      refine ⟨?_, ?_, ?_, ?_⟩ <;> linarith
    · rw [abs_of_pos hpos] at hlo hhi hhalf
      rw [if_pos hpos]
      refine ⟨?_, ?_, ?_, ?_⟩ <;> linarith

/-! ### `getLSBShare` -/

/-- What `getLSBShare` draws: the random bit, and a whole number from
`[1, 1000)` at every party. -/
structure LSBDraws (n : ℕ) where
  bit : RandBitDraws n
  r_dash : Fin n → ℤ
  range : ∀ i, 1 ≤ r_dash i ∧ r_dash i < 1000

/-- `getLSBShare`. -/
def getLSBShare [Multiprecision] (draws : LSBDraws n) (y : Share n FixedPoint) : Run
    (Share n FixedPoint) := do
  let r0 ← getRandBitShare draws.bit.draws
  let r_dash := ofInts draws.r_dash
  let t := y + r0 + ofInt 2 * r_dash
  let c := recons t
  let c := ofDouble (stdRound c.getDoubleVal) % ofInt 2
  return c + r0 - ofInt 2 * c * r0

omit [Config n] in
/-- The opened value, rounded: a whole number `C` within half a unit, of which
the code keeps the parity. A value just below zero is rounded to zero. -/
theorem opened_parity {t : Share n FixedPoint} (ht : -shift < 2 * secret t) :
    ∃ C : ℤ, 2 * |C * shift - secret t| ≤ shift ∧
      ofDouble (stdRound (recons t).getDoubleVal) % ofInt 2 = ofInt (C % 2) := by
  have hnonneg : 0 ≤ stdRound (recons t).getDoubleVal :=
    FixedPoint.stdRound_nonneg
      (FixedPoint.neg_half_lt_getDoubleVal (by rwa [recons_value_fixedPoint]))
  refine ⟨stdRound (recons t).getDoubleVal, ?_, ?_⟩
  · rw [← recons_value_fixedPoint]
    exact FixedPoint.abs_stdRound_mul_shift_sub_le _
  · ext
    rw [FixedPoint.ofDouble_intCast, FixedPoint.ofInt_mod_two_value hnonneg, FixedPoint.ofInt_value]

/-- The final combination `c + r0 - 2 c r0` is exact: it keeps the random bit
or replaces it by its complement. -/
theorem secret_flip (c : ℤ) (r0 : Share n FixedPoint) :
    secret (ofInt c + r0 - ofInt 2 * ofInt c * r0) = c * shift + secret r0 - 2 * c * secret r0 := by
  have htwo : ofInt 2 * ofInt c = ofInt (2 * c) := by
    ext
    rw [FixedPoint.ofInt_mul_value, FixedPoint.ofInt_value, FixedPoint.ofInt_value]
    ring
  have hmul : secret (ofInt (2 * c) * r0) = secret r0 * (2 * c) := secret_mul_ofInt r0 (2 * c)
  rw [secret_sub, secret_value_add, htwo, hmul, denote_eq_value, FixedPoint.ofInt_value]
  ring

/-- The parity that is left of the opened value `t`, when the random bit is taken off. -/
theorem lsb_spec [Config 3] {t y r0 : Share 3 FixedPoint} {β R : ℤ} (hβ : β = 0 ∨ β = 1)
    (hr0 : ApproxBit β (secret r0)) (ht : secret t = secret y + secret r0 + 2 * (shift * R))
    (hpos : -shift < 2 * secret t) :
    ∃ M : ℤ, 2 * |secret y - M * shift| ≤ shift + 3002 ∧
      ApproxBit (M % 2) (secret (ofDouble (stdRound (recons t).getDoubleVal) % ofInt 2 + r0
        - ofInt 2 * (ofDouble (stdRound (recons t).getDoubleVal) % ofInt 2) * r0)) := by
  obtain ⟨hlow, hhigh, herr⟩ := hr0
  rw [abs_le] at herr
  obtain ⟨C, hC, hparity⟩ := opened_parity hpos
  rw [two_mul_abs_le_iff, ht] at hC
  refine ⟨C - β - 2 * R, ?_, ?_⟩
  · rw [two_mul_abs_le_iff]
    simp only [shift] at *
    rcases hβ with rfl | rfl <;> omega
  · rw [hparity, secret_flip, ApproxBit, abs_le]
    simp only [shift] at *
    rcases Int.emod_two_eq_zero_or_one C with hpar | hpar <;> rcases hβ with rfl | rfl <;>
      rw [hpar] <;> omega

/-- **`getLSBShare`** takes `y` for a whole number `M` near it, and returns the
parity of `M` up to `1501` units. -/
theorem getLSBShare_spec [Multiprecision] [Config 3] (draws : LSBDraws 3) {y : Share 3 FixedPoint}
    (hy : -(5 * shift) ≤ secret y) :
    ∃ b : Share 3 FixedPoint, ∃ M : ℤ, getLSBShare draws y = .ok b ∧
      2 * |secret y - M * shift| ≤ shift + 3002 ∧ |secret b - M % 2 * shift| ≤ 1501 := by
  obtain ⟨r0, β, hr0, hβ, hbit⟩ := getRandBitShare_spec draws.bit.accepted
  set R := ∑ i, draws.r_dash i with hR
  have hR3 : 3 ≤ R := by
    have h0 := draws.range 0
    have h1 := draws.range 1
    have h2 := draws.range 2
    rw [hR, Fin.sum_univ_three]
    omega
  set t : Share 3 FixedPoint := y + r0 + ofInt 2 * ofInts draws.r_dash with ht
  have hsecret : secret t = secret y + secret r0 + 2 * (shift * R) := by
    have htwo : secret (ofInt 2 * ofInts draws.r_dash) = secret (ofInts draws.r_dash) * 2 :=
      secret_mul_ofInt _ 2
    rw [ht, secret_add, secret_add, htwo, secret_ofInts]
    ring
  have hpos : -shift < 2 * secret t := by
    have hlow := hbit.1
    rw [hsecret]
    simp only [shift] at *
    omega
  obtain ⟨M, hM, hparity⟩ := lsb_spec hβ hbit hsecret hpos
  exact ⟨_, M, Except.bind_ok hr0 _, hM, hparity.2.2⟩

end QuickMpc.Share
