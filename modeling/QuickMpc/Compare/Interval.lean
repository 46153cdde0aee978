import QuickMpc.Compare.Comparison

/-!
# QuickMpc.Compare.Interval

`intervalTest(c1, [a], c2)`, the test `c1 < a < c2` against public bounds.

The code opens `c = a + r` and asks whether `r` lies in the image of the
interval, or outside the image of its complement when `c` itself lies in the
interval. The bounds of the image are computed modulo `p`, and one of them is
`p` itself when `c = c1` or `c = c2 - 1`. `PrimeField(PrimeField::p)` is stored
as `0`, so in these two cases the upper bound is `0`, nothing lies below it, and
the result no longer depends on `a` (`intervalTest_correct_iff`).
-/

namespace QuickMpc.Share

open PrimeField MsbBits

variable {n : ℕ}

/-- What `intervalTest` draws. -/
structure IntervalDraws (n : ℕ) where
  rbvs : Fin l → List (RbsDraw n)
  pftobsLow : Fin l → SharizeDraw n
  pftobsHigh : Fin l → SharizeDraw n
  low : BitwiseLessThanDraws n
  high : BitwiseLessThanDraws n
  triple : PrimeFieldTriple n

/-- `PrimeField(PrimeField::p)`: the constructor admits `p` and reduces it. -/
def ofP : PrimeField := ofNat p

variable [Config n]

/-- The two comparisons with the random vector, and their product. -/
def between (draws : IntervalDraws n) (r_low r_high : PrimeField)
    (r_shares : Fin l → Share n PrimeField) : Run (Share n PrimeField) := do
  let r_lows := PFtoBS r_low draws.pftobsLow
  let r_highs := PFtoBS r_high draws.pftobsHigh
  let low ← subBitwiseLessThan draws.low r_lows r_shares
  let high ← subBitwiseLessThan draws.high r_shares r_highs
  return mul draws.triple.toTriple low high

/-- `intervalTest`. -/
def intervalTest (draws : IntervalDraws n) (c1 : PrimeField) (a_share : Share n PrimeField)
    (c2 : PrimeField) : Run (Share n PrimeField) := do
  -- step 1
  let r_shares ← subRBVS draws.rbvs
  let r_share := BStoSC r_shares
  -- step 2
  let c := recons (a_share + r_share)
  -- steps 3 and 4
  if c1 < c ∧ c < c2 then
    let ret ← between draws (c - c1 - ofNat 1) (c + ofP - c2 + ofNat 1) r_shares
    return ofNat 1 - ret
  else if c2 ≤ c then
    between draws (c - c2) (c - c1) r_shares
  else if c ≤ c1 then
    between draws (c + ofP - c2) (c + ofP - c1) r_shares
  else
    -- the bounds keep their default value
    between draws 0 0 r_shares

theorem between_spec (hn : n < p) (draws : IntervalDraws n) (r_low r_high : PrimeField)
    {r_shares : Fin l → Share n PrimeField} {x : Fin l → Bool}
    (hx : ∀ i, IsBit (r_shares i) (x i)) :
    ∃ ret, between draws r_low r_high r_shares = .ok ret ∧
      IsBit ret (decide (r_low.value < MsbBits.value x ∧ MsbBits.value x < r_high.value)) := by
  have hbits : ∀ y : PrimeField, MsbBits.value (bitsOf l y.value) = y.value := fun y =>
    value_bitsOf_of_lt (y.le_p.trans_lt p_lt_two_pow)
  obtain ⟨low, hlow, hlowbit⟩ :=
    subBitwiseLessThan_spec hn draws.low (secret_PFtoBS r_low draws.pftobsLow) hx
  obtain ⟨high, hhigh, hhighbit⟩ :=
    subBitwiseLessThan_spec hn draws.high hx (secret_PFtoBS r_high draws.pftobsHigh)
  refine ⟨_, by simp only [between, hlow, hhigh, bind, Except.bind]; rfl, ?_⟩
  rw [IsBit, secret_mul, hlowbit, hhighbit, hbits, hbits, ← bit_and, Bool.decide_and]

/-! ### What the code decides -/

/-- The result of `intervalTest`, from the secret and the random number. -/
def intervalOutcome (c1 c2 a r : ℕ) : Bool :=
  let c := (a + r) % p
  if c1 < c ∧ c < c2 then
    if c + 1 = c2 then true else !decide (c - c1 ≤ r ∧ r ≤ c + p - c2)
  else if c2 ≤ c then decide (c - c2 < r ∧ r < c - c1)
  else if c = c1 then false else decide (c + p - c2 < r ∧ r < c + p - c1)

theorem sub_value_of_le {x : PrimeField} (hx : x.value < p) {k : ℕ} (hk : k ≤ x.value) :
    (x - ofNat k).value = x.value - k := by
  rw [sub_value, ofNat_value_of_lt (by omega),
    show x.value + (p - k) = x.value - k + p by omega, Nat.add_mod_right, Nat.mod_eq_of_lt (by omega)]

theorem sub_value_of_lt {x : PrimeField} {k : ℕ} (hkp : k < p) (hk : x.value < k) :
    (x - ofNat k).value = x.value + p - k := by
  rw [sub_value, ofNat_value_of_lt hkp, Nat.mod_eq_of_lt (by omega)]
  omega

theorem add_ofP_eq {x : PrimeField} (hx : x.value < p) : x + ofP = x := by
  ext
  rw [add_value, ofP, ofNat_value, Nat.mod_self, Nat.add_zero, Nat.mod_eq_of_lt hx]

/-- The upper bound of the first branch: `p` is stored as `0`. -/
theorem r_high_value {c : PrimeField} {c2 : ℕ} (hc : c.value < p) (hc2 : c2 < p)
    (h : c.value < c2) :
    (c + ofP - ofNat c2 + ofNat 1).value
      = if c.value + 1 = c2 then 0 else c.value + p - c2 + 1 := by
  rw [add_value, add_ofP_eq hc, sub_value_of_lt hc2 h, ofNat_value_of_lt (by norm_num [p])]
  split
  · rw [show c.value + p - c2 + 1 = p by omega, Nat.mod_self]
  · exact Nat.mod_eq_of_lt (by omega)

/-- The lower bound of the first branch. -/
theorem r_low_value {c : PrimeField} {c1 : ℕ} (hc : c.value < p) (h : c1 < c.value) :
    (c - ofNat c1 - ofNat 1).value = c.value - c1 - 1 := by
  have hsub := sub_value_of_le hc h.le
  rw [sub_value_of_le (by omega) (by omega), hsub]

/-- The upper bound of the third branch: `p` is stored as `0` again. -/
theorem r_high_value' {c : PrimeField} {c1 : ℕ} (hc : c.value < p) (hc1 : c1 < p)
    (h : c.value ≤ c1) :
    (c + ofP - ofNat c1).value = if c.value = c1 then 0 else c.value + p - c1 := by
  rw [add_ofP_eq hc]
  split
  · rename_i heq
    rw [sub_value_of_le hc heq.ge, heq, Nat.sub_self]
  · exact sub_value_of_lt hc1 (by omega)

/-- The result of `intervalTest`, computed. -/
theorem intervalTest_spec (hn : n < p) (draws : IntervalDraws n) {c1 c2 : ℕ} (h12 : c1 < c2)
    (hc2 : c2 < p) {r_shares : Fin l → Share n PrimeField}
    (hrbvs : subRBVS draws.rbvs = .ok r_shares) (hr : reconsBits r_shares < p)
    (a_share : Share n PrimeField) :
    ∃ ret, intervalTest draws (ofNat c1) a_share (ofNat c2) = .ok ret ∧
      IsBit ret (intervalOutcome c1 c2 (recons a_share).value (reconsBits r_shares)) := by
  obtain ⟨x, hx, hrx⟩ := subRBVS_bits hrbvs
  set c := recons (a_share + BStoSC r_shares) with hcdef
  have hval : c.value = ((recons a_share).value + reconsBits r_shares) % p := by
    rw [hcdef, recons_value, secret_add, secret_BStoSC hx, ZMod.val_add, ZMod.val_natCast, ← hrx,
      Nat.mod_eq_of_lt hr, recons_value]
  have hc : c.value < p := recons_value_lt _
  have hlt1 : ofNat c1 < c ↔ c1 < c.value := by
    rw [lt_iff, ofNat_value_of_lt (h12.trans hc2)]
  have hlt2 : c < ofNat c2 ↔ c.value < c2 := by
    rw [lt_iff, ofNat_value_of_lt hc2]
  have hle1 : c ≤ ofNat c1 ↔ c.value ≤ c1 := by
    rw [le_iff, ofNat_value_of_lt (h12.trans hc2)]
  have hle2 : ofNat c2 ≤ c ↔ c2 ≤ c.value := by
    rw [le_iff, ofNat_value_of_lt hc2]
  have hrun : intervalTest draws (ofNat c1) a_share (ofNat c2)
      = if c1 < c.value ∧ c.value < c2 then
          (between draws (c - ofNat c1 - ofNat 1) (c + ofP - ofNat c2 + ofNat 1) r_shares).map
            fun ret : Share n PrimeField => (ofNat 1 - ret : Share n PrimeField)
        else if c2 ≤ c.value then between draws (c - ofNat c2) (c - ofNat c1) r_shares
        else if c.value ≤ c1 then
          between draws (c + ofP - ofNat c2) (c + ofP - ofNat c1) r_shares
        else between draws 0 0 r_shares := by
    simp only [intervalTest, hrbvs, ← hcdef, bind, Except.bind, hlt1, hlt2, hle1, hle2]
    rfl
  rw [hrun]
  unfold intervalOutcome
  rw [← hval, hrx]
  by_cases hmid : c1 < c.value ∧ c.value < c2
  · obtain ⟨ret, hok, hbit⟩ := between_spec hn draws (c - ofNat c1 - ofNat 1)
      (c + ofP - ofNat c2 + ofNat 1) hx
    rw [r_low_value hc hmid.1, r_high_value hc hc2 hmid.2] at hbit
    rw [if_pos hmid, if_pos hmid, hok]
    refine ⟨ofNat 1 - ret, rfl, ?_⟩
    rw [IsBit, secret_value_sub, denote_eq_toZMod, toZMod_ofNat, Nat.cast_one, hbit, ← bit_not]
    by_cases hedge : c.value + 1 = c2
    · rw [if_pos hedge, if_pos hedge, decide_eq_false (by omega)]
      rfl
    · rw [if_neg hedge, if_neg hedge]
      congr 2
      rw [decide_eq_decide]
      omega
  · rw [if_neg hmid, if_neg hmid]
    by_cases hhi : c2 ≤ c.value
    · rw [if_pos hhi, if_pos hhi]
      have h := between_spec hn draws (c - ofNat c2) (c - ofNat c1) hx
      rw [sub_value_of_le hc hhi, sub_value_of_le hc (by omega)] at h
      exact h
    · have hlo : c.value ≤ c1 := by omega
      rw [if_neg hhi, if_neg hhi, if_pos hlo]
      obtain ⟨ret, hok, hbit⟩ := between_spec hn draws (c + ofP - ofNat c2)
        (c + ofP - ofNat c1) hx
      rw [r_high_value' hc (h12.trans hc2) hlo, add_ofP_eq hc,
        sub_value_of_lt hc2 (by omega)] at hbit
      refine ⟨ret, hok, ?_⟩
      by_cases hedge : c.value = c1
      · rw [if_pos hedge, decide_eq_false (by omega)] at hbit
        rwa [if_pos hedge]
      · rw [if_neg hedge] at hbit
        rwa [if_neg hedge]

/-- The computed result is the right one except where an upper bound wraps. -/
theorem intervalOutcome_eq_iff {c1 c2 a r : ℕ} (h12 : c1 < c2) (hc2 : c2 < p) (ha : a < p)
    (hr : r < p) :
    intervalOutcome c1 c2 a r = decide (c1 < a ∧ a < c2) ↔
      ¬ ((a + r) % p = c1 ∧ c1 < a ∧ a < c2) ∧
      ¬ ((a + r) % p = c2 - 1 ∧ c1 + 1 < c2 ∧ ¬ (c1 < a ∧ a < c2)) := by
  have hsum : a + r < 3 * p := by omega
  unfold intervalOutcome
  dsimp only
  rw [Bool.eq_iff_iff]
  rcases mod_cases hsum with ⟨h, hmod⟩ | ⟨h, h', hmod⟩ | ⟨h, hmod⟩
  · rw [hmod]
    split_ifs <;> simp only [Bool.not_eq_true', decide_eq_true_iff, decide_eq_false_iff_not,
      true_iff, false_iff] <;> omega
  · rw [hmod]
    split_ifs <;> simp only [Bool.not_eq_true', decide_eq_true_iff, decide_eq_false_iff_not,
      true_iff, false_iff] <;> omega
  · omega

theorem ofNat_toNat_injective {b b' : Bool} (h : ofNat b.toNat = ofNat b'.toNat) : b = b' := by
  have hlt : ∀ b : Bool, b.toNat < p := fun b => b.toNat_le.trans_lt (by norm_num [p])
  have hval := congrArg PrimeField.value h
  rw [ofNat_value_of_lt (hlt b), ofNat_value_of_lt (hlt b')] at hval
  cases b <;> cases b' <;> first | rfl | exact absurd hval (by decide)

/-- **When `intervalTest` is right.** It returns the flag of `c1 < a < c2`
unless the opened value `a + r` is `c1` while `a` lies in the interval, or
`c2 - 1` while it does not. -/
theorem intervalTest_correct_iff (hn : n < p) {c1 c2 a : ℕ} (h12 : c1 < c2) (hc2 : c2 < p)
    (ha : a < p) {a_share : Share n PrimeField} (hra : recons a_share = ofNat a)
    (draws : IntervalDraws n) {r_shares : Fin l → Share n PrimeField}
    (hrbvs : subRBVS draws.rbvs = .ok r_shares) (hr : reconsBits r_shares < p) :
    (∃ ret, intervalTest draws (ofNat c1) a_share (ofNat c2) = .ok ret ∧
        recons ret = ofNat (if c1 < a ∧ a < c2 then 1 else 0)) ↔
      ¬ ((a + reconsBits r_shares) % p = c1 ∧ c1 < a ∧ a < c2) ∧
      ¬ ((a + reconsBits r_shares) % p = c2 - 1 ∧ c1 + 1 < c2 ∧ ¬ (c1 < a ∧ a < c2)) := by
  obtain ⟨ret, hok, hbit⟩ := intervalTest_spec hn draws h12 hc2 hrbvs hr a_share
  rw [hra, ofNat_value_of_lt ha] at hbit
  rw [← intervalOutcome_eq_iff h12 hc2 ha hr, hok]
  rw [ite_eq_toNat]
  constructor
  · intro h'
    obtain ⟨ret', hret', hrec⟩ := h'
    obtain rfl : ret = ret' := Except.ok.inj hret'
    rw [hbit.recons_eq] at hrec
    exact ofNat_toNat_injective hrec
  · intro h
    exact ⟨ret, rfl, by rw [hbit.recons_eq, h]⟩

/-- What `intervalTest` draws in a run in which every mask is `1` and the random
bits spell `r`. -/
def IntervalDraws.ones (r : ℕ) : IntervalDraws n where
  rbvs := spelling r
  pftobsLow _ := ⟨ofNat 1, fun _ => ofNat 1⟩
  pftobsHigh _ := ⟨ofNat 1, fun _ => ofNat 1⟩
  low := .ones
  high := .ones
  triple := .constant n

/-- `5` in the interval from `3` to `9`, with `c = 12`. -/
theorem intervalTest_correct_iff_three :
    ∃ r_shares, @subRBVS 3 threeParties (@IntervalDraws.ones 3 threeParties 7).rbvs = .ok r_shares ∧
      ((∃ ret, @intervalTest 3 threeParties (@IntervalDraws.ones 3 threeParties 7) (ofNat 3)
            ⟨![ofNat (p - 1), ofNat 2, ofNat 4]⟩ (ofNat 9) = .ok ret ∧
          recons ret = ofNat (if 3 < 5 ∧ 5 < 9 then 1 else 0)) ↔
        ¬ ((5 + reconsBits r_shares) % p = 3 ∧ 3 < 5 ∧ 5 < 9) ∧
        ¬ ((5 + reconsBits r_shares) % p = 9 - 1 ∧ 3 + 1 < 9 ∧ ¬ (3 < 5 ∧ 5 < 9))) := by
  obtain ⟨r_shares, hok, hbits⟩ := @subRBVS_spelling 3 threeParties 7 (by norm_num [l])
  exact ⟨r_shares, hok, @intervalTest_correct_iff 3 threeParties (by norm_num [p]) 3 9 5
    (by norm_num) (by norm_num [p]) (by norm_num [p]) _ (by decide +kernel) _ _ hok
    (by rw [hbits]; norm_num [p])⟩

/-- With `a = c1 = 0`, `c2 = 2` and `r = 1` the opened value is `c2 - 1`, and
the code returns `1` although `a` is not above `c1`. -/
theorem intervalTest_bound_wraps :
    @BelowP 3 threeParties (@IntervalDraws.ones 3 threeParties 1).rbvs ∧
    recons (⟨![ofNat (p - 8), ofNat 3, ofNat 5]⟩ : Share 3 PrimeField) = ofNat 0 ∧
    ∃ ret, @intervalTest 3 threeParties (@IntervalDraws.ones 3 threeParties 1) (ofNat 0)
        ⟨![ofNat (p - 8), ofNat 3, ofNat 5]⟩ (ofNat 2) = .ok ret ∧
      recons ret ≠ ofNat (if 0 < 0 ∧ 0 < 2 then 1 else 0) := by
  let _ := threeParties
  have hzero : recons (⟨![ofNat (p - 8), ofNat 3, ofNat 5]⟩ : Share 3 PrimeField) = ofNat 0 := by
    decide +kernel
  obtain ⟨r_shares, hok, hbits⟩ := @subRBVS_spelling 3 threeParties 1 (by norm_num [l])
  have hbelow : reconsBits r_shares < p := by
    rw [hbits]
    norm_num [p]
  obtain ⟨ret, hret, hbit⟩ := @intervalTest_spec 3 threeParties (by norm_num [p])
    (IntervalDraws.ones 1) 0 2 (by norm_num) (by norm_num [p]) r_shares hok hbelow
    ⟨![ofNat (p - 8), ofNat 3, ofNat 5]⟩
  have hone : intervalOutcome 0 2 0 1 = true := by decide +kernel
  rw [hzero, hbits, ofNat_value_of_lt p_pos, hone] at hbit
  refine ⟨⟨r_shares, hok, hbelow⟩, hzero, ret, hret, ?_⟩
  rw [hbit.recons_eq]
  decide +kernel

end QuickMpc.Share
