import QuickMpc.Compare.Comparison

/-!
# QuickMpc.Compare.Equality

`equalityTest`. The code opens `c = a - b + r` for a random `r` shared bit by
bit. The two secrets are equal exactly when `c` is `r`, i.e. when all `l` bits of
the opened value are those of `r`; a share of "the bits at index `i` agree" is
`r_i` itself where the bit of `c` is set and `1 - r_i` where it is clear, and the
conjunction of these is computed by `subUnboundedFanInAnd`.
-/

namespace QuickMpc.Share

open PrimeField MsbBits

variable {n : ℕ}

/-- What `equalityTest` draws. -/
structure EqualityDraws (n : ℕ) where
  rbvs : Fin l → List (RbsDraw n)
  fanIn : FanInDraws n

variable [Config n]

/-- **`subUnboundedFanInAnd`** computes the conjunction of its inputs. -/
theorem subUnboundedFanInAnd_spec (hn : n < p) (draws : FanInDraws n)
    {a_shares : Fin l → Share n PrimeField} {x : Fin l → Bool} (h : ∀ i, IsBit (a_shares i) (x i)) :
    ∃ ans, subUnboundedFanInAnd draws a_shares = .ok ans ∧
      IsBit ans (decide (∀ i, x i = true)) := by
  have hall : decide (count x = 64) = decide (∀ i, x i = true) := by
    rw [decide_eq_decide, ← count_eq_card_iff, Fintype.card_fin]
    rfl
  rw [← hall]
  exact subUnboundedFanIn_bit hn rfl f_65_and_coefficient_eval draws h

/-- `c_dash_shares`: the loop shifts `c.getVal()` from the last index on, so that
`x` at index `i` is the value shifted by `l - 1 - i`. -/
def c_dash_shares (c : PrimeField) (r_shares : Fin l → Share n PrimeField) :
    Fin l → Share n PrimeField :=
  fun i =>
    let x := c.value / 2 ^ (l - 1 - i)
    if x % 2 = 1 then r_shares i else ofNat 1 - r_shares i

/-- `equalityTest`. -/
def equalityTest (draws : EqualityDraws n) (a_share b_share : Share n PrimeField) :
    Run (Share n PrimeField) := do
  -- step 1
  let r_shares ← subRBVS draws.rbvs
  let r_share := BStoSC r_shares
  -- step 2
  let c := recons (a_share - b_share + r_share)
  -- steps 3 and 4
  subUnboundedFanInAnd draws.fanIn (c_dash_shares c r_shares)

/-- The share at an index tells whether the two bits there agree. -/
theorem c_dash_shares_bit (c : PrimeField) {r_shares : Fin l → Share n PrimeField}
    {x : Fin l → Bool} (hx : ∀ i, IsBit (r_shares i) (x i)) (i : Fin l) :
    IsBit (c_dash_shares c r_shares i) (x i == bitsOf l c.value i) := by
  have hrev : i.rev.val = l - 1 - i := by rw [Fin.val_rev]; omega
  have hset : c.value / 2 ^ (l - 1 - i) % 2 = 1 ↔ bitsOf l c.value i = true := by
    rw [bitsOf, hrev, Nat.testBit_eq_decide_div_mod_eq, decide_eq_true_iff]
  rw [IsBit, c_dash_shares]
  cases hbit : bitsOf l c.value i with
  | true => rw [if_pos (hset.mpr hbit), hx i, beq_true]
  | false =>
      have hclear : ¬ c.value / 2 ^ (l - 1 - i) % 2 = 1 := by
        rw [hset, hbit]
        exact Bool.false_ne_true
      rw [if_neg hclear, secret_value_sub, denote_eq_toZMod, toZMod_ofNat, hx i, beq_false, bit_not,
        Nat.cast_one]

/-- The bit vector of a number below `2 ^ l` determines it. -/
theorem forall_beq_bitsOf_iff (x : Fin l → Bool) {c : ℕ} (hc : c < 2 ^ l) :
    (∀ i, (x i == bitsOf l c i) = true) ↔ MsbBits.value x = c := by
  constructor
  · intro h
    have hx : x = bitsOf l c := funext fun i => eq_of_beq (h i)
    rw [hx, value_bitsOf_of_lt hc]
  · intro h i
    rw [beq_iff_eq, bitsOf, ← h, testBit_value]

/-- The result of `equalityTest`, from the secrets. -/
theorem equalityTest_spec (hn : n < p) (draws : EqualityDraws n) (hdraws : BelowP draws.rbvs)
    (a_share b_share : Share n PrimeField) :
    ∃ ret, equalityTest draws a_share b_share = .ok ret ∧
      IsBit ret (decide (secret a_share = secret b_share)) := by
  obtain ⟨r_shares, hrbvs, hrp⟩ := hdraws
  obtain ⟨x, hx, hr⟩ := subRBVS_bits hrbvs
  rw [hr] at hrp
  set c := recons (a_share - b_share + BStoSC r_shares) with hc
  have hval : c.value = (secret a_share - secret b_share + (MsbBits.value x : ZMod p)).val := by
    rw [hc, recons_value, secret_add, secret_sub, secret_BStoSC hx]
  have heq : MsbBits.value x = c.value ↔ secret a_share = secret b_share := by
    rw [hval, ← ZMod.val_cast_of_lt hrp, (ZMod.val_injective p).eq_iff, ZMod.val_cast_of_lt hrp,
      right_eq_add, sub_eq_zero]
  obtain ⟨ret, hok, hbit⟩ := subUnboundedFanInAnd_spec hn draws.fanIn (c_dash_shares_bit c hx)
  have hlt : c.value < 2 ^ l := (recons_value_lt _).trans p_lt_two_pow
  refine ⟨ret, by simp only [equalityTest, hrbvs, ← hc, bind, Except.bind]; exact hok, ?_⟩
  rwa [decide_eq_decide.mpr ((forall_beq_bitsOf_iff x hlt).trans heq)] at hbit

/-! ### Correctness -/

/-- **`equalityTest` decides equality on the whole field.** For any number of parties below `p`
and any sharing, it returns a share of `1` when the two numbers are the same and of `0`
otherwise, also where the mask makes the sum that is opened wrap around. -/
theorem equalityTest_correct (hn : n < p) {a b : ℕ} (ha : a < p) (hb : b < p)
    {a_share b_share : Share n PrimeField} (hra : recons a_share = ofNat a)
    (hrb : recons b_share = ofNat b) (draws : EqualityDraws n) (hdraws : BelowP draws.rbvs) :
    ∃ ret, equalityTest draws a_share b_share = .ok ret ∧
      recons ret = ofNat (if a = b then 1 else 0) := by
  obtain ⟨ret, hok, hbit⟩ := equalityTest_spec hn draws hdraws a_share b_share
  have hsame : secret a_share = secret b_share ↔ a = b := by
    rw [← (ZMod.val_injective p).eq_iff, secret_val_of_recons ha hra, secret_val_of_recons hb hrb]
  refine ⟨ret, hok, ?_⟩
  rw [hbit.recons_eq, decide_eq_decide.mpr hsame, ite_eq_toNat]

def EqualityDraws.ones (r : ℕ) : EqualityDraws n where
  rbvs := spelling r
  fanIn := .ones

/-- `p - 3 = (p - 1) + (p - 1) + (p - 1)` and `p - 3 = 1 + (p - 5) + 1`, masked by
`p - 1`: the sum wraps around. -/
theorem equalityTest_correct_three :
    ∃ ret, @equalityTest 3 threeParties (@EqualityDraws.ones 3 threeParties (p - 1))
        ⟨![ofNat (p - 1), ofNat (p - 1), ofNat (p - 1)]⟩
        ⟨![ofNat 1, ofNat (p - 5), ofNat 1]⟩ = .ok ret ∧
      recons ret = ofNat 1 :=
  @equalityTest_correct 3 threeParties (by norm_num [p]) (p - 3) (p - 3) (by norm_num [p])
    (by norm_num [p]) _ _ (by decide +kernel) (by decide +kernel) _
    (@belowP_spelling 3 threeParties _ (by norm_num [p]))

end QuickMpc.Share
