import QuickMpc.Compare.Equality

/-!
# QuickMpc.Compare.Subprotocols

The subprotocols of the comparisons, each as a caller sees it: what goes in and
what comes out are reconstructed values, in place of secrets. `subRBS` draws a
bit, the two gates with `l` inputs and `subPrefixOr` work on shared bits, and
`subBitwiseLessThan` compares the numbers spelled by two vectors of them.
-/

namespace QuickMpc.Share

open PrimeField MsbBits

variable {n : ℕ} [Config n]

/-! ### `subRBS` -/

theorem recons_eq_zero_iff {s : Share n PrimeField} : recons s = ofNat 0 ↔ secret s = 0 := by
  constructor
  · intro h
    rw [← toZMod_recons, h, toZMod_ofNat, Nat.cast_zero]
  · intro h
    exact recons_eq_of_secret (h.trans Nat.cast_zero.symm)

/-- Draws that share zero are passed over. -/
theorem subRBS_append_of_zero {zeros : List (RbsDraw n)} (h : ∀ d ∈ zeros, secret d.r = 0)
    (draws : List (RbsDraw n)) : subRBS (zeros ++ draws) = subRBS draws := by
  induction zeros with
  | nil => rfl
  | cons d zeros ih =>
      rw [List.cons_append, subRBS_cons_of_zero (h d List.mem_cons_self)]
      exact ih fun d' hd' => h d' (List.mem_cons_of_mem d hd')

/-- After a draw that does not share zero nothing is drawn. -/
theorem subRBS_cons_eq {draw : RbsDraw n} (h : secret draw.r ≠ 0) (draws : List (RbsDraw n)) :
    subRBS (draw :: draws) = subRBS [draw] := by
  have hopened := mt (recons_square_eq_zero_iff draw).mp h
  rw [subRBS, subRBS]
  dsimp only
  rw [if_pos hopened, if_pos hopened]

/-- A drawn value is the root that is not above `p / 2`, or the complement of
that root. -/
theorem recons_eq_root {s : Share n PrimeField} {root : PrimeField} (hs : secret s ≠ 0)
    (hhalf : root.value ≤ p / 2) (hlt : root.value < p)
    (hsq : toZMod root * toZMod root = secret s * secret s) :
    recons s = if (secret s).val ≤ p / 2 then root else -root := by
  have hroot := root_eq hs hhalf hlt hsq
  have hpos : 0 < root.value := by
    rw [value_eq_val hlt, Nat.pos_iff_ne_zero, ZMod.val_ne_zero]
    intro hzero
    rw [hzero, zero_mul] at hsq
    exact hs (mul_self_eq_zero.mp hsq.symm)
  split at hroot
  case isTrue h =>
    rw [if_pos h]
    exact eq_of_toZMod_eq (recons_value_lt s) hlt (by rw [toZMod_recons, hroot])
  case isFalse h =>
    rw [if_neg h]
    refine eq_of_toZMod_eq (recons_value_lt s) ?_ (by rw [toZMod_recons, toZMod_neg, hroot, neg_neg])
    rw [neg_value]
    omega

/-- The root is above `p / 2` only if it is not the drawn value. -/
theorem recons_eq_root_iff {s : Share n PrimeField} {root : PrimeField} (hs : secret s ≠ 0)
    (hhalf : root.value ≤ p / 2) (hlt : root.value < p)
    (hsq : toZMod root * toZMod root = secret s * secret s) :
    recons s = root ↔ (secret s).val ≤ p / 2 := by
  constructor
  · intro h
    rwa [← recons_value, h]
  · intro h
    rw [recons_eq_root hs hhalf hlt hsq, if_pos h]

/-- **`subRBS` returns a bit.** It draws again as long as `r` reconstructs to zero.
Otherwise `r * r` is opened, and its root `root` and the bit returned determine
`r`. -/
theorem subRBS_correct (zeros : List (RbsDraw n)) (hzeros : ∀ d ∈ zeros, recons d.r = ofNat 0)
    (draw : RbsDraw n) (hdraw : recons draw.r ≠ ofNat 0) :
    subRBS zeros = .error .outOfDraws ∧
    (∃ s root, (∀ draws, subRBS (zeros ++ draw :: draws) = .ok s) ∧
      recons (mul draw.triple.toTriple draw.r draw.r) = recons draw.r * recons draw.r ∧
      modsqrt (recons draw.r * recons draw.r) = .ok root ∧ root.value ≤ p / 2 ∧
      root * root = recons draw.r * recons draw.r ∧
      recons s = ofNat (if recons draw.r = root then 1 else 0) ∧
      recons draw.r = if recons s = ofNat 1 then root else -root) ∧
    ∀ (draws : List (RbsDraw n)) (s : Share n PrimeField), subRBS draws = .ok s →
      recons s = ofNat 0 ∨ recons s = ofNat 1 := by
  have hzero : ∀ d ∈ zeros, secret d.r = 0 := fun d hd => recons_eq_zero_iff.mp (hzeros d hd)
  have hne : secret draw.r ≠ 0 := mt recons_eq_zero_iff.mpr hdraw
  have hopened : recons (mul draw.triple.toTriple draw.r draw.r) = recons draw.r * recons draw.r :=
    eq_of_toZMod_eq (recons_value_lt _) (Nat.mod_lt _ p_pos)
      (by rw [toZMod_recons, secret_mul, toZMod_mul, toZMod_recons])
  have hsecret : toZMod (recons draw.r * recons draw.r) = secret draw.r * secret draw.r := by
    rw [toZMod_mul, toZMod_recons]
  obtain ⟨root, hroot, hhalf, hlt, hsq⟩ := modsqrt_square hne hsecret
  obtain ⟨s, hs, hbit⟩ := subRBS_cons_of_ne_zero hne []
  have hiff := recons_eq_root_iff hne hhalf hlt (hsq.trans hsecret)
  have hout : recons s = ofNat (if recons draw.r = root then 1 else 0) := by
    rw [hbit.recons_eq, ite_eq_toNat, decide_eq_decide.mpr hiff]
  refine ⟨?_, ⟨s, root, ?_, hopened, hroot, hhalf, ?_, hout, ?_⟩, ?_⟩
  · have hdrawn := subRBS_append_of_zero hzero []
    rwa [List.append_nil] at hdrawn
  · intro draws
    rw [subRBS_append_of_zero hzero, subRBS_cons_eq hne, hs]
  · exact eq_of_toZMod_eq (Nat.mod_lt _ p_pos) (Nat.mod_lt _ p_pos) (by rw [toZMod_mul, hsq])
  · rw [recons_eq_root hne hhalf hlt (hsq.trans hsecret), hout]
    by_cases hlow : (secret draw.r).val ≤ p / 2
    · rw [if_pos hlow, if_pos (hiff.mpr hlow), if_pos rfl]
    · rw [if_neg hlow, if_neg (mt hiff.mp hlow), if_neg (by decide +kernel)]
  · intro draws s' hs'
    obtain ⟨b, hb⟩ := subRBS_bit draws hs'
    rw [hb.recons_eq]
    cases b
    · exact Or.inl rfl
    · exact Or.inr rfl

/-- `1 + (p - 1) + 0` is passed over, `2 + 3 + (p - 6)` is the upper root of `1`. -/
theorem subRBS_correct_three :
    ∃ s, (∀ draws, @subRBS 3 threeParties
        ([⟨⟨![ofNat 1, ofNat (p - 1), ofNat 0]⟩, .constant 3⟩]
          ++ ⟨⟨![ofNat 2, ofNat 3, ofNat (p - 6)]⟩, .constant 3⟩ :: draws) = .ok s) ∧
      recons s = ofNat 0 := by
  obtain ⟨-, h, -⟩ := @subRBS_correct 3 threeParties
    [⟨⟨![ofNat 1, ofNat (p - 1), ofNat 0]⟩, .constant 3⟩]
    (List.forall_mem_singleton.mpr (by decide +kernel))
    ⟨⟨![ofNat 2, ofNat 3, ofNat (p - 6)]⟩, .constant 3⟩ (by decide +kernel)
  obtain ⟨s, root, hs, -, hroot, -, -, hout, -⟩ := h
  have hone : modsqrt (recons (⟨![ofNat 2, ofNat 3, ofNat (p - 6)]⟩ : Share 3 PrimeField)
      * recons ⟨![ofNat 2, ofNat 3, ofNat (p - 6)]⟩) = .ok (ofNat 1) := by
    decide +kernel
  obtain rfl : root = ofNat 1 := Except.ok.inj (hroot.symm.trans hone)
  exact ⟨s, hs, hout.trans (by decide +kernel)⟩

/-! ### The gates with `l` inputs -/

/-- Every one of the `A_shares` is a power of the number of set bits and `1`. -/
theorem recons_A_shares (hn : n < p) (draws : FanInDraws n) {a_shares : Fin l → Share n PrimeField}
    {a : Fin l → Bool} (ha : ∀ i, IsBit (a_shares i) (a i)) (i : Fin l) :
    recons (A_shares draws a_shares i) = ofNat ((1 + ∑ j, (a j).toNat) ^ (i.val + 1)) := by
  have hsum : ∑ j, secret (a_shares j) = ((∑ j, (a j).toNat : ℕ) : ZMod p) := by
    rw [Nat.cast_sum]
    exact Finset.sum_congr rfl fun j _ => (ha j).trans (bit_eq_natCast (a j))
  refine recons_eq_of_secret ?_
  rw [secret_A_shares hn, hsum]
  push_cast
  rfl

/-- A bit shared by three parties. -/
def sharedBit (b : Bool) : Share 3 PrimeField := ⟨![ofNat (p - 1), ofNat 1, ofNat b.toNat]⟩

theorem recons_sharedBit : ∀ b : Bool, recons (sharedBit b) = ofNat b.toNat := by
  decide +kernel

/-- **The two gates compute the disjunction and the conjunction of `64` bits**, from
the powers of the number of set bits and `1` and the two tables. -/
theorem subUnboundedFanIn_correct (hn : n < p) (draws : FanInDraws n)
    {a_shares : Fin l → Share n PrimeField} {a : Fin l → Bool}
    (ha : ∀ i, recons (a_shares i) = ofNat (a i).toNat) :
    (subUnboundedFanInOr draws a_shares = .ok (f65Or (A_shares draws a_shares)) ∧
      recons (f65Or (A_shares draws a_shares)) = ofNat (if ∃ i, a i = true then 1 else 0)) ∧
    (subUnboundedFanInAnd draws a_shares = .ok (f65And (A_shares draws a_shares)) ∧
      recons (f65And (A_shares draws a_shares)) = ofNat (if ∀ i, a i = true then 1 else 0)) ∧
    (∀ i, recons (A_shares draws a_shares i) = ofNat ((1 + ∑ j, (a j).toNat) ^ (i.val + 1))) ∧
    (f_65_or_coefficient.length = 65 ∧ f_65_and_coefficient.length = 65) ∧
    ∀ x, 1 ≤ x → x ≤ 65 →
      Nat.ofDigits x f_65_or_coefficient % p = (if x = 1 then 0 else 1) ∧
      Nat.ofDigits x f_65_and_coefficient % p = (if x = 65 then 1 else 0) := by
  have hbits : ∀ i, IsBit (a_shares i) (a i) := fun i => isBit_of_recons (ha i)
  have hor := subUnboundedFanIn_eq hn f65Or draws a_shares
  have hand := subUnboundedFanIn_eq hn f65And draws a_shares
  refine ⟨⟨hor, ?_⟩, ⟨hand, ?_⟩, recons_A_shares hn draws hbits, ⟨rfl, rfl⟩, ?_⟩
  · obtain ⟨ans, hok, hans⟩ := subUnboundedFanInOr_spec hn draws hbits
    obtain rfl := Except.ok.inj (hok.symm.trans hor)
    rw [hans.recons_eq, ite_eq_toNat]
  · obtain ⟨ans, hok, hans⟩ := subUnboundedFanInAnd_spec hn draws hbits
    obtain rfl := Except.ok.inj (hok.symm.trans hand)
    rw [hans.recons_eq, ite_eq_toNat]
  · intro x hlo hhi
    obtain ⟨k, rfl⟩ := Nat.exists_eq_add_of_le hlo
    rw [f_65_or_coefficient_eval k (by omega), f_65_and_coefficient_eval k (by omega),
      ← ite_eq_toNat, ← ite_eq_toNat]
    exact ⟨by split_ifs <;> omega, by split_ifs <;> omega⟩

/-- All bits but the first are set. -/
theorem subUnboundedFanIn_correct_three :
    recons (@f65Or 3 threeParties (@A_shares 3 threeParties (@FanInDraws.ones 3 threeParties)
        fun i => sharedBit (decide (i.val ≠ 0)))) = ofNat 1 ∧
      recons (@f65And 3 threeParties (@A_shares 3 threeParties (@FanInDraws.ones 3 threeParties)
        fun i => sharedBit (decide (i.val ≠ 0)))) = ofNat 0 := by
  obtain ⟨⟨-, hor⟩, ⟨-, hand⟩, -⟩ := @subUnboundedFanIn_correct 3 threeParties (by norm_num [p])
    (@FanInDraws.ones 3 threeParties) _ (fun i => decide (i.val ≠ 0)) fun _ => recons_sharedBit _
  exact ⟨hor.trans (by decide +kernel), hand.trans (by decide +kernel)⟩

/-! ### `subPrefixOr` and `subBitwiseLessThan` -/

/-- **`subPrefixOr` computes the prefix disjunction**, of any `64` shared bits, for any sharing
and any admissible draws: the `i`-th bit it returns is set when one of the first bits, up to the
`i`-th, is. -/
theorem subPrefixOr_correct (hn : n < p) (draws : PrefixOrDraws n)
    {a_shares : Fin l → Share n PrimeField} {a : Fin l → Bool}
    (ha : ∀ i, recons (a_shares i) = ofNat (a i).toNat) :
    ∃ ret, subPrefixOr draws a_shares = .ok ret ∧
      ∀ i, recons (ret i) = ofNat (if ∃ j ≤ i, a j = true then 1 else 0) := by
  obtain ⟨ret, hok, hret⟩ := subPrefixOr_spec hn draws fun i => isBit_of_recons (ha i)
  refine ⟨ret, hok, fun i => ?_⟩
  rw [(hret i).recons_eq, prefixOr, ite_eq_toNat]

/-- The first set bit is in the second block. -/
theorem subPrefixOr_correct_three :
    ∃ ret, @subPrefixOr 3 threeParties (@BitwiseLessThanDraws.ones 3 threeParties).prefixOr
        (fun i => sharedBit (decide (i.val = 9 ∨ i.val = 60))) = .ok ret ∧
      ∀ i, recons (ret i) = ofNat (if 9 ≤ i.val then 1 else 0) := by
  obtain ⟨ret, hok, hret⟩ := @subPrefixOr_correct 3 threeParties (by norm_num [p])
    (@BitwiseLessThanDraws.ones 3 threeParties).prefixOr _
    (fun i => decide (i.val = 9 ∨ i.val = 60)) fun _ => recons_sharedBit _
  exact ⟨ret, hok, fun i => (hret i).trans (by revert i; decide +kernel)⟩

/-- **`subBitwiseLessThan` compares two numbers of `64` bits**, shared bit by bit with the most
significant one first, also those that are not below `p`: it returns a share of `1` when the
first is the smaller one, and of `0` otherwise. -/
theorem subBitwiseLessThan_correct (hn : n < p) (draws : BitwiseLessThanDraws n) {a b : ℕ}
    (ha : a < 2 ^ 64) (hb : b < 2 ^ 64) {a_shares b_shares : Fin l → Share n PrimeField}
    (hra : ∀ i, recons (a_shares i) = ofNat (a.testBit (63 - i)).toNat)
    (hrb : ∀ i, recons (b_shares i) = ofNat (b.testBit (63 - i)).toNat) :
    ∃ ret, subBitwiseLessThan draws a_shares b_shares = .ok ret ∧
      recons ret = ofNat (if a < b then 1 else 0) := by
  have hbits : ∀ {y : ℕ} {y_shares : Fin l → Share n PrimeField},
      (∀ i, recons (y_shares i) = ofNat (y.testBit (63 - i)).toNat) →
        ∀ i, IsBit (y_shares i) (bitsOf l y i) := by
    intro y y_shares h i
    have hrev : i.rev.val = 63 - i.val := by
      show 64 - (i.val + 1) = 63 - i.val
      omega
    rw [bitsOf, hrev]
    exact isBit_of_recons (h i)
  obtain ⟨ret, hok, hret⟩ := subBitwiseLessThan_spec hn draws (hbits hra) (hbits hrb)
  refine ⟨ret, hok, ?_⟩
  rw [hret.recons_eq, value_bitsOf_of_lt (show a < 2 ^ l from ha),
    value_bitsOf_of_lt (show b < 2 ^ l from hb), ite_eq_toNat]

/-- Two numbers above `p`, which differ in the last bit. -/
theorem subBitwiseLessThan_correct_three :
    ∃ ret, @subBitwiseLessThan 3 threeParties (@BitwiseLessThanDraws.ones 3 threeParties)
        (fun i => sharedBit ((2 ^ 64 - 2).testBit (63 - i)))
        (fun i => sharedBit ((2 ^ 64 - 1).testBit (63 - i))) = .ok ret ∧
      recons ret = ofNat 1 :=
  @subBitwiseLessThan_correct 3 threeParties (by norm_num [p])
    (@BitwiseLessThanDraws.ones 3 threeParties) (2 ^ 64 - 2) (2 ^ 64 - 1) (by norm_num)
    (by norm_num) _ _ (fun _ => recons_sharedBit _) fun _ => recons_sharedBit _

end QuickMpc.Share
