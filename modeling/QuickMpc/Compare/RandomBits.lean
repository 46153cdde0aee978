import QuickMpc.Lib.MsbBits
import QuickMpc.Multiplication

/-!
# QuickMpc.Compare.RandomBits

Random bits and bit vectors of the comparison protocols: `subRBS`, `subRBVS`,
`BStoSC` and `PFtoBS`. A vector of `l = 64` bit shares spells a number with its
most significant bit at index `0` (`MsbBits.value`).

Randomness is explicit. What `subRBS` draws is a list, one element for each turn
of its `while (true)` loop; every other protocol draws a fixed amount, collected
in a structure.
-/

namespace QuickMpc.Share

open PrimeField MsbBits

variable {n m : ℕ}

/-- The share holds a bit. -/
def IsBit (s : Share n PrimeField) (b : Bool) : Prop := secret s = bit b

/-- A bit, read off a share by opening it. -/
def reconsBit (s : Share n PrimeField) : Bool := (recons s).value == 1

/-- The number that a vector of bit shares spells. -/
def reconsBits (r_shares : Fin m → Share n PrimeField) : ℕ :=
  MsbBits.value fun i => reconsBit (r_shares i)

theorem IsBit.recons_eq [Config n] {s : Share n PrimeField} {b : Bool} (h : IsBit s b) :
    recons s = ofNat b.toNat :=
  recons_eq_of_secret (by rw [h, bit_eq_natCast])

theorem isBit_of_recons {s : Share n PrimeField} {b : Bool} (h : recons s = ofNat b.toNat) :
    IsBit s b := by
  rw [IsBit, ← toZMod_recons, h, toZMod_ofNat, bit_eq_natCast]

theorem IsBit.reconsBit_eq [Config n] {s : Share n PrimeField} {b : Bool} (h : IsBit s b) :
    reconsBit s = b := by
  rw [reconsBit, h.recons_eq]
  cases b <;> rfl

theorem reconsBits_eq [Config n] {r_shares : Fin m → Share n PrimeField} {x : Fin m → Bool}
    (h : ∀ i, IsBit (r_shares i) (x i)) : reconsBits r_shares = MsbBits.value x := by
  unfold reconsBits
  congr 1
  funext i
  exact (h i).reconsBit_eq

/-! ### `subRBS` -/

/-- One turn of the loop of `subRBS`: the share drawn by `subRNS`, and the
triple used to square it. -/
structure RbsDraw (n : ℕ) where
  r : Share n PrimeField
  triple : PrimeFieldTriple n

section Code

variable [Config n]

/-- `subRBS`: draw until the square is not zero, then divide by its root. -/
def subRBS : List (RbsDraw n) → Run (Share n PrimeField)
  | [] => .error .outOfDraws
  | draw :: draws =>
    let r := draw.r
    let square_r_rec := recons (mul draw.triple.toTriple r r)
    if square_r_rec.value ≠ 0 then do
      let r_dash ← modsqrt square_r_rec
      let inv_r_dash := r_dash.getInv
      let inv_two := ofNat inverse_of_two
      return inv_two * (inv_r_dash * r + ofNat 1)
    else subRBS draws

/-- `subRBVS`. -/
def subRBVS (draws : Fin l → List (RbsDraw n)) : Run (Fin l → Share n PrimeField) :=
  collect fun i => subRBS (draws i)

/-- The opened square vanishes exactly when the drawn share does. -/
theorem recons_square_eq_zero_iff (draw : RbsDraw n) :
    (recons (mul draw.triple.toTriple draw.r draw.r)).value = 0 ↔ secret draw.r = 0 := by
  rw [recons_value, secret_mul, ZMod.val_eq_zero, mul_self_eq_zero]

/-- A draw that shares zero is repeated. -/
theorem subRBS_cons_of_zero {draw : RbsDraw n} (h : secret draw.r = 0)
    (draws : List (RbsDraw n)) : subRBS (draw :: draws) = subRBS draws := by
  rw [subRBS]
  exact if_neg (not_not.mpr ((recons_square_eq_zero_iff draw).mpr h))

/-- The root returned by `modsqrt` is the drawn value or its negative; which of
the two is decided by the half of the field the drawn value lies in. -/
theorem root_eq {r : ZMod p} {x : PrimeField} (hr : r ≠ 0) (hx : x.value ≤ p / 2)
    (hlt : x.value < p) (hsq : toZMod x * toZMod x = r * r) :
    toZMod x = if r.val ≤ p / 2 then r else -r := by
  have hodd := p_odd
  have hval : x.value = (toZMod x).val := value_eq_val hlt
  rcases mul_self_eq_mul_self_iff.mp hsq with h | h
  · rw [h] at hval
    rw [h, if_pos (by omega)]
  · have hneg : (toZMod x).val = p - r.val := by
      rw [h, ZMod.neg_val, if_neg hr]
    have hpos : r.val < p := ZMod.val_lt r
    rw [h, if_neg (by omega)]

/-- A draw that does not share zero ends the loop: the bit says whether the
drawn value is the root in the lower half. -/
theorem subRBS_cons_of_ne_zero {draw : RbsDraw n} (h : secret draw.r ≠ 0)
    (draws : List (RbsDraw n)) :
    ∃ s, subRBS (draw :: draws) = .ok s ∧ IsBit s (decide ((secret draw.r).val ≤ p / 2)) := by
  have hrec : toZMod (recons (mul draw.triple.toTriple draw.r draw.r))
      = secret draw.r * secret draw.r := by rw [toZMod_recons, secret_mul]
  obtain ⟨root, hroot, hhalf, hlt, hsq⟩ := modsqrt_square h hrec
  have hcanon := root_eq h hhalf hlt (hsq.trans hrec)
  refine ⟨ofNat inverse_of_two * (root.getInv * draw.r + ofNat 1), ?_, ?_⟩
  · rw [subRBS]
    dsimp only
    rw [if_pos (mt (recons_square_eq_zero_iff draw).mp h), hroot]
    rfl
  · have htwo : ((inverse_of_two : ℕ) : ZMod p) * (1 + 1) = 1 := by
      rw [one_add_one_eq_two]
      exact inverse_of_two_mul
    rw [IsBit, secret_value_mul, secret_add_value, secret_value_mul, toZMod_getInv, toZMod_ofNat,
      denote_eq_toZMod, toZMod_ofNat, Nat.cast_one, hcanon]
    by_cases hlow : (secret draw.r).val ≤ p / 2
    · rw [if_pos hlow, inv_mul_cancel₀ h, htwo, decide_eq_true hlow, bit_true]
    · rw [if_neg hlow, inv_neg, neg_mul, inv_mul_cancel₀ h, neg_add_cancel, mul_zero,
        decide_eq_false hlow, bit_false]

/-- `subRBS` returns a bit or is still drawing. -/
theorem subRBS_bit : ∀ (draws : List (RbsDraw n)) {s : Share n PrimeField},
    subRBS draws = .ok s → ∃ b, IsBit s b
  | [], _, h => by simp [subRBS] at h
  | draw :: draws, s, h => by
      by_cases hzero : secret draw.r = 0
      · rw [subRBS_cons_of_zero hzero] at h
        exact subRBS_bit draws h
      · obtain ⟨s', hs', hbit⟩ := subRBS_cons_of_ne_zero hzero draws
        obtain rfl : s' = s := Except.ok.inj (hs'.symm.trans h)
        exact ⟨_, hbit⟩

/-- `subRBVS` returns a vector of bits. -/
theorem subRBVS_bits {draws : Fin l → List (RbsDraw n)} {r_shares : Fin l → Share n PrimeField}
    (h : subRBVS draws = .ok r_shares) :
    ∃ x : Fin l → Bool, (∀ i, IsBit (r_shares i) (x i)) ∧ reconsBits r_shares = MsbBits.value x := by
  have hbit : ∀ i, ∃ b, IsBit (r_shares i) b := fun i => subRBS_bit _ (collect_eq_ok.mp h i)
  choose x hx using hbit
  exact ⟨x, hx, reconsBits_eq hx⟩

/-- When the first draw for every index is not zero, the vector is known. -/
theorem subRBVS_of_ne_zero (draw : Fin l → RbsDraw n) (h : ∀ i, secret (draw i).r ≠ 0) :
    ∃ r_shares, subRBVS (fun i => [draw i]) = .ok r_shares ∧
      reconsBits r_shares = MsbBits.value fun i => decide ((secret (draw i).r).val ≤ p / 2) := by
  choose r hok hbit using fun i => subRBS_cons_of_ne_zero (h i) []
  exact ⟨r, collect_eq_ok.mpr hok, reconsBits_eq hbit⟩

end Code

/-! ### `BStoSC` -/

/-- The loop of `BStoSC`, from the least significant index on: the sum so far,
and the next power of two. -/
def BStoSCLoop (a_shares : Fin m → Share n PrimeField) : Share n PrimeField × PrimeField :=
  (List.finRange m).reverse.foldl
    (fun (ret, coef) i => (ret + coef * a_shares i, coef * ofNat 2)) (ofValue (ofNat 0), ofNat 1)

/-- `BStoSC`. -/
def BStoSC (a_shares : Fin l → Share n PrimeField) : Share n PrimeField :=
  (BStoSCLoop a_shares).1

/-- After all its rounds the loop holds the number spelled by the bits. The
induction adds the most significant index, which is the last round. -/
theorem BStoSCLoop_spec : ∀ {m : ℕ} {a_shares : Fin m → Share n PrimeField} {x : Fin m → Bool},
    (∀ i, IsBit (a_shares i) (x i)) →
      secret (BStoSCLoop a_shares).1 = (MsbBits.value x : ZMod p) ∧
        toZMod (BStoSCLoop a_shares).2 = 2 ^ m
  | 0, a_shares, x, _ => by
      refine ⟨?_, by simp [BStoSCLoop]⟩
      have hzero : MsbBits.value x = 0 := by simpa using value_lt_two_pow x
      simp [BStoSCLoop, secret_ofValue, hzero]
  | m + 1, a_shares, x, h => by
      have hstep : BStoSCLoop a_shares
          = ((BStoSCLoop fun i => a_shares i.succ).1
              + (BStoSCLoop fun i => a_shares i.succ).2 * a_shares 0,
            (BStoSCLoop fun i => a_shares i.succ).2 * ofNat 2) := by
        simp only [BStoSCLoop, List.finRange_succ, List.reverse_cons, List.foldl_append,
          List.foldl_cons, List.foldl_nil, ← List.map_reverse, List.foldl_map]
      obtain ⟨hsum, hcoef⟩ := BStoSCLoop_spec fun i => h i.succ
      rw [hstep]
      dsimp only
      constructor
      · rw [secret_add, secret_value_mul, hsum, hcoef, h 0, value_succ, bit_eq_natCast]
        push_cast
        ring
      · rw [toZMod_mul, hcoef, toZMod_ofNat, pow_succ]
        rfl

theorem secret_BStoSC {a_shares : Fin l → Share n PrimeField} {x : Fin l → Bool}
    (h : ∀ i, IsBit (a_shares i) (x i)) : secret (BStoSC a_shares) = (MsbBits.value x : ZMod p) :=
  (BStoSCLoop_spec h).1

/-! ### `PFtoBS` -/

/-- What one round of `PFtoBS` draws: the value `r` that the party `sp_id`
shares, and the summands it deals. -/
structure SharizeDraw (n : ℕ) where
  r : PrimeField
  summands : Fin n → PrimeField

variable [Config n]

/-- `PFtoBS(x)`: the loop halves `x.getVal()` from the last index on, so that
`y` at index `i` is the value shifted by `l - 1 - i`. -/
def PFtoBS (x : PrimeField) (draws : Fin l → SharizeDraw n) : Fin l → Share n PrimeField :=
  fun i =>
    let y := x.value / 2 ^ (l - 1 - i)
    let r := (draws i).r
    let s := sharize r (draws i).summands
    ⟨fun party_id =>
      if party_id = Config.sp_id then ofNat (y % 2) - r + s.value party_id
      else s.value party_id⟩

theorem secret_PFtoBS (x : PrimeField) (draws : Fin l → SharizeDraw n) (i : Fin l) :
    IsBit (PFtoBS x draws i) (bitsOf l x.value i) := by
  have hbit : ((x.value / 2 ^ (l - 1 - i) % 2 : ℕ) : ZMod p) = bit (bitsOf l x.value i) := by
    have hrev : i.rev.val = l - 1 - i := by rw [Fin.val_rev]; omega
    rw [bitsOf, hrev, Nat.testBit_eq_decide_div_mod_eq]
    rcases Nat.mod_two_eq_zero_or_one (x.value / 2 ^ (l - 1 - i)) with h | h <;> rw [h] <;> simp
  have hshare : secret (PFtoBS x draws i)
      = secret (sharize (draws i).r (draws i).summands
          + (ofNat (x.value / 2 ^ (l - 1 - i) % 2) - (draws i).r)) := by
    rw [secret, secret]
    congr 1
    funext party_id
    show toZMod (if party_id = Config.sp_id then _ else _)
      = toZMod (if party_id = Config.sp_id then _ else _)
    split
    · rw [toZMod_add, toZMod_add, add_comm]
    · rfl
  rw [IsBit, hshare, secret_add_value, secret_sharize, denote_eq_toZMod, denote_eq_toZMod,
    toZMod_sub, toZMod_ofNat, hbit]
  ring

end QuickMpc.Share
