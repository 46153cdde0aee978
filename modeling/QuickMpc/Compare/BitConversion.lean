import QuickMpc.Compare.RandomBits

/-!
# QuickMpc.Compare.BitConversion

`PFtoBS` as each party runs it, and the way there and back with `BStoSC`.

Every party draws an `r` of its own for each bit. Only the one of the party `sp_id` is
shared, and that party corrects its share by it and by its copy of the bit; the others
draw in vain (`PFtoBSAt_eq`).
-/

namespace QuickMpc.Share

open PrimeField MsbBits

variable {n m : ℕ}

/-! ### Model -/

/-- What the parties draw for one bit: `r` at every party, and the summands that `sp_id`
deals in `sharize`. -/
structure BitDraws (n : ℕ) where
  r : Fin n → PrimeField
  summands : Fin n → PrimeField

/-- The variables of the loop of `PFtoBS`. -/
structure BitLoop (m : ℕ) where
  bit_shares : Fin m → PrimeField
  y : ℕ

/-- One round of the loop, for the value that is stored at index `i`. -/
def BitLoop.round (entry : Fin m → ℕ → PrimeField) (s : BitLoop m) (i : Fin m) : BitLoop m :=
  ⟨Function.update s.bit_shares i (entry i s.y), s.y / 2⟩

section Code

variable [Config n]

/-- `sharize(secret)` at the party `party_id`. -/
def sharizeAt (party_id : Fin n) (secret : PrimeField) (r : Fin n → PrimeField) : PrimeField :=
  if party_id = Config.sp_id then secret - r_sum r else ShareValue.received (r party_id)

/-- What `PFtoBS` stores for one bit at the party `party_id`. -/
def bitAt (party_id : Fin n) (draws : BitDraws n) (y : ℕ) : PrimeField :=
  let r := draws.r party_id
  let s := sharizeAt party_id r draws.summands
  if party_id = Config.sp_id then ofNat (y % 2) - r + s else s

/-- `PFtoBS(x)` at the party `party_id`, from the last index on. -/
def PFtoBSAt (party_id : Fin n) (x : PrimeField) (draws : Fin l → BitDraws n) :
    Fin l → PrimeField :=
  ((List.finRange l).reverse.foldl (BitLoop.round fun i => bitAt party_id (draws i))
    ⟨fun _ => 0, x.value⟩).bit_shares

/-- The shares that the parties hold after `PFtoBS(x)`. -/
def bitShares (x : PrimeField) (draws : Fin l → BitDraws n) : Fin l → Share n PrimeField :=
  fun i => ⟨fun party_id => PFtoBSAt party_id x draws i⟩

end Code

/-! ### The loop -/

/-- A round for every index of a list: the `k`-th one sees `y / 2 ^ k`. -/
theorem foldl_round (entry : Fin m → ℕ → PrimeField) : ∀ (is : List (Fin m)), is.Nodup →
    ∀ (s : BitLoop m) (j : Fin m),
      (is.foldl (BitLoop.round entry) s).bit_shares j
        = if j ∈ is then entry j (s.y / 2 ^ is.idxOf j) else s.bit_shares j := by
  intro is
  induction is with
  | nil =>
      intro _ s j
      simp
  | cons i is ih =>
      intro hnodup s j
      obtain ⟨hi, hnodup⟩ := List.nodup_cons.mp hnodup
      rw [List.foldl_cons, ih hnodup]
      by_cases hj : j = i
      · subst hj
        simp [hi, BitLoop.round]
      · have hshift : s.y / 2 / 2 ^ is.idxOf j = s.y / 2 ^ (is.idxOf j + 1) := by
          rw [Nat.div_div_eq_div_mul, pow_succ']
        simp [hj, BitLoop.round, List.idxOf_cons_ne _ (Ne.symm hj), hshift]

theorem idxOf_reverse_finRange (i : Fin m) : (List.finRange m).reverse.idxOf i = m - 1 - i := by
  have hlt : m - 1 - i < (List.finRange m).reverse.length := by
    rw [List.length_reverse, List.length_finRange]
    omega
  have hget : (List.finRange m).reverse[m - 1 - i] = i := by
    rw [List.getElem_reverse]
    ext
    simp
    omega
  have hnodup : (List.finRange m).reverse.Nodup := List.nodup_reverse.mpr (List.nodup_finRange m)
  have hidx := hnodup.idxOf_getElem (m - 1 - i) hlt
  rwa [hget] at hidx

section Code

variable [Config n]

theorem sharizeAt_eq (party_id : Fin n) (secret : Fin n → PrimeField) (r : Fin n → PrimeField) :
    sharizeAt party_id (secret party_id) r
      = (sharize (secret Config.sp_id) r).value party_id := by
  unfold sharizeAt
  show _ = if party_id = Config.sp_id then _ else _
  split
  next h => rw [h]
  next => rfl

/-- Only the draws of `sp_id` matter. -/
theorem PFtoBSAt_eq (party_id : Fin n) (x : PrimeField) (draws : Fin l → BitDraws n) (i : Fin l) :
    PFtoBSAt party_id x draws i
      = (PFtoBS x (fun i => ⟨(draws i).r Config.sp_id, (draws i).summands⟩) i).value party_id := by
  have hloop := foldl_round (fun i => bitAt party_id (draws i)) (List.finRange l).reverse
    (List.nodup_reverse.mpr (List.nodup_finRange l)) ⟨fun _ => 0, x.value⟩ i
  rw [if_pos (by simp), idxOf_reverse_finRange] at hloop
  rw [PFtoBSAt, hloop]
  simp only [bitAt, PFtoBS, sharizeAt_eq party_id (draws i).r (draws i).summands]
  split
  next h => rw [h]
  next => rfl

theorem bitShares_eq (x : PrimeField) (draws : Fin l → BitDraws n) :
    bitShares x draws
      = PFtoBS x fun i => ⟨(draws i).r Config.sp_id, (draws i).summands⟩ := by
  funext i
  ext party_id
  rw [← PFtoBSAt_eq]
  rfl

theorem isBit_bitShares (x : PrimeField) (draws : Fin l → BitDraws n) (i : Fin l) :
    IsBit (bitShares x draws i) (bitsOf l x.value i) := by
  rw [bitShares_eq]
  exact secret_PFtoBS x _ i

/-- A shared vector is reconstructed to the number that it spells. -/
theorem recons_BStoSC {a_shares : Fin l → Share n PrimeField} {a : Fin l → Bool}
    (h : ∀ i, IsBit (a_shares i) (a i)) : recons (BStoSC a_shares) = ofNat (MsbBits.value a) :=
  recons_eq_of_secret (secret_BStoSC h)

theorem recons_BStoSC_bitShares (x : PrimeField) (draws : Fin l → BitDraws n) :
    recons (BStoSC (bitShares x draws)) = ofNat x.value := by
  have hlt : x.value < 2 ^ l := x.le_p.trans_lt p_lt_two_pow
  rw [recons_BStoSC (isBit_bitShares x draws), value_bitsOf_of_lt hlt]

/-- **The round trip of the bit conversions**, at every party. The shares of `PFtoBS(x)` are
reconstructed to the bits of `x`, the most significant one first, and `BStoSC` of them to
`x`, reduced; `BStoSC` of any shared vector is reconstructed to the number that it spells,
modulo `p`. -/
theorem bitConversion_round_trip (party_id : Fin n) (x : PrimeField)
    (draws : Fin l → BitDraws n) :
    (∀ i : Fin l, reconsAt party_id (bitShares x draws i)
        = ofNat (x.value.testBit (63 - i)).toNat)
      ∧ reconsAt party_id (BStoSC (bitShares x draws)) = ofNat x.value
      ∧ (x.value < p → reconsAt party_id (BStoSC (bitShares x draws)) = x)
      ∧ ∀ (a_shares : Fin l → Share n PrimeField) (a : Fin l → Bool),
        (∀ i, reconsAt party_id (a_shares i) = ofNat (a i).toNat) →
          reconsAt party_id (BStoSC a_shares)
            = ofNat (∑ i : Fin l, (a i).toNat * 2 ^ (63 - i.val)) := by
  simp only [reconsAt_eq_recons]
  refine ⟨fun i => ?_, recons_BStoSC_bitShares x draws, fun hlt => ?_, fun a_shares a h => ?_⟩
  · have hrev : i.rev.val = 63 - i.val := by
      rw [Fin.val_rev]
      show 64 - (i.val + 1) = 63 - i.val
      omega
    rw [(isBit_bitShares x draws i).recons_eq, bitsOf, hrev]
  · rw [recons_BStoSC_bitShares]
    ext
    exact ofNat_value_of_lt hlt
  · rw [recons_BStoSC fun i => isBit_of_recons (h i), value_eq_sum]
    rfl

end Code

end QuickMpc.Share
