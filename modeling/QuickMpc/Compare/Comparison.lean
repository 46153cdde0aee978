import QuickMpc.Compare.PrefixOr

/-!
# QuickMpc.Compare.Comparison

`subHalfLessThan` and `comparisonTest`.

Whether `a` lies in the lower half of the field is the parity of `2 a mod p`.
The code opens `c = 2 a + r` for a random `r` shared bit by bit; the parity of
`2 a mod p` is that of `c - r`, flipped when the subtraction wraps around, i.e.
when `c < r`, since `p` is odd (`half_iff`). The order of `a` and `b` follows
from the halves of `a`, `b` and `a - b` (`order_eq_select`).
-/

namespace QuickMpc.Share

open PrimeField MsbBits

variable {n : ℕ}

/-! ### The arithmetic -/

/-- A sum below three times the modulus wraps around at most twice. -/
theorem mod_cases {m s : ℕ} (hs : s < 3 * m) :
    s < m ∧ s % m = s ∨ m ≤ s ∧ s < 2 * m ∧ s % m = s - m ∨ 2 * m ≤ s ∧ s % m = s - 2 * m := by
  rcases lt_or_ge s m with h | h
  · exact .inl ⟨h, Nat.mod_eq_of_lt h⟩
  · rcases lt_or_ge s (2 * m) with h2 | h2
    · refine .inr (.inl ⟨h, h2, ?_⟩)
      rw [Nat.mod_eq_sub_mod h, Nat.mod_eq_of_lt (by omega)]
    · refine .inr (.inr ⟨h2, ?_⟩)
      rw [Nat.mod_eq_sub_mod h, Nat.mod_eq_sub_mod (by omega), Nat.mod_eq_of_lt (by omega)]
      omega

/-- The parity test for the lower half, on the opened value. -/
theorem half_iff {m a r c : ℕ} (hodd : m % 2 = 1) (ha : a < m) (hr : r < m)
    (hc : c = (2 * a + r) % m) : 2 * a < m ↔ (c % 2 = r % 2 ↔ ¬ c < r) := by
  have hsum : 2 * a + r < 3 * m := by omega
  rcases mod_cases hsum with ⟨h, hmod⟩ | ⟨h, h', hmod⟩ | ⟨h, hmod⟩
  · omega
  · omega
  · omega

/-- The order of two elements from their halves: where the halves differ they
decide, elsewhere the half of the difference does. -/
theorem order_eq_select {m a b d : ℕ} (hb : b < m) (hd : d < m)
    (h : a = (d + b) % m) :
    decide (a < b) = if decide (2 * a < m) = decide (2 * b < m) then !decide (2 * d < m)
      else decide (2 * a < m) := by
  have hsum : d + b < 3 * m := by omega
  rw [Bool.eq_iff_iff, decide_eq_true_iff]
  split
  · rename_i heq
    rw [decide_eq_decide] at heq
    simp only [Bool.not_eq_true', decide_eq_false_iff_not]
    rcases mod_cases hsum with ⟨h', hmod⟩ | ⟨h', h'', hmod⟩ | ⟨h', hmod⟩
    · omega
    · omega
    · omega
  · rename_i hne
    rw [decide_eq_decide] at hne
    rw [decide_eq_true_iff]
    rcases mod_cases hsum with ⟨h', hmod⟩ | ⟨h', h'', hmod⟩ | ⟨h', hmod⟩
    · omega
    · omega
    · omega

/-- The cubic formula of `comparisonTest` is that selection. -/
theorem bit_select {R : Type*} [CommRing R] (w x y : Bool) :
    (bit w * (bit x + bit y - 2 * (bit x * bit y)) + 1 - bit y - bit x + bit x * bit y : R)
      = bit (if w = x then !y else w) := by
  cases w <;> cases x <;> cases y <;> norm_num

theorem ite_eq_toNat (q : Prop) [Decidable q] : (if q then 1 else 0) = (decide q).toNat := by
  by_cases h : q <;> simp [h]

/-! ### `subHalfLessThan` -/

/-- The bit vector drawn by `subRBVS` spells a number below `p`. -/
def BelowP [Config n] (draws : Fin l → List (RbsDraw n)) : Prop :=
  ∃ r_shares, subRBVS draws = .ok r_shares ∧ reconsBits r_shares < p

/-- What `subHalfLessThan` draws. -/
structure HalfLessThanDraws (n : ℕ) where
  rbvs : Fin l → List (RbsDraw n)
  pftobs : Fin l → SharizeDraw n
  bitwise : BitwiseLessThanDraws n
  triple1 : PrimeFieldTriple n
  triple2 : PrimeFieldTriple n

/-- The index of the least significant bit. -/
def lsb : Fin l := ⟨l - 1, by norm_num [l]⟩

variable [Config n]

/-- `subHalfLessThan`. -/
def subHalfLessThan (draws : HalfLessThanDraws n) (a_share : Share n PrimeField) :
    Run (Share n PrimeField) := do
  -- step 1
  let r_shares ← subRBVS draws.rbvs
  let r_share := BStoSC r_shares
  -- step 2
  let c := recons (ofNat 2 * a_share + r_share)
  let c_shares := PFtoBS c draws.pftobs
  -- step 3
  let cr ← subBitwiseLessThan draws.bitwise c_shares r_shares
  let ret :=
    if c.value % 2 = 0 then
      mul draws.triple1.toTriple cr (ofNat 1 - r_shares lsb)
        + mul draws.triple2.toTriple (ofNat 1 - cr) (r_shares lsb)
    else
      mul draws.triple1.toTriple cr (r_shares lsb)
        + mul draws.triple2.toTriple (ofNat 1 - cr) (ofNat 1 - r_shares lsb)
  -- step 4
  return ofNat 1 - ret

/-- **`subHalfLessThan`** decides the lower half of the field. -/
theorem subHalfLessThan_spec (hn : n < p) (draws : HalfLessThanDraws n) (hdraws : BelowP draws.rbvs)
    (a_share : Share n PrimeField) :
    ∃ ret, subHalfLessThan draws a_share = .ok ret ∧
      IsBit ret (decide (2 * (secret a_share).val < p)) := by
  obtain ⟨r_shares, hrbvs, hrp⟩ := hdraws
  obtain ⟨x, hx, hr⟩ := subRBVS_bits hrbvs
  rw [hr] at hrp
  set c := recons (ofNat 2 * a_share + BStoSC r_shares) with hc
  have hval : c.value = (2 * (secret a_share).val + MsbBits.value x) % p := by
    have hsecret : secret (ofNat 2 * a_share + BStoSC r_shares)
        = ((2 * (secret a_share).val + MsbBits.value x : ℕ) : ZMod p) := by
      rw [secret_add, secret_value_mul, secret_BStoSC hx, toZMod_ofNat, Nat.cast_add, Nat.cast_mul,
        ZMod.natCast_zmod_val]
    rw [hc, recons_value, hsecret, ZMod.val_natCast]
  have hcbits : MsbBits.value (bitsOf l c.value) = c.value := by
    refine value_bitsOf_of_lt ?_
    rw [hval]
    exact (Nat.mod_lt _ p_pos).trans p_lt_two_pow
  obtain ⟨cr, hcr, hcrbit⟩ :=
    subBitwiseLessThan_spec hn draws.bitwise (secret_PFtoBS c draws.pftobs) hx
  rw [hcbits] at hcrbit
  have hlsb : MsbBits.value x % 2 = (x lsb).toNat := value_mod_two (m := 63) x
  have hhalf := half_iff p_odd (ZMod.val_lt (secret a_share)) hrp hval
  refine ⟨_, by simp only [subHalfLessThan, hrbvs, ← hc, hcr, bind, Except.bind]; rfl, ?_⟩
  rw [IsBit, secret_value_sub, denote_eq_toZMod, toZMod_ofNat]
  by_cases heven : c.value % 2 = 0
  · rw [if_pos heven, secret_add, secret_mul, secret_mul, secret_value_sub, secret_value_sub,
      denote_eq_toZMod, toZMod_ofNat, hcrbit, hx lsb]
    have hdec : decide (2 * (secret a_share).val < p)
        = !(decide (c.value < MsbBits.value x) ^^ x lsb) := by
      rw [Bool.eq_iff_iff, decide_eq_true_iff, hhalf, heven, hlsb]
      cases x lsb <;> by_cases hlt : c.value < MsbBits.value x <;> simp [hlt]
    rw [hdec, bit_not, bit_xor]
    push_cast
    ring
  · rw [if_neg heven, secret_add, secret_mul, secret_mul, secret_value_sub, secret_value_sub,
      denote_eq_toZMod, toZMod_ofNat, hcrbit, hx lsb]
    have hdec : decide (2 * (secret a_share).val < p)
        = (decide (c.value < MsbBits.value x) ^^ x lsb) := by
      have hodd : c.value % 2 = 1 := by omega
      rw [Bool.eq_iff_iff, decide_eq_true_iff, hhalf, hodd, hlsb]
      cases x lsb <;> by_cases hlt : c.value < MsbBits.value x <;> simp [hlt]
    rw [hdec, bit_xor]
    push_cast
    ring

/-! ### `comparisonTest` -/

/-- What `comparisonTest` draws. -/
structure ComparisonDraws (n : ℕ) where
  w : HalfLessThanDraws n
  x : HalfLessThanDraws n
  y : HalfLessThanDraws n
  tripleXy : PrimeFieldTriple n
  tripleZ : PrimeFieldTriple n

/-- `comparisonTest`. -/
def comparisonTest (draws : ComparisonDraws n) (a_share b_share : Share n PrimeField) :
    Run (Share n PrimeField) := do
  let w ← subHalfLessThan draws.w a_share
  let x ← subHalfLessThan draws.x b_share
  let y ← subHalfLessThan draws.y (a_share - b_share)
  let xy := mul draws.tripleXy.toTriple x y
  return mul draws.tripleZ.toTriple w (x + y - ofNat 2 * xy) + ofNat 1 - y - x + xy

/-- The result of `comparisonTest` is the order of the secrets. -/
theorem comparisonTest_spec (hn : n < p) (draws : ComparisonDraws n) (hw : BelowP draws.w.rbvs)
    (hx : BelowP draws.x.rbvs) (hy : BelowP draws.y.rbvs) (a_share b_share : Share n PrimeField) :
    ∃ z, comparisonTest draws a_share b_share = .ok z ∧
      IsBit z (decide ((secret a_share).val < (secret b_share).val)) := by
  obtain ⟨w, hwok, hwbit⟩ := subHalfLessThan_spec hn draws.w hw a_share
  obtain ⟨x, hxok, hxbit⟩ := subHalfLessThan_spec hn draws.x hx b_share
  obtain ⟨y, hyok, hybit⟩ := subHalfLessThan_spec hn draws.y hy (a_share - b_share)
  have hdiff : (secret a_share).val
      = ((secret (a_share - b_share)).val + (secret b_share).val) % p := by
    rw [← ZMod.val_add, secret_sub, sub_add_cancel]
  refine ⟨_, by simp only [comparisonTest, hwok, hxok, hyok, bind, Except.bind]; rfl, ?_⟩
  rw [IsBit, order_eq_select (ZMod.val_lt _) (ZMod.val_lt _) hdiff, ← bit_select,
    secret_add, secret_sub, secret_sub, secret_add_value, secret_mul, secret_mul, secret_sub,
    secret_add, secret_value_mul, secret_mul, hwbit, hxbit, hybit, denote_eq_toZMod, toZMod_ofNat,
    toZMod_ofNat]
  push_cast
  ring

/-! ### Chosen randomness

A run in which every mask is `1` and the drawn bits spell a given number. -/

/-- A value held by the party `sp_id` alone. -/
def heldBySp (k : ℕ) : Share n PrimeField := (0 : Share n PrimeField) + ofNat k

@[simp] theorem secret_heldBySp (k : ℕ) : secret (heldBySp k : Share n PrimeField) = k := by
  rw [heldBySp, secret_add_value, secret_zero, zero_add, denote_eq_toZMod, toZMod_ofNat]

/-- One draw for each bit of `r`: the root `1` for a set bit, `-1` for a clear
one. -/
def spelling (r : ℕ) : Fin l → List (RbsDraw n) := fun i =>
  [⟨heldBySp (if bitsOf l r i then 1 else p - 1), .constant n⟩]

theorem subRBVS_spelling {r : ℕ} (hr : r < 2 ^ l) :
    ∃ r_shares, subRBVS (spelling r : Fin l → List (RbsDraw n)) = .ok r_shares ∧
      reconsBits r_shares = r := by
  have hval : ∀ b : Bool, ((if b then 1 else p - 1 : ℕ) : ZMod p).val = if b then 1 else p - 1 := by
    intro b
    rw [ZMod.val_natCast, Nat.mod_eq_of_lt]
    cases b <;> norm_num [p]
  have hne : ∀ i : Fin l,
      secret (heldBySp (if bitsOf l r i then 1 else p - 1) : Share n PrimeField) ≠ 0 := by
    intro i
    rw [secret_heldBySp, ← ZMod.val_ne_zero, hval]
    cases bitsOf l r i <;> norm_num [p]
  obtain ⟨r_shares, hok, hbits⟩ := subRBVS_of_ne_zero
    (fun i => ⟨heldBySp (if bitsOf l r i then 1 else p - 1), .constant n⟩) hne
  refine ⟨r_shares, hok, hbits.trans ?_⟩
  rw [← value_bitsOf_of_lt hr]
  congr 1
  funext i
  rw [secret_heldBySp, hval, value_bitsOf_of_lt hr]
  cases bitsOf l r i <;> norm_num [p]

theorem belowP_spelling {r : ℕ} (hr : r < p) : BelowP (spelling r : Fin l → List (RbsDraw n)) := by
  obtain ⟨r_shares, hok, hbits⟩ := subRBVS_spelling (n := n) (hr.trans p_lt_two_pow)
  exact ⟨r_shares, hok, by rwa [hbits]⟩

theorem recons_heldBySp_one : (recons (heldBySp 1 : Share n PrimeField)).value ≠ 0 := by
  have h : recons (heldBySp 1 : Share n PrimeField) = ofNat 1 :=
    recons_eq_of_secret (secret_heldBySp 1)
  rw [h, ofNat_value_of_lt (by norm_num [p])]
  exact one_ne_zero

def FanInDraws.ones : FanInDraws n where
  b_shares _ := heldBySp 1
  b_dash_shares _ := heldBySp 1
  b_ne_zero _ := recons_heldBySp_one
  b_dash_ne_zero _ := recons_heldBySp_one
  tripleB _ := .constant n
  tripleA _ := .constant n
  tripleC _ := .constant n

def BitwiseLessThanDraws.ones : BitwiseLessThanDraws n where
  tripleAb _ := .constant n
  prefixOr := ⟨fun _ => .ones, fun _ => .ones, fun _ => .ones, fun _ _ => .constant n,
    fun _ _ => .constant n⟩
  tripleEb _ := .constant n

def HalfLessThanDraws.ones (r : ℕ) : HalfLessThanDraws n where
  rbvs := spelling r
  pftobs _ := ⟨ofNat 1, fun _ => ofNat 1⟩
  bitwise := .ones
  triple1 := .constant n
  triple2 := .constant n

/-! ### Correctness -/

/-- **`comparisonTest` decides the order of the whole field.** For any number of parties below
`p`, any sharing of two numbers below `p` and any random bits that spell numbers below `p`, it
returns a share of `1` when the first number is the smaller one, and of `0` otherwise. -/
theorem comparisonTest_correct (hn : n < p) {a b : ℕ} (ha : a < p) (hb : b < p)
    {a_share b_share : Share n PrimeField} (hra : recons a_share = ofNat a)
    (hrb : recons b_share = ofNat b) (draws : ComparisonDraws n) (hw : BelowP draws.w.rbvs)
    (hx : BelowP draws.x.rbvs) (hy : BelowP draws.y.rbvs) :
    ∃ z, comparisonTest draws a_share b_share = .ok z ∧
      recons z = ofNat (if a < b then 1 else 0) := by
  obtain ⟨z, hok, hbit⟩ := comparisonTest_spec hn draws hw hx hy a_share b_share
  rw [secret_val_of_recons ha hra, secret_val_of_recons hb hrb] at hbit
  exact ⟨z, hok, by rw [hbit.recons_eq, ite_eq_toNat]⟩

/-- `3 = (p - 1) + 2 + 2` and `p - 2 = 1 + (p - 4) + 1`, compared. -/
theorem comparisonTest_correct_three :
    ∃ z, @comparisonTest 3 threeParties
        ⟨@HalfLessThanDraws.ones 3 threeParties 7, @HalfLessThanDraws.ones 3 threeParties 0,
          @HalfLessThanDraws.ones 3 threeParties (p - 1), .constant 3, .constant 3⟩
        ⟨![ofNat (p - 1), ofNat 2, ofNat 2]⟩ ⟨![ofNat 1, ofNat (p - 4), ofNat 1]⟩ = .ok z ∧
      recons z = ofNat 1 :=
  @comparisonTest_correct 3 threeParties (by norm_num [p]) 3 (p - 2) (by norm_num [p])
    (by norm_num [p]) _ _ (by decide +kernel) (by decide +kernel) _
    (@belowP_spelling 3 threeParties _ (by norm_num [p]))
    (@belowP_spelling 3 threeParties _ (by norm_num [p]))
    (@belowP_spelling 3 threeParties _ (by norm_num [p]))

end QuickMpc.Share
