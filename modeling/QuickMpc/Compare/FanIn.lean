import Mathlib.Data.Nat.Digits.Defs
import QuickMpc.Compare.RandomBits

/-!
# QuickMpc.Compare.FanIn

The gates with `l` inputs, `subUnboundedFanInOr` and `subUnboundedFanInAnd`. The
inputs are bits, so `A = 1 + (sum of the inputs)` is one of `1, …, 65`; the
powers of `A` are obtained behind multiplicative masks in a constant number of
openings (`AdditiveSharing.masked_chain`), and a polynomial of degree `64` maps
`A` to the output bit.

The two gates differ in the table of coefficients only, so their common code is
`subUnboundedFanIn`, with the polynomial as a parameter.
-/

namespace QuickMpc.Share

open PrimeField MsbBits

variable {n : ℕ}

/-! ### The polynomials -/

/-- `f_65_or_coefficient`, the constant term first. -/
def f_65_or_coefficient : List ℕ :=
  [18446744073709551493, 2575104960981055254, 4007652756006865783, 4100635666949508952,
   13520771370602560384, 10644542489970931539, 13748537863183121296, 11359914866391222416,
   11247219807349180267, 10960075435459066463, 16764588636202349672, 17506652363315270202,
   16166875542546532309, 3964617125041583173, 11719255904316824165, 10424936898019828672,
   4205127743406738449, 14520034406506226582, 13839012095455519695, 10500139574289659412,
   2962336181382223452, 6767675871271430215, 6933421926280334339, 15958841553693851655,
   15160740279984758829, 7422142630459751295, 8493480566397125402, 5197722549818600602,
   14735780618044279429, 1253747699690153233, 16331314050017923346, 8939522708637072316,
   14886963398089785966, 9073751420990236602, 12505410719513991034, 2125245660187079351,
   15846075763828250700, 3886182126918060030, 8108428213219044342, 7230779232974847667,
   16872135629383927467, 6378144199063646497, 17663587804867607672, 16148746862917335565,
   15537620600452524460, 5258026759045415754, 13903054235566673560, 13960238641761739087,
   17636644537631434137, 14478303024279957496, 2874963986830092253, 3027861925099033411,
   3827102190137661457, 12528878074288803348, 5215393447045447612, 9586533887964671917,
   3356091034157294274, 2902984712153508625, 6333090465997358509, 9996528576620247823,
   11806089667835996467, 15792408873328964335, 14951514151164516184, 2230240327554514938,
   17774600287293087221]

/-- `f_65_and_coefficient`. -/
def f_65_and_coefficient : List ℕ :=
  [1, 1095567251290110014, 15603599130927532848, 3927973679664754768, 13253920145236317331,
   5072689204291235733, 3435840349470671764, 16549778763406408630, 12459576446030141042,
   10696557716079594807, 3197018912709867365, 9970630734852788482, 10106868463622397398,
   6870526778099185113, 16162773849234898198, 6512084038109877353, 17791231165580233294,
   4939553442392971102, 6613779837673282520, 6112835044719072700, 11561852329015516476,
   3241087653075867336, 11115359391888299599, 1734929295488186025, 11958404333307668373,
   1438215050425705879, 11073690707525551423, 17532628264929026480, 6082710703763137390,
   5125529121156609847, 3536240549677738615, 168123567554747533, 17222647251913610444,
   6314115150414057577, 5720266728093558989, 11315745394801430483, 13585209705064903598,
   10609659846084906928, 6341781282790677798, 394864220565298862, 5249871464994426133,
   13296832158245447365, 12801767259528789327, 8166545265620715462, 12622067858020089155,
   10852787575795086238, 15358952924301378654, 14141418894305759068, 13215619082908852856,
   9900973216959770499, 11398882017370494561, 1875791515713213273, 18179510337970552075,
   12349041994205078879, 4559441349647564738, 4543633939816633313, 9247229033112764012,
   9230709934058803069, 12860062884571458050, 14898881793951465380, 9282848170176021024,
   16257860633325038337, 546853837372292893, 3893473855680099452, 672143786416464336]

/-- At `1 + k`, for `k` set bits, the first table interpolates the
disjunction. -/
theorem f_65_or_coefficient_eval :
    ∀ k < 65, Nat.ofDigits (1 + k) f_65_or_coefficient % p = (decide (k ≠ 0)).toNat := by
  decide +kernel

/-- At `1 + k` the second table interpolates the conjunction of `64` bits. -/
theorem f_65_and_coefficient_eval :
    ∀ k < 65, Nat.ofDigits (1 + k) f_65_and_coefficient % p = (decide (k = 64)).toNat := by
  decide +kernel

section Code

variable [Config n]

/-- The common body of `f65Or` and `f65And`, for a table of coefficients. -/
def f65 (coefficient : List ℕ) (A_shares : Fin l → Share n PrimeField) : Share n PrimeField :=
  let ans := (List.finRange l).foldl
    (fun ans i => ans + ofNat (coefficient.getD (i.val + 1) 0) * A_shares i) (ofValue (ofNat 0))
  ans + ofNat (coefficient.getD 0 0)

/-- `f65Or`. -/
def f65Or : (Fin l → Share n PrimeField) → Share n PrimeField := f65 f_65_or_coefficient

/-- `f65And`. -/
def f65And : (Fin l → Share n PrimeField) → Share n PrimeField := f65 f_65_and_coefficient

end Code

/-- A list of coefficients as a sum of powers. -/
theorem ofDigits_eq_sum_range {R : Type*} [CommSemiring R] (z : R) :
    ∀ coefs : List ℕ,
      Nat.ofDigits z coefs = ∑ i ∈ Finset.range coefs.length, (coefs.getD i 0 : R) * z ^ i
  | [] => by simp [Nat.ofDigits]
  | c :: coefs => by
      rw [show Nat.ofDigits z (c :: coefs) = c + z * Nat.ofDigits z coefs from rfl,
        ofDigits_eq_sum_range z coefs, List.length_cons, Finset.sum_range_succ', Finset.mul_sum,
        add_comm]
      congr 1
      · refine Finset.sum_congr rfl fun i _ => ?_
        rw [List.getD_cons_succ, pow_succ]
        ring
      · simp

/-- A loop `ret += f(i)` over shares. -/
theorem secret_foldl_add {ι : Type} (f : ι → Share n PrimeField) :
    ∀ (is : List ι) (acc : Share n PrimeField),
      secret (is.foldl (fun ret i => ret + f i) acc)
        = secret acc + (is.map fun i => secret (f i)).sum
  | [], acc => by simp
  | i :: is, acc => by
      rw [List.foldl_cons, secret_foldl_add f is, List.map_cons, List.sum_cons, secret_add,
        add_assoc]

theorem secret_foldl_finRange {m : ℕ} (f : Fin m → Share n PrimeField) :
    secret ((List.finRange m).foldl (fun ret i => ret + f i) (ofValue (ofNat 0)))
      = ∑ i, secret (f i) := by
  rw [secret_foldl_add, secret_ofValue, denote_eq_toZMod, toZMod_ofNat, Nat.cast_zero, smul_zero,
    zero_add, ← List.ofFn_eq_map, List.sum_ofFn]

variable [Config n]

/-- On the powers of `z` the code evaluates the polynomial at `z`. -/
theorem secret_f65 {coefficient : List ℕ} (hlen : coefficient.length = l + 1)
    {A_shares : Fin l → Share n PrimeField} {z : ZMod p}
    (h : ∀ i : Fin l, secret (A_shares i) = z ^ (i.val + 1)) :
    secret (f65 coefficient A_shares) = Nat.ofDigits z coefficient := by
  rw [f65, secret_add_value, secret_foldl_finRange, denote_eq_toZMod, toZMod_ofNat,
    ofDigits_eq_sum_range, hlen, Finset.sum_range_succ', pow_zero, mul_one, Finset.sum_range]
  refine congrArg (· + _) (Finset.sum_congr rfl fun i _ => ?_)
  rw [secret_value_mul, toZMod_ofNat, h i]

/-- A table that interpolates `out` maps `1 + k` to that bit. -/
theorem ofDigits_eq_bit {coefficient : List ℕ} {k : ℕ} {out : Bool}
    (h : Nat.ofDigits (1 + k) coefficient % p = out.toNat) :
    Nat.ofDigits (1 + (k : ZMod p)) coefficient = bit out := by
  have hcast : ((Nat.ofDigits (1 + k) coefficient : ℕ) : ZMod p)
      = Nat.ofDigits (1 + (k : ZMod p)) coefficient := by
    rw [Nat.coe_ofDigits]
    push_cast
    rfl
  rw [← hcast, ← ZMod.natCast_mod, h, bit_eq_natCast]

/-! ### The gates -/

/-- What one gate draws: two families of masks that do not reconstruct to zero,
and the triples of its three bulk multiplications. -/
structure FanInDraws (n : ℕ) where
  b_shares : Fin l → Share n PrimeField
  b_dash_shares : Fin l → Share n PrimeField
  b_ne_zero : ∀ i, (recons (b_shares i)).value ≠ 0
  b_dash_ne_zero : ∀ i, (recons (b_dash_shares i)).value ≠ 0
  tripleB : Fin l → PrimeFieldTriple n
  tripleA : Fin l → PrimeFieldTriple n
  tripleC : Fin l → PrimeFieldTriple n

/-- The loop `tmp *= c_recons[i]`, up to and including round `i`. -/
def runningProduct {m : ℕ} (c_recons : Fin m → PrimeField) : (i : ℕ) → i < m → PrimeField
  | 0, h => ofNat 1 * c_recons ⟨0, h⟩
  | i + 1, h => runningProduct c_recons i (by omega) * c_recons ⟨i + 1, h⟩

/-- The inverses of the masks, from the opened products `B`. -/
def b_inverse_shares (draws : FanInDraws n) : Fin l → Share n PrimeField :=
  let B_shares := bulkMul (fun i => (draws.tripleB i).toTriple) draws.b_shares draws.b_dash_shares
  fun i => (recons (B_shares i)).getInv * draws.b_dash_shares i

/-- `tmp_b_shares`: the masks moved up by one index, with a share of `1` in
front (all parties store the inverse of their number). -/
def tmp_b_shares (n_inv : PrimeField) (draws : FanInDraws n) : Fin l → Share n PrimeField :=
  fun i => if i.val = 0 then ofValue n_inv
    else draws.b_shares ⟨i.val - 1, lt_of_le_of_lt (Nat.sub_le _ _) i.isLt⟩

/-- The opened quotients: `A` times the previous mask, over the mask. -/
def c_recons (n_inv : PrimeField) (draws : FanInDraws n) (A_share : Share n PrimeField) :
    Fin l → PrimeField :=
  let c_shares := bulkMul (fun i => (draws.tripleA i).toTriple) (fun _ => A_share)
    (b_inverse_shares draws)
  let c_shares := bulkMul (fun i => (draws.tripleC i).toTriple) c_shares (tmp_b_shares n_inv draws)
  fun i => recons (c_shares i)

/-- The common body of `subUnboundedFanInOr` and `subUnboundedFanInAnd`. -/
def subUnboundedFanIn (f65 : (Fin l → Share n PrimeField) → Share n PrimeField)
    (draws : FanInDraws n) (a_shares : Fin l → Share n PrimeField) :
    Run (Share n PrimeField) := do
  let A_share := (List.finRange l).foldl (fun A_share i => A_share + a_shares i)
    (ofValue (ofNat 0)) + ofNat 1
  let n_parties ← construct n
  let c_recons := c_recons n_parties.getInv draws A_share
  let A_shares := fun i : Fin l => runningProduct c_recons i i.isLt * draws.b_shares i
  return f65 A_shares

/-- `subUnboundedFanInOr`. -/
def subUnboundedFanInOr : FanInDraws n → (Fin l → Share n PrimeField) → Run (Share n PrimeField) :=
  subUnboundedFanIn f65Or

/-- `subUnboundedFanInAnd`. -/
def subUnboundedFanInAnd :
    FanInDraws n → (Fin l → Share n PrimeField) → Run (Share n PrimeField) :=
  subUnboundedFanIn f65And

/-- The secret of the `i`-th mask, as a sequence. -/
def mask (draws : FanInDraws n) (i : ℕ) : ZMod p :=
  if h : i < l then secret (draws.b_shares ⟨i, h⟩) else 1

theorem secret_ne_zero_of_recons {s : Share n PrimeField} (h : (recons s).value ≠ 0) :
    secret s ≠ 0 := by
  intro hzero
  rw [recons_value, hzero, ZMod.val_zero] at h
  exact h rfl

theorem mask_ne_zero (draws : FanInDraws n) (i : ℕ) : mask draws i ≠ 0 := by
  unfold mask
  split
  · exact secret_ne_zero_of_recons (draws.b_ne_zero _)
  · exact one_ne_zero

theorem secret_b_inverse_shares (draws : FanInDraws n) (i : Fin l) :
    secret (b_inverse_shares draws i) = (secret (draws.b_shares i))⁻¹ := by
  have hdash := secret_ne_zero_of_recons (draws.b_dash_ne_zero i)
  rw [b_inverse_shares, secret_value_mul, toZMod_getInv, toZMod_recons, secret_bulkMul, mul_inv,
    mul_assoc, inv_mul_cancel₀ hdash, mul_one]

/-- What is opened are the quotients of the masked chain. -/
theorem toZMod_c_recons {n_inv : PrimeField} (hn : (n : ZMod p) * toZMod n_inv = 1)
    (draws : FanInDraws n) (A_share : Share n PrimeField) :
    ∀ (i : ℕ) (h : i < l), toZMod (c_recons n_inv draws A_share ⟨i, h⟩)
      = AdditiveSharing.maskedQuotient (secret A_share) (mask draws) i
  | 0, h => by
      have hone : secret (tmp_b_shares n_inv draws ⟨0, h⟩) = 1 := by
        rw [tmp_b_shares, if_pos rfl, secret_ofValue, nsmul_eq_mul]
        exact hn
      rw [c_recons, toZMod_recons, secret_bulkMul, secret_bulkMul, secret_b_inverse_shares, hone,
        mul_one, AdditiveSharing.maskedQuotient, mask, dif_pos h]
  | i + 1, h => by
      have hprev : secret (tmp_b_shares n_inv draws ⟨i + 1, h⟩) = mask draws i := by
        rw [tmp_b_shares, if_neg (Nat.succ_ne_zero i), mask, dif_pos (by omega)]
        rfl
      rw [c_recons, toZMod_recons, secret_bulkMul, secret_bulkMul, secret_b_inverse_shares, hprev,
        AdditiveSharing.maskedQuotient, mask, mask, dif_pos h]
      ring

theorem toZMod_runningProduct {m : ℕ} {c_recons : Fin m → PrimeField} {C : ℕ → ZMod p}
    (hC : ∀ i (h : i < m), toZMod (c_recons ⟨i, h⟩) = C i) :
    ∀ i (h : i < m), toZMod (runningProduct c_recons i h) = ∏ j ∈ Finset.range (i + 1), C j
  | 0, h => by
      rw [runningProduct, toZMod_mul, toZMod_ofNat, Nat.cast_one, one_mul, hC, Finset.prod_range_one]
  | i + 1, h => by
      rw [runningProduct, toZMod_mul, toZMod_runningProduct hC i, hC, Finset.prod_range_succ _ (i + 1)]

/-- The `A_share` of the gates: `1` plus the sum of the inputs. -/
def A_share (a_shares : Fin l → Share n PrimeField) : Share n PrimeField :=
  (List.finRange l).foldl (fun A_share i => A_share + a_shares i) (ofValue (ofNat 0)) + ofNat 1

/-- The `A_shares` of the gates, which the polynomial is applied to. -/
def A_shares (draws : FanInDraws n) (a_shares : Fin l → Share n PrimeField) :
    Fin l → Share n PrimeField :=
  fun i => runningProduct (c_recons (ofNat n).getInv draws (A_share a_shares)) i i.isLt
    * draws.b_shares i

/-- The number of the parties is in the range of the constructor. -/
theorem subUnboundedFanIn_eq (hn : n < p) (f65 : (Fin l → Share n PrimeField) → Share n PrimeField)
    (draws : FanInDraws n) (a_shares : Fin l → Share n PrimeField) :
    subUnboundedFanIn f65 draws a_shares = .ok (f65 (A_shares draws a_shares)) := by
  rw [subUnboundedFanIn, construct_natCast hn.le]
  rfl

theorem secret_A_share (a_shares : Fin l → Share n PrimeField) :
    secret (A_share a_shares) = 1 + ∑ i, secret (a_shares i) := by
  rw [A_share, secret_add_value, secret_foldl_finRange, denote_eq_toZMod, toZMod_ofNat,
    Nat.cast_one, add_comm]

/-- The opened quotients multiply up to the powers of `A`: the masks cancel. -/
theorem secret_A_shares (hn : n < p) (draws : FanInDraws n)
    (a_shares : Fin l → Share n PrimeField) (i : Fin l) :
    secret (A_shares draws a_shares i) = (1 + ∑ i, secret (a_shares i)) ^ (i.val + 1) := by
  have hpos : n ≠ 0 := (Nat.zero_lt_of_lt (Config.sp_id (n := n)).isLt).ne'
  have hninv : (n : ZMod p) * toZMod (ofNat n).getInv = 1 := by
    rw [toZMod_getInv, toZMod_ofNat]
    exact mul_inv_cancel₀ (mt (natCast_eq_zero_iff hn).mp hpos)
  have hchain := AdditiveSharing.masked_chain (secret (A_share a_shares)) (mask draws) i
    fun j _ => mask_ne_zero draws j
  have hmask : mask draws i = secret (draws.b_shares i) := dif_pos i.isLt
  rw [A_shares, secret_value_mul,
    toZMod_runningProduct (toZMod_c_recons hninv draws (A_share a_shares)), ← hmask, hchain,
    secret_A_share]

/-- The gate applies the polynomial of its table to `1` plus the sum of its
inputs. Neither the masks nor the triples matter. -/
theorem subUnboundedFanIn_spec (hn : n < p) (coefficient : List ℕ)
    (hlen : coefficient.length = l + 1) (draws : FanInDraws n)
    (a_shares : Fin l → Share n PrimeField) :
    ∃ ans, subUnboundedFanIn (f65 coefficient) draws a_shares = .ok ans ∧
      secret ans = Nat.ofDigits (1 + ∑ i, secret (a_shares i)) coefficient :=
  ⟨_, subUnboundedFanIn_eq hn _ draws a_shares,
    secret_f65 hlen fun i => secret_A_shares hn draws a_shares i⟩

/-- On bits the gate computes what its table interpolates at their number. -/
theorem subUnboundedFanIn_bit (hn : n < p) {coefficient : List ℕ} {out : ℕ → Bool}
    (hlen : coefficient.length = l + 1)
    (heval : ∀ k < 65, Nat.ofDigits (1 + k) coefficient % p = (out k).toNat)
    (draws : FanInDraws n) {a_shares : Fin l → Share n PrimeField} {x : Fin l → Bool}
    (h : ∀ i, IsBit (a_shares i) (x i)) :
    ∃ ans, subUnboundedFanIn (f65 coefficient) draws a_shares = .ok ans ∧
      IsBit ans (out (count x)) := by
  obtain ⟨ans, hok, hsecret⟩ := subUnboundedFanIn_spec hn coefficient hlen draws a_shares
  have hsum : ∑ i, secret (a_shares i) = (count x : ZMod p) := by
    rw [← sum_bit]
    exact Finset.sum_congr rfl fun i _ => h i
  have hle : count x ≤ 64 := (count_le_card x).trans_eq (Fintype.card_fin l)
  refine ⟨ans, hok, ?_⟩
  rw [IsBit, hsecret, hsum]
  exact ofDigits_eq_bit (heval _ (Nat.lt_succ_of_le hle))

/-- **`subUnboundedFanInOr`** computes the disjunction of its inputs. -/
theorem subUnboundedFanInOr_spec (hn : n < p) (draws : FanInDraws n)
    {a_shares : Fin l → Share n PrimeField} {x : Fin l → Bool} (h : ∀ i, IsBit (a_shares i) (x i)) :
    ∃ ans, subUnboundedFanInOr draws a_shares = .ok ans ∧
      IsBit ans (decide (∃ i, x i = true)) := by
  have hany : decide (count x ≠ 0) = decide (∃ i, x i = true) := by
    simp [count_eq_zero_iff]
  rw [← hany]
  exact subUnboundedFanIn_bit hn rfl f_65_or_coefficient_eval draws h

end QuickMpc.Share
