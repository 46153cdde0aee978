import Mathlib.Data.List.FinRange
import QuickMpc.FixedPoint
import QuickMpc.Lib.AdditiveSharing
import QuickMpc.Residue

/-!
# QuickMpc.Share

`Share<SV>`, seen from all parties at once: a `Share n SV` has the value that
each of the `n` parties stores in its own `Share` object. A protocol runs the
same code at every party, so an operator of the class becomes one function on
these families.

* A public constant is *added* by the party `sp_id` only (`+=`, `-=` with an
  `SV`), but *multiplied* in by everybody, and the constructor
  `Share(const SV &)` stores it at everybody.
* `open` followed by `recons` gives every party the sum of all the values, in
  the order of the party ids, where the values of the other parties have been
  printed and parsed on the way (`reconsAt`). All parties obtain the same
  value, called `recons`.
* `AdditiveValue` says what the two value types have in common for the proofs:
  the sums live in a commutative group (`ZMod p`, `ℤ`), in which a share has a
  `secret`.
-/

namespace QuickMpc

/-- The part of `Config` that the protocols read. -/
class Config (n : ℕ) where
  sp_id : Fin n

/-- Three parties, the second of them the party `sp_id`. -/
@[reducible] def threeParties : Config 3 := ⟨(Fin.last 1).castSucc⟩

/-- What `Share<SV>` needs of its value type. -/
class ShareValue (SV : Type) extends Zero SV, Add SV, Sub SV, Neg SV, Mul SV where
  /-- `SV(v.getStrVal())`: a value after its way through a message. -/
  received : SV → SV

/-- A value type whose addition is that of a group, seen through `denote`. -/
class AdditiveValue (SV : Type) (G : outParam Type) [AddCommGroup G] extends ShareValue SV where
  denote : SV → G
  denote_zero : denote 0 = 0
  denote_add : ∀ x y, denote (x + y) = denote x + denote y
  denote_sub : ∀ x y, denote (x - y) = denote x - denote y
  denote_neg : ∀ x, denote (-x) = -denote x
  denote_received : ∀ x, denote (received x) = denote x
  /-- The way through a message is not visible in a sum. -/
  add_received : ∀ x y, x + received y = x + y

attribute [simp] AdditiveValue.denote_zero AdditiveValue.denote_add AdditiveValue.denote_sub
  AdditiveValue.denote_neg AdditiveValue.denote_received AdditiveValue.add_received

/-- A `PrimeField` is read back through its checked constructor: a stored `p`
arrives as `0`. -/
instance : AdditiveValue PrimeField (ZMod PrimeField.p) where
  received v := PrimeField.ofNat v.value
  denote := PrimeField.toZMod
  denote_zero := PrimeField.toZMod_zero
  denote_add := PrimeField.toZMod_add
  denote_sub := PrimeField.toZMod_sub
  denote_neg := PrimeField.toZMod_neg
  denote_received v := PrimeField.toZMod_ofNat v.value
  add_received x y := by
    ext
    simp [PrimeField.add_value]

/-- The decimal text of a `FixedPoint` has more places than its resolution. -/
instance : AdditiveValue FixedPoint ℤ where
  received v := v
  denote := FixedPoint.value
  denote_zero := rfl
  denote_add _ _ := rfl
  denote_sub _ _ := rfl
  denote_neg _ := rfl
  denote_received _ := rfl
  add_received _ _ := rfl

open AdditiveValue (denote)

/-- One share, at all parties. -/
@[ext] structure Share (n : ℕ) (SV : Type) where
  value : Fin n → SV

namespace Share

variable {n : ℕ} {SV : Type}

/-! ### The operators of the class -/

section Operators

variable [ShareValue SV]

/-- The constructor `Share(const SV &value)`: every party stores the value. -/
def ofValue (value : SV) : Share n SV := ⟨fun _ => value⟩

/-- The default constructor. -/
instance : Zero (Share n SV) := ⟨ofValue 0⟩

/-- `operator+=(const Share &)`. -/
instance : Add (Share n SV) := ⟨fun x y => ⟨fun i => x.value i + y.value i⟩⟩

/-- `operator-=(const Share &)`. -/
instance : Sub (Share n SV) := ⟨fun x y => ⟨fun i => x.value i - y.value i⟩⟩

/-- Unary minus. -/
instance : Neg (Share n SV) := ⟨fun x => ⟨fun i => -x.value i⟩⟩

/-- `operator*=(const SV &)`, and `SV * Share` which Boost derives from it. -/
instance : HMul (Share n SV) SV (Share n SV) := ⟨fun x c => ⟨fun i => x.value i * c⟩⟩

instance : HMul SV (Share n SV) (Share n SV) := ⟨fun c x => x * c⟩

/-- `operator/=(const SV &)`. -/
instance [Div SV] : HDiv (Share n SV) SV (Share n SV) := ⟨fun x c => ⟨fun i => x.value i / c⟩⟩

variable [Config n]

/-- `operator+=(const SV &)`: only the party `sp_id` adds. -/
instance : HAdd (Share n SV) SV (Share n SV) :=
  ⟨fun x c => ⟨fun i => if i = Config.sp_id then x.value i + c else x.value i⟩⟩

instance : HAdd SV (Share n SV) (Share n SV) := ⟨fun c x => x + c⟩

/-- `operator-=(const SV &)`: only the party `sp_id` subtracts. -/
instance : HSub (Share n SV) SV (Share n SV) :=
  ⟨fun x c => ⟨fun i => if i = Config.sp_id then x.value i - c else x.value i⟩⟩

/-- `operator-(const SV &, const Share &)`. -/
instance : HSub SV (Share n SV) (Share n SV) := ⟨fun c x => -x + c⟩

end Operators

/-! ### Opening and dealing -/

section Protocol

variable [ShareValue SV]

/-- `open(s)`, then `recons(s)` as the party `party_id` computes it. -/
def reconsAt (party_id : Fin n) (s : Share n SV) : SV :=
  (List.finRange n).foldl
    (fun ret pt_id =>
      ret + if pt_id = party_id then s.value pt_id else ShareValue.received (s.value pt_id)) 0

/-- The value that all parties obtain from `open` and `recons`. -/
def recons (s : Share n SV) : SV :=
  (List.finRange n).foldl (fun ret pt_id => ret + s.value pt_id) 0

/-- The loop of `sharize` at the party `sp_id`: the sum of the values `r` it
draws for the other parties. -/
def r_sum [Config n] (r : Fin n → SV) : SV :=
  (List.finRange n).foldl
    (fun acc pt_id => if pt_id = Config.sp_id then acc else acc + r pt_id) 0

/-- `sharize(secret)`: the party `sp_id` draws a value for every other party,
sends it, and keeps what is missing. -/
def sharize [Config n] (secret : SV) (r : Fin n → SV) : Share n SV :=
  ⟨fun i => if i = Config.sp_id then secret - r_sum r else ShareValue.received (r i)⟩

end Protocol

/-! ### The secret of a share -/

section Secret

variable {G : Type} [AddCommGroup G] [AdditiveValue SV G]

/-- The value that is shared, in the group of the value type. -/
def secret (s : Share n SV) : G := AdditiveSharing.secret fun i => denote (s.value i)

/-- All parties reconstruct the same value. -/
theorem reconsAt_eq_recons (party_id : Fin n) (s : Share n SV) :
    reconsAt party_id s = recons s := by
  unfold reconsAt recons
  congr 1
  funext ret pt_id
  by_cases h : pt_id = party_id
  · rw [if_pos h]
  · rw [if_neg h, AdditiveValue.add_received]

/-- A loop that adds up values denotes their sum. -/
theorem denote_foldl_add {ι : Type} (f : ι → SV) :
    ∀ (is : List ι) (acc : SV),
      denote (is.foldl (fun ret i => ret + f i) acc)
        = denote acc + (is.map fun i => denote (f i)).sum
  | [], acc => by simp
  | i :: is, acc => by
      rw [List.foldl_cons, denote_foldl_add f is, List.map_cons, List.sum_cons,
        AdditiveValue.denote_add, add_assoc]

@[simp] theorem denote_recons (s : Share n SV) : denote (recons s) = secret s := by
  rw [recons, denote_foldl_add, AdditiveValue.denote_zero, zero_add, secret,
    AdditiveSharing.secret, ← List.sum_ofFn, List.ofFn_eq_map]

@[simp] theorem secret_add (x y : Share n SV) : secret (x + y) = secret x + secret y := by
  rw [secret, secret, secret, ← AdditiveSharing.secret_add]
  congr 1
  funext i
  exact AdditiveValue.denote_add _ _

@[simp] theorem secret_sub (x y : Share n SV) : secret (x - y) = secret x - secret y := by
  rw [secret, secret, secret, ← AdditiveSharing.secret_sub]
  congr 1
  funext i
  exact AdditiveValue.denote_sub _ _

@[simp] theorem secret_neg (x : Share n SV) : secret (-x) = -secret x := by
  rw [secret, secret, ← AdditiveSharing.secret_neg]
  congr 1
  funext i
  exact AdditiveValue.denote_neg _

/-- What every party stores is shared with the multiplicity of the parties. -/
theorem secret_ofValue (c : SV) : secret (ofValue c : Share n SV) = n • denote c := by
  rw [secret, show (fun i => denote ((ofValue c : Share n SV).value i)) = fun _ => denote c from rfl,
    AdditiveSharing.secret_const, Fintype.card_fin]

@[simp] theorem secret_zero : secret (0 : Share n SV) = 0 := by
  show secret (ofValue 0 : Share n SV) = 0
  rw [secret_ofValue, AdditiveValue.denote_zero, smul_zero]

section Public

variable [Config n]

@[simp] theorem secret_add_value (x : Share n SV) (c : SV) :
    secret (x + c) = secret x + denote c := by
  rw [secret, secret, ← AdditiveSharing.secret_addAt Config.sp_id]
  congr 1
  funext i
  show denote (if i = Config.sp_id then x.value i + c else x.value i) = _
  unfold AdditiveSharing.addAt
  split
  · exact AdditiveValue.denote_add _ _
  · rfl

@[simp] theorem secret_value_add (c : SV) (x : Share n SV) :
    secret (c + x) = denote c + secret x := by
  rw [add_comm (denote c)]
  exact secret_add_value x c

@[simp] theorem secret_sub_value (x : Share n SV) (c : SV) :
    secret (x - c) = secret x - denote c := by
  rw [sub_eq_add_neg, secret, secret, ← AdditiveSharing.secret_addAt Config.sp_id]
  congr 1
  funext i
  show denote (if i = Config.sp_id then x.value i - c else x.value i) = _
  unfold AdditiveSharing.addAt
  split
  · rw [AdditiveValue.denote_sub, sub_eq_add_neg]
  · rfl

@[simp] theorem secret_value_sub (c : SV) (x : Share n SV) :
    secret (c - x) = denote c - secret x := by
  show secret (-x + c) = _
  rw [secret_add_value, secret_neg, sub_eq_neg_add]

/-- Skipping the party `sp_id` in the loop leaves the sum over the others. -/
theorem denote_r_sum (r : Fin n → SV) :
    denote (r_sum r) = ∑ i ∈ Finset.univ.erase Config.sp_id, denote (r i) := by
  have hstep : ∀ (acc : SV) (i : Fin n), denote (if i = Config.sp_id then acc else acc + r i)
      = denote acc + if i = Config.sp_id then 0 else denote (r i) := by
    intro acc i
    split
    · rw [add_zero]
    · exact AdditiveValue.denote_add _ _
  have hloop : ∀ (is : List (Fin n)) (acc : SV),
      denote (is.foldl (fun acc i => if i = Config.sp_id then acc else acc + r i) acc)
        = denote acc + (is.map fun i => if i = Config.sp_id then 0 else denote (r i)).sum := by
    intro is
    induction is with
    | nil => intro acc; simp
    | cons i is ih =>
        intro acc
        rw [List.foldl_cons, ih, hstep, List.map_cons, List.sum_cons, add_assoc]
  rw [r_sum, hloop, AdditiveValue.denote_zero, zero_add, ← List.ofFn_eq_map, List.sum_ofFn,
    ← Finset.add_sum_erase _ _ (Finset.mem_univ Config.sp_id), if_pos rfl, zero_add]
  refine Finset.sum_congr rfl fun i hi => ?_
  rw [if_neg (Finset.mem_erase.mp hi).1]

/-- `sharize` shares its argument, whatever is drawn. -/
@[simp] theorem secret_sharize (x : SV) (r : Fin n → SV) : secret (sharize x r) = denote x := by
  rw [secret, ← AdditiveSharing.secret_deal Config.sp_id (denote x) fun i => denote (r i)]
  congr 1
  funext i
  unfold sharize AdditiveSharing.deal
  dsimp only
  split
  · rw [AdditiveValue.denote_sub, denote_r_sum]
  · exact AdditiveValue.denote_received _

end Public

end Secret

/-! ### Shares of field elements -/

section Field

open PrimeField

@[simp] theorem denote_eq_toZMod (x : PrimeField) : denote x = toZMod x := rfl

theorem toZMod_recons (s : Share n PrimeField) : toZMod (recons s) = secret s := denote_recons s

@[simp] theorem secret_mul_value (x : Share n PrimeField) (c : PrimeField) :
    secret (x * c) = toZMod c * secret x := by
  rw [secret, secret, ← AdditiveSharing.secret_mul_left]
  congr 1
  funext i
  show toZMod (x.value i * c) = _
  rw [toZMod_mul, mul_comm]
  rfl

@[simp] theorem secret_value_mul (c : PrimeField) (x : Share n PrimeField) :
    secret (c * x) = toZMod c * secret x := secret_mul_value x c

/-- What has been reconstructed is reduced, as soon as there is a party. -/
theorem recons_value_lt [Config n] (s : Share n PrimeField) : (recons s).value < p := by
  have hloop : ∀ (is : List (Fin n)) (acc : PrimeField), acc.value < p →
      (is.foldl (fun ret pt_id => ret + s.value pt_id) acc).value < p := by
    intro is
    induction is with
    | nil => exact fun _ h => h
    | cons i is ih => exact fun acc _ => ih _ (Nat.mod_lt _ p_pos)
  exact hloop _ 0 p_pos

theorem recons_value [Config n] (s : Share n PrimeField) : (recons s).value = (secret s).val := by
  rw [value_eq_val (recons_value_lt s), toZMod_recons]

/-- A reconstructed value is recognised by the residue of the secret. -/
theorem recons_eq_of_secret [Config n] {s : Share n PrimeField} {k : ℕ}
    (h : secret s = (k : ZMod p)) : recons s = ofNat k := by
  refine eq_of_toZMod_eq (recons_value_lt s) (Nat.mod_lt _ p_pos) ?_
  rw [toZMod_recons, h, toZMod_ofNat]

/-- The residue of the secret, from the reconstructed value. -/
theorem secret_val_of_recons [Config n] {s : Share n PrimeField} {k : ℕ} (hk : k < p)
    (h : recons s = ofNat k) : (secret s).val = k := by
  rw [← recons_value, h, ofNat_value_of_lt hk]

end Field

/-! ### Shares of fixed-point numbers -/

section FixedPoint

@[simp] theorem denote_eq_value (x : FixedPoint) : denote x = x.value := rfl

theorem secret_eq_sum (x : Share n FixedPoint) : secret x = ∑ i, (x.value i).value := rfl

theorem recons_value_fixedPoint (s : Share n FixedPoint) : (recons s).value = secret s :=
  denote_recons s

/-- Multiplication by a whole public number is exact. -/
theorem secret_mul_ofInt (x : Share n FixedPoint) (k : ℤ) :
    secret (x * FixedPoint.ofInt k) = secret x * k := by
  rw [mul_comm, secret, secret, ← AdditiveSharing.secret_mul_left]
  congr 1
  funext i
  show (x.value i * FixedPoint.ofInt k).value = _
  rw [FixedPoint.mul_ofInt_value, mul_comm]
  rfl

end FixedPoint

end Share

end QuickMpc
