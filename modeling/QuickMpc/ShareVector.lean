import QuickMpc.Multiplication

/-!
# QuickMpc.ShareVector

The linear operators of `Share<SV>` on vectors, `recons` of a vector, and what the
linear operators do to reconstructed values.

A vector of length `N` is a family over `Fin N`. The operators with a public value
are loops over the single ones, by way of each other as in the code: `vector - c`
adds `-c`, and `c - vector` adds `c` to the negated vector. Whatever the form, a
public value is added by the party `sp_id` alone (`Homomorphic`).
-/

namespace QuickMpc.Share

open FixedPoint (shift ofDouble)

variable {n N M : ℕ} {SV : Type}

/-! ### The operators on vectors -/

section Operators

variable [ShareValue SV]

/-- `getAdditiveInvVec`. -/
def getAdditiveInvVec (s : Fin N → Share n SV) : Fin N → Share n SV := fun k => -s k

/-- `operator*(const std::vector<Share> &, const SV &)`. -/
def mulVecValue (left : Fin N → Share n SV) (right : SV) : Fin N → Share n SV :=
  fun k => left k * right

/-- `operator*(const SV &, const std::vector<Share> &)`. -/
def valueMulVec (left : SV) (right : Fin N → Share n SV) : Fin N → Share n SV :=
  mulVecValue right left

/-- `operator/(const std::vector<Share> &, const SV &)`. -/
def divVec [Multiprecision] (left : Fin N → Share n FixedPoint) (right : FixedPoint) :
    Fin N → Share n FixedPoint :=
  fun k => left k * (ofDouble 1 / right)

/-- `operator+(const std::vector<Share> &, const std::vector<Share> &)`. -/
def addVec (obj1 : Fin N → Share n SV) (obj2 : Fin M → Share n SV) : Run (Fin N → Share n SV) :=
  if h : N = M then .ok fun i => obj1 i + obj2 (i.cast h)
  else .error (.runtimeError "Not Equal Length operator vector<Share> !!")

/-- `operator-(const std::vector<Share> &, const std::vector<Share> &)`. -/
def subVec (obj1 : Fin N → Share n SV) (obj2 : Fin M → Share n SV) : Run (Fin N → Share n SV) :=
  if h : N = M then .ok fun i => obj1 i - obj2 (i.cast h)
  else .error (.runtimeError "Not Equal Length operator vector<Share> !!")

/-- `recons` of a vector at the party `party_id`: the loop over the parties is the
outer one. -/
def reconsVecAt (party_id : Fin n) (share : Fin N → Share n SV) : Fin N → SV :=
  (List.finRange n).foldl
    (fun ret pt_id i =>
      ret i + if pt_id = party_id then (share i).value pt_id
        else ShareValue.received ((share i).value pt_id))
    fun _ => 0

variable [Config n]

/-- `operator+(const std::vector<Share> &, const SV &)`. -/
def addVecValue (left : Fin N → Share n SV) (right : SV) : Fin N → Share n SV :=
  fun k => left k + right

/-- `operator+(const SV &, const std::vector<Share> &)`. -/
def valueAddVec (left : SV) (right : Fin N → Share n SV) : Fin N → Share n SV :=
  addVecValue right left

/-- `operator-(const std::vector<Share> &, const SV &)`. -/
def subVecValue (left : Fin N → Share n SV) (right : SV) : Fin N → Share n SV :=
  addVecValue left (-right)

/-- `operator-(const SV &, const std::vector<Share> &)`. -/
def valueSubVec (left : SV) (right : Fin N → Share n SV) : Fin N → Share n SV :=
  valueAddVec left (getAdditiveInvVec right)

end Operators

/-- A vector is reconstructed element by element. -/
theorem reconsVecAt_apply [ShareValue SV] (party_id : Fin n) (share : Fin N → Share n SV)
    (k : Fin N) : reconsVecAt party_id share k = reconsAt party_id (share k) := by
  have hloop : ∀ (is : List (Fin n)) (ret : Fin N → SV),
      is.foldl (fun ret pt_id i => ret i + if pt_id = party_id then (share i).value pt_id
          else ShareValue.received ((share i).value pt_id)) ret k
        = is.foldl (fun ret pt_id => ret + if pt_id = party_id then (share k).value pt_id
          else ShareValue.received ((share k).value pt_id)) (ret k) := by
    intro is
    induction is with
    | nil => exact fun _ => rfl
    | cons pt_id is ih =>
        intro ret
        rw [List.foldl_cons, List.foldl_cons, ih]
  exact hloop (List.finRange n) fun _ => 0

/-! ### What is reconstructed -/

open AdditiveValue (denote)

/-- The linear operators on shares, through the values that a party reconstructs. -/
structure Homomorphic (n : ℕ) [Config n] (party_id : Fin n) (SV : Type) {G : Type}
    [AddCommGroup G] [AdditiveValue SV G] : Prop where
  sharize : ∀ (x : SV) (r : Fin n → SV), denote (reconsAt party_id (sharize x r)) = denote x
  add : ∀ x y : Share n SV, denote (reconsAt party_id (x + y))
    = denote (reconsAt party_id x) + denote (reconsAt party_id y)
  sub : ∀ x y : Share n SV, denote (reconsAt party_id (x - y))
    = denote (reconsAt party_id x) - denote (reconsAt party_id y)
  neg : ∀ x : Share n SV, denote (reconsAt party_id (-x)) = -denote (reconsAt party_id x)
  add_value : ∀ (x : Share n SV) (c : SV),
    denote (reconsAt party_id (x + c)) = denote (reconsAt party_id x) + denote c
  value_add : ∀ (c : SV) (x : Share n SV),
    denote (reconsAt party_id (c + x)) = denote c + denote (reconsAt party_id x)
  sub_value : ∀ (x : Share n SV) (c : SV),
    denote (reconsAt party_id (x - c)) = denote (reconsAt party_id x) - denote c
  value_sub : ∀ (c : SV) (x : Share n SV),
    denote (reconsAt party_id (c - x)) = denote c - denote (reconsAt party_id x)
  addVecValue : ∀ {N : ℕ} (x : Fin N → Share n SV) (c : SV) (k : Fin N),
    denote (reconsVecAt party_id (addVecValue x c) k) = denote (reconsVecAt party_id x k) + denote c
  valueAddVec : ∀ {N : ℕ} (c : SV) (x : Fin N → Share n SV) (k : Fin N),
    denote (reconsVecAt party_id (valueAddVec c x) k) = denote c + denote (reconsVecAt party_id x k)
  subVecValue : ∀ {N : ℕ} (x : Fin N → Share n SV) (c : SV) (k : Fin N),
    denote (reconsVecAt party_id (subVecValue x c) k) = denote (reconsVecAt party_id x k) - denote c
  valueSubVec : ∀ {N : ℕ} (c : SV) (x : Fin N → Share n SV) (k : Fin N),
    denote (reconsVecAt party_id (valueSubVec c x) k) = denote c - denote (reconsVecAt party_id x k)
  addVec : ∀ {N : ℕ} (x y : Fin N → Share n SV), ∃ z, addVec x y = .ok z ∧ ∀ k,
    denote (reconsVecAt party_id z k)
      = denote (reconsVecAt party_id x k) + denote (reconsVecAt party_id y k)
  subVec : ∀ {N : ℕ} (x y : Fin N → Share n SV), ∃ z, subVec x y = .ok z ∧ ∀ k,
    denote (reconsVecAt party_id z k)
      = denote (reconsVecAt party_id x k) - denote (reconsVecAt party_id y k)
  length_ne : ∀ {N M : ℕ} (x : Fin N → Share n SV) (y : Fin M → Share n SV), N ≠ M →
    Share.addVec x y = .error (.runtimeError "Not Equal Length operator vector<Share> !!") ∧
    Share.subVec x y = .error (.runtimeError "Not Equal Length operator vector<Share> !!")

section Homomorphic

variable {G : Type} [AddCommGroup G] [AdditiveValue SV G]

theorem denote_reconsAt (party_id : Fin n) (s : Share n SV) :
    denote (reconsAt party_id s) = secret s := by
  rw [reconsAt_eq_recons, denote_recons]

theorem denote_reconsVecAt (party_id : Fin n) (s : Fin N → Share n SV) (k : Fin N) :
    denote (reconsVecAt party_id s k) = secret (s k) := by
  rw [reconsVecAt_apply, denote_reconsAt]

variable [Config n]

theorem homomorphic (party_id : Fin n) : Homomorphic n party_id SV where
  sharize x r := by rw [denote_reconsAt, secret_sharize]
  add x y := by simp only [denote_reconsAt, secret_add]
  sub x y := by simp only [denote_reconsAt, secret_sub]
  neg x := by simp only [denote_reconsAt, secret_neg]
  add_value x c := by simp only [denote_reconsAt, secret_add_value]
  value_add c x := by simp only [denote_reconsAt, secret_value_add]
  sub_value x c := by simp only [denote_reconsAt, secret_sub_value]
  value_sub c x := by simp only [denote_reconsAt, secret_value_sub]
  addVecValue x c k := by
    rw [denote_reconsVecAt, denote_reconsVecAt]
    exact secret_add_value (x k) c
  valueAddVec c x k := by
    rw [denote_reconsVecAt, denote_reconsVecAt, add_comm]
    exact secret_add_value (x k) c
  subVecValue x c k := by
    rw [denote_reconsVecAt, denote_reconsVecAt, sub_eq_add_neg, ← AdditiveValue.denote_neg]
    exact secret_add_value (x k) (-c)
  valueSubVec c x k := by
    rw [denote_reconsVecAt, denote_reconsVecAt, sub_eq_neg_add, ← secret_neg]
    exact secret_add_value (-x k) c
  addVec x y := by
    refine ⟨_, dif_pos rfl, fun k => ?_⟩
    simp only [denote_reconsVecAt]
    exact secret_add (x k) (y k)
  subVec x y := by
    refine ⟨_, dif_pos rfl, fun k => ?_⟩
    simp only [denote_reconsVecAt]
    exact secret_sub (x k) (y k)
  length_ne x y h := ⟨dif_neg h, dif_neg h⟩

end Homomorphic

/-! ### Multiplication by a public value -/

/-- A field element times a share is reconstructed modulo `p`. -/
theorem reconsAt_value_mul [Config n] (party_id : Fin n) (c : PrimeField)
    (x : Share n PrimeField) :
    (reconsAt party_id (c * x)).value
      = c.value * (reconsAt party_id x).value % PrimeField.p := by
  have hmod : c.value % PrimeField.p = (PrimeField.toZMod c).val := (ZMod.val_natCast _ _).symm
  rw [reconsAt_eq_recons, reconsAt_eq_recons, recons_value, recons_value, secret_value_mul,
    ZMod.val_mul, ← hmod, Nat.mod_mul_mod]

/-- Every party rounds its own product. -/
theorem abs_shift_mul_reconsAt_value_mul_sub_le (party_id : Fin n) (c : FixedPoint)
    (x : Share n FixedPoint) :
    |shift * (reconsAt party_id (c * x)).value - c.value * (reconsAt party_id x).value|
      ≤ n * shift := by
  have herr := abs_shift_mul_secret_mul_value_sub_le x c
  rw [reconsAt_eq_recons, reconsAt_eq_recons, recons_value_fixedPoint, recons_value_fixedPoint,
    mul_comm c.value]
  exact herr.trans (mul_le_mul_of_nonneg_left (by omega) n.cast_nonneg)

/-- **The linear operators are homomorphic**, whoever is the party `sp_id`. A stored
`p` is admitted where it is read back. Only the multiplication of a `FixedPoint` share
by a public value is not exact: it is within one unit for each party. -/
theorem linear_operators [Config n] (party_id : Fin n) :
    (Homomorphic n party_id PrimeField ∧ Homomorphic n party_id FixedPoint) ∧
    (∀ v : PrimeField, PrimeField.construct v.value = .ok (ShareValue.received v)) ∧
    (∀ s : Share n PrimeField, (reconsAt party_id s).value < PrimeField.p) ∧
    (∀ (c : PrimeField) (x : Share n PrimeField),
      (reconsAt party_id (c * x)).value = c.value * (reconsAt party_id x).value % PrimeField.p ∧
      (reconsAt party_id (x * c)).value = c.value * (reconsAt party_id x).value % PrimeField.p) ∧
    (∀ (c : PrimeField) {N : ℕ} (x : Fin N → Share n PrimeField) (k : Fin N),
      (reconsVecAt party_id (valueMulVec c x) k).value
        = c.value * (reconsVecAt party_id x k).value % PrimeField.p) ∧
    (∀ (c : FixedPoint) (x : Share n FixedPoint),
      |shift * (reconsAt party_id (c * x)).value - c.value * (reconsAt party_id x).value|
        ≤ n * shift ∧
      |shift * (reconsAt party_id (x * c)).value - c.value * (reconsAt party_id x).value|
        ≤ n * shift) ∧
    ∀ (c : FixedPoint) {N : ℕ} (x : Fin N → Share n FixedPoint) (k : Fin N),
      |shift * (reconsVecAt party_id (valueMulVec c x) k).value
        - c.value * (reconsVecAt party_id x k).value| ≤ n * shift := by
  refine ⟨⟨homomorphic party_id, homomorphic party_id⟩,
    fun v => PrimeField.construct_natCast v.le_p, ?_, ?_, ?_, ?_, ?_⟩
  · intro s
    rw [reconsAt_eq_recons]
    exact recons_value_lt s
  · intro c x
    exact ⟨reconsAt_value_mul party_id c x, reconsAt_value_mul party_id c x⟩
  · intro c N x k
    rw [reconsVecAt_apply, reconsVecAt_apply]
    exact reconsAt_value_mul party_id c (x k)
  · intro c x
    exact ⟨abs_shift_mul_reconsAt_value_mul_sub_le party_id c x,
      abs_shift_mul_reconsAt_value_mul_sub_le party_id c x⟩
  · intro c N x k
    rw [reconsVecAt_apply, reconsVecAt_apply]
    exact abs_shift_mul_reconsAt_value_mul_sub_le party_id c (x k)

end QuickMpc.Share
