import QuickMpc.Share

/-!
# QuickMpc.Multiplication

The product of two shares from a multiplication triple (`operator*=`), and its
bulk form on vectors, which opens the differences of all the factors at once.

The triples handed out by `TripleHandler` come in two kinds, both with their
validity as a field: `PrimeFieldTriple` for the field (where the handler itself
always hands out the constant `(1, 1, n)`), and `BtsTriple` for the whole
numbers of the triple service, which `convertStr2Triple` turns into fixed-point
shares.

The product is exact in the field. In fixed point the single rounding is the one
of `d * e` at the party `sp_id`: the products of the opened `d` and `e` with the
whole-number shares are exact, so the error stays below one unit in the last
place, whatever the number of parties. When one factor is whole, so is the
difference opened for it, and the product is exact (`shift_mul_secret_mul`).
-/

namespace QuickMpc

open Share (ofValue)

/-- One triple, at all parties. -/
structure Triple (n : ℕ) (SV : Type) where
  a : Share n SV
  b : Share n SV
  c : Share n SV

/-- A triple of field elements whose third secret is the product of the others. -/
structure PrimeFieldTriple (n : ℕ) extends Triple n PrimeField where
  valid : a.secret * b.secret = c.secret

/-- The `int64` triples of the triple service. -/
structure BtsTriple (n : ℕ) where
  a : Fin n → ℤ
  b : Fin n → ℤ
  c : Fin n → ℤ
  valid : (∑ i, a i) * ∑ i, b i = ∑ i, c i

theorem BtsTriple.zero_valid (n : ℕ) :
    (∑ _ : Fin n, (0 : ℤ)) * ∑ _ : Fin n, (0 : ℤ) = ∑ _ : Fin n, (0 : ℤ) := by
  simp

/-- `convertStr2Triple<TripleFp>`. -/
def BtsTriple.convertStr2Triple {n : ℕ} (t : BtsTriple n) : Triple n FixedPoint where
  a := ⟨fun i => .ofInt (t.a i)⟩
  b := ⟨fun i => .ofInt (t.b i)⟩
  c := ⟨fun i => .ofInt (t.c i)⟩

/-- `convertStr2Triple<TriplePf>` ignores the triple service: every party gets
`(1, 1, n)`. -/
def PrimeFieldTriple.constant (n : ℕ) : PrimeFieldTriple n where
  a := ofValue (.ofNat 1)
  b := ofValue (.ofNat 1)
  c := ofValue (.ofNat n)
  valid := by simp [Share.secret_ofValue]

namespace Share

variable {n m : ℕ} {SV : Type}

section Code

variable [ShareValue SV] [Config n]

/-- `operator*=(const Share &)`, with the triple that `getTriple` hands out. -/
def mul (t : Triple n SV) (x y : Share n SV) : Share n SV :=
  let d := recons (x - t.a)
  let e := recons (y - t.b)
  t.c + d * t.b + e * t.a + d * e

/-- The vector that the bulk `operator*` opens: `[d]` in the first half, `[e]`
in the second. -/
def bulkOpened (t : Fin m → Triple n SV) (x y : Fin m → Share n SV) : Fin (m + m) → Share n SV :=
  Fin.append (fun i => x i - (t i).a) (fun i => y i - (t i).b)

/-- The bulk `operator*`, on vectors of the same length. -/
def bulkMul (t : Fin m → Triple n SV) (x y : Fin m → Share n SV) : Fin m → Share n SV :=
  let de_rec := fun i => recons (bulkOpened t x y i)
  fun i =>
    (t i).c + de_rec (Fin.castAdd m i) * (t i).b + de_rec (Fin.natAdd m i) * (t i).a
      + de_rec (Fin.castAdd m i) * de_rec (Fin.natAdd m i)

/-- `operator*(const std::vector<Share> &, const std::vector<Share> &)`, with
the triples of the handler in order: the vectors opened on the way, and the
result. -/
def mulVec (t : ℕ → Triple n SV) (obj1 obj2 : List (Share n SV)) :
    List (List (Share n SV)) × Run (List (Share n SV)) :=
  if h : obj1.length = obj2.length then
    let x := fun i : Fin obj1.length => obj1.get i
    let y := fun i : Fin obj1.length => obj2.get (i.cast h)
    ([List.ofFn (bulkOpened (fun i => t i) x y)],
      .ok (List.ofFn (bulkMul (fun i => t i) x y)))
  else ([], .error (.runtimeError "Not Equal Length operator vector<Share> !!"))

/-- The bulk product is the single product, index by index. -/
theorem bulkMul_apply (t : Fin m → Triple n SV) (x y : Fin m → Share n SV) (i : Fin m) :
    bulkMul t x y i = mul (t i) (x i) (y i) := by
  simp only [bulkMul, bulkOpened, mul, Fin.append_left, Fin.append_right]

theorem mulVec_ofFn (t : ℕ → Triple n SV) (x y : Fin m → Share n SV) :
    (mulVec t (List.ofFn x) (List.ofFn y)).2
      = .ok (List.ofFn fun i => mul (t i) (x i) (y i)) := by
  have hlen : (List.ofFn x).length = (List.ofFn y).length := by simp
  rw [mulVec, dif_pos hlen]
  refine congrArg Except.ok ?_
  refine List.ext_get (by simp) fun i hi hi' => ?_
  simp [bulkMul_apply]

theorem mulVec_of_length_ne {t : ℕ → Triple n SV} {obj1 obj2 : List (Share n SV)}
    (h : obj1.length ≠ obj2.length) :
    mulVec t obj1 obj2
      = ([], .error (.runtimeError "Not Equal Length operator vector<Share> !!")) := by
  rw [mulVec, dif_neg h]

end Code

/-! ### The product in the field -/

section Field

variable [Config n]

@[simp] theorem secret_mul (t : PrimeFieldTriple n) (x y : Share n PrimeField) :
    secret (mul t.toTriple x y) = secret x * secret y := by
  rw [mul, secret_add_value, secret_add, secret_add, secret_value_mul, secret_value_mul,
    denote_eq_toZMod, PrimeField.toZMod_mul, toZMod_recons, toZMod_recons, secret_sub, secret_sub]
  exact AdditiveSharing.beaver_identity t.valid _ _

@[simp] theorem secret_bulkMul (t : Fin m → PrimeFieldTriple n) (x y : Fin m → Share n PrimeField)
    (i : Fin m) :
    secret (bulkMul (fun i => (t i).toTriple) x y i) = secret (x i) * secret (y i) := by
  rw [bulkMul_apply, secret_mul]

theorem recons_mul_value (t : PrimeFieldTriple n) (x y : Share n PrimeField) :
    (recons (mul t.toTriple x y)).value
      = (recons x).value * (recons y).value % PrimeField.p := by
  simp only [recons_value, secret_mul, ZMod.val_mul]

end Field

/-! ### The product in fixed point -/

section FixedPoint

open FixedPoint (shift)

/-- A share of whole numbers. -/
theorem secret_ofInt (k : Fin n → ℤ) :
    secret (⟨fun i => .ofInt (k i)⟩ : Share n FixedPoint) = shift * ∑ i, k i := by
  rw [secret, AdditiveSharing.secret, Finset.mul_sum]
  exact Finset.sum_congr rfl fun i _ => mul_comm _ _

/-- A public factor applied to whole numbers is exact. -/
theorem secret_mul_ofInt_share (d : FixedPoint) (k : Fin n → ℤ) :
    secret (d * (⟨fun i => .ofInt (k i)⟩ : Share n FixedPoint)) = d.value * ∑ i, k i := by
  rw [secret, AdditiveSharing.secret, Finset.mul_sum]
  refine Finset.sum_congr rfl fun i _ => ?_
  show (FixedPoint.ofInt (k i) * d).value = _
  rw [FixedPoint.ofInt_mul_value, mul_comm]

/-- A public factor is rounded by every party. -/
theorem abs_shift_mul_secret_mul_value_sub_le (x : Share n FixedPoint) (c : FixedPoint) :
    |shift * secret (x * c) - secret x * c.value| ≤ n * (shift - 1) := by
  have herr := TruncDiv.abs_mul_sum_tdiv_sub_le FixedPoint.shift_pos
    fun i => (x.value i).value * c.value
  rwa [← Finset.sum_mul, Fintype.card_fin] at herr

variable [Config n]

/-- The product share, with its one rounded term. -/
theorem secret_mul_bts (t : BtsTriple n) (x y : Share n FixedPoint) :
    ∃ d e : FixedPoint, d.value = secret x - shift * ∑ i, t.a i
      ∧ e.value = secret y - shift * ∑ i, t.b i
      ∧ secret (mul t.convertStr2Triple x y)
        = shift * (∑ i, t.c i) + d.value * (∑ i, t.b i) + e.value * (∑ i, t.a i)
          + (d * e).value := by
  refine ⟨recons (x - t.convertStr2Triple.a), recons (y - t.convertStr2Triple.b), ?_, ?_, ?_⟩
  · rw [recons_value_fixedPoint, secret_sub, BtsTriple.convertStr2Triple, secret_ofInt]
  · rw [recons_value_fixedPoint, secret_sub, BtsTriple.convertStr2Triple, secret_ofInt]
  · rw [mul, secret_add_value, secret_add, secret_add, denote_eq_value]
    simp only [BtsTriple.convertStr2Triple, secret_ofInt, secret_mul_ofInt_share]

/-- The product share is off by less than one unit in the last place. -/
theorem abs_shift_mul_secret_mul_sub_lt (t : BtsTriple n) (x y : Share n FixedPoint) :
    |shift * secret (mul t.convertStr2Triple x y) - secret x * secret y| < shift := by
  obtain ⟨d, e, hd, he, hsecret⟩ := secret_mul_bts t x y
  have herr : shift * secret (mul t.convertStr2Triple x y) - secret x * secret y
      = shift * (d * e).value - d.value * e.value := by
    have hx : secret x = d.value + shift * ∑ i, t.a i := by rw [hd]; ring
    have hy : secret y = e.value + shift * ∑ i, t.b i := by rw [he]; ring
    rw [hsecret, hx, hy, ← t.valid]
    ring
  rw [herr]
  exact FixedPoint.abs_shift_mul_sub_lt d e

/-- A product with a whole factor is exact: the difference opened for it is whole. -/
theorem shift_mul_secret_mul (t : BtsTriple n) (x y : Share n FixedPoint)
    (h : (shift : ℤ) ∣ secret x ∨ (shift : ℤ) ∣ secret y) :
    shift * secret (mul t.convertStr2Triple x y) = secret x * secret y := by
  obtain ⟨d, e, hd, he, hsecret⟩ := secret_mul_bts t x y
  have hdvd : (shift : ℤ) ∣ d.value * e.value := by
    rcases h with hx | hy
    · rw [hd]
      exact (hx.sub (dvd_mul_right _ _)).mul_right _
    · rw [he]
      exact (hy.sub (dvd_mul_right _ _)).mul_left _
  have hprod : shift * (d * e).value = d.value * e.value := by
    rw [FixedPoint.mul_value, Int.mul_tdiv_cancel' hdvd]
  have hx : secret x = d.value + shift * ∑ i, t.a i := by
    rw [hd]
    ring
  have hy : secret y = e.value + shift * ∑ i, t.b i := by
    rw [he]
    ring
  rw [hsecret, mul_add, hprod, hx, hy, ← t.valid]
  ring

theorem secret_mul_whole (t : BtsTriple n) (x y : Share n FixedPoint) {k : ℤ}
    (hy : secret y = shift * k) : secret (mul t.convertStr2Triple x y) = secret x * k := by
  have hmul := shift_mul_secret_mul t x y (.inr (Dvd.intro k hy.symm))
  rw [hy, mul_left_comm] at hmul
  exact mul_left_cancel₀ FixedPoint.shift_pos.ne' hmul

theorem secret_whole_mul (t : BtsTriple n) (x y : Share n FixedPoint) {k : ℤ}
    (hx : secret x = shift * k) : secret (mul t.convertStr2Triple x y) = k * secret y := by
  have hmul := shift_mul_secret_mul t x y (.inl (Dvd.intro k hx.symm))
  rw [hx, mul_assoc] at hmul
  exact mul_left_cancel₀ FixedPoint.shift_pos.ne' hmul

theorem abs_shift_mul_recons_mul_sub_lt (t : BtsTriple n) (x y : Share n FixedPoint) :
    |shift * (recons (mul t.convertStr2Triple x y)).value
      - (recons x).value * (recons y).value| < shift := by
  simp only [recons_value_fixedPoint]
  exact abs_shift_mul_secret_mul_sub_lt t x y

end FixedPoint

/-- **Beaver multiplication.** In the field the product is exact, in fixed point
it is off by less than one unit in the last place; the bulk product returns the
single products for the same triples, and refuses vectors of different length
before it opens anything. -/
theorem beaver_multiplication :
    (∀ (n : ℕ) [Config n] (t : PrimeFieldTriple n) (x y : Share n PrimeField),
      (recons (mul t.toTriple x y)).value
        = (recons x).value * (recons y).value % PrimeField.p) ∧
    (∀ (n : ℕ) [Config n] (t : BtsTriple n) (x y : Share n FixedPoint),
      |100000000 * (recons (mul t.convertStr2Triple x y)).value
        - (recons x).value * (recons y).value| < 100000000) ∧
    (∀ (n m : ℕ) [Config n] (t : ℕ → PrimeFieldTriple n) (x y : Fin m → Share n PrimeField),
      ∃ v : Fin m → Share n PrimeField,
        (mulVec (fun i => (t i).toTriple) (List.ofFn x) (List.ofFn y)).2 = .ok (List.ofFn v) ∧
        ∀ i, v i = mul (t i).toTriple (x i) (y i) ∧
          (recons (v i)).value = (recons (x i)).value * (recons (y i)).value % PrimeField.p) ∧
    (∀ (n m : ℕ) [Config n] (t : ℕ → BtsTriple n) (x y : Fin m → Share n FixedPoint),
      ∃ v : Fin m → Share n FixedPoint,
        (mulVec (fun i => (t i).convertStr2Triple) (List.ofFn x) (List.ofFn y)).2
          = .ok (List.ofFn v) ∧
        ∀ i, v i = mul (t i).convertStr2Triple (x i) (y i) ∧
          |100000000 * (recons (v i)).value
            - (recons (x i)).value * (recons (y i)).value| < 100000000) ∧
    (∀ (n : ℕ) (SV : Type) [ShareValue SV] [Config n] (t : ℕ → Triple n SV)
      (obj1 obj2 : List (Share n SV)), obj1.length ≠ obj2.length →
      mulVec t obj1 obj2
        = ([], .error (.runtimeError "Not Equal Length operator vector<Share> !!"))) := by
  refine ⟨?_, ?_, ?_, ?_, ?_⟩
  · intro n _ t x y
    exact recons_mul_value t x y
  · intro n _ t x y
    exact abs_shift_mul_recons_mul_sub_lt t x y
  · intro n m _ t x y
    exact ⟨_, mulVec_ofFn _ x y, fun i => ⟨rfl, recons_mul_value (t i) (x i) (y i)⟩⟩
  · intro n m _ t x y
    exact ⟨_, mulVec_ofFn _ x y, fun i =>
      ⟨rfl, abs_shift_mul_recons_mul_sub_lt (t i) (x i) (y i)⟩⟩
  · intro n SV _ _ t obj1 obj2 h
    exact mulVec_of_length_ne h

end Share

end QuickMpc
