import Mathlib.Data.Set.Basic
import QuickMpc.TripleHandler

/-!
# QuickMpc.Openings

What `operator*=` opens, over all triples that the handler can hand out.

A triple hides the factors when its first two secrets are uniform on the whole
value type. Those of the handler are not: in the field it hands out one triple
only, so the opened pair is a function of the factors; in fixed point the masks
are whole numbers in a bounded range, so the opened values show the digits after
the point, and the set of openings is a translate of a bounded set that
determines the factors.
-/

namespace QuickMpc.Share

variable {n : ℕ} {SV : Type}

/-- A triple of the service, as the shares come over the wire. -/
structure ServiceTriple (n : ℕ) extends BtsTriple n where
  int64 : ∀ i, (-2 ^ 63 ≤ a i ∧ a i < 2 ^ 63) ∧ (-2 ^ 63 ≤ b i ∧ b i < 2 ^ 63)
    ∧ (-2 ^ 63 ≤ c i ∧ c i < 2 ^ 63)

/-- What `getTriple<FixedPoint>` hands out. -/
def handedFp (t : ServiceTriple n) : Triple n FixedPoint := t.convertStr2Triple

/-- What `getTriple<PrimeField>` hands out. -/
def handedPf (_t : ServiceTriple n) : Triple n PrimeField := (PrimeFieldTriple.constant n).toTriple

/-- They are the handler's conversions, at each party. -/
theorem handed_eq_convert (t : ServiceTriple n) (i : Fin n) :
    ((handedFp t).a.value i, (handedFp t).b.value i, (handedFp t).c.value i)
        = TripleHandler.convertFp (TripleHandler.answerAt i t.toBtsTriple) ∧
      ((handedPf t).a.value i, (handedPf t).b.value i, (handedPf t).c.value i)
        = TripleHandler.convertPf n (TripleHandler.answerAt i t.toBtsTriple) := ⟨rfl, rfl⟩

section Code

variable [ShareValue SV]

/-- `de_rec`: the pair that `operator*=` opens. -/
def opened (t : Triple n SV) (x y : Share n SV) : SV × SV := (recons (x - t.a), recons (y - t.b))

/-- Nothing else is opened on the way to the product. -/
theorem mul_eq_opened [Config n] (t : Triple n SV) (x y : Share n SV) :
    mul t x y = t.c + (opened t x y).1 * t.b + (opened t x y).2 * t.a
      + (opened t x y).1 * (opened t x y).2 := rfl

/-- The pairs that can be opened, over all answers of the service. -/
def openings (handed : ServiceTriple n → Triple n SV) (x y : Share n SV) : Set (SV × SV) :=
  {de | ∃ t, opened (handed t) x y = de}

end Code

theorem ext_recons_primeField [Config n] {x y : Share n PrimeField} :
    recons x = recons y ↔ secret x = secret y := by
  constructor
  · intro h
    rw [← toZMod_recons, h, toZMod_recons]
  · intro h
    ext
    rw [recons_value, h, recons_value]

theorem ext_recons_fixedPoint {x y : Share n FixedPoint} :
    recons x = recons y ↔ secret x = secret y := by
  rw [FixedPoint.ext_iff, recons_value_fixedPoint, recons_value_fixedPoint]

/-! ### In the field -/

theorem zero_int64 : (-2 ^ 63 ≤ (0 : ℤ) ∧ (0 : ℤ) < 2 ^ 63) ∧ (-2 ^ 63 ≤ (0 : ℤ) ∧ (0 : ℤ) < 2 ^ 63)
    ∧ (-2 ^ 63 ≤ (0 : ℤ) ∧ (0 : ℤ) < 2 ^ 63) := by
  norm_num

/-- The triple `a = b = c = 0`. -/
def ServiceTriple.zero (n : ℕ) : ServiceTriple n where
  a _ := 0
  b _ := 0
  c _ := 0
  valid := BtsTriple.zero_valid n
  int64 _ := zero_int64

/-- There is one pair only. -/
theorem openings_handedPf (x y : Share n PrimeField) :
    openings handedPf x y = {opened (PrimeFieldTriple.constant n).toTriple x y} := by
  ext de
  constructor
  · intro h'
    obtain ⟨t, rfl⟩ := h'
    rfl
  · intro h
    exact ⟨.zero n, h.symm⟩

theorem openings_handedPf_iff [Config n] (x y x' y' : Share n PrimeField) :
    openings handedPf x y = openings handedPf x' y' ↔ recons x = recons x' ∧ recons y = recons y' := by
  rw [openings_handedPf, openings_handedPf, Set.singleton_eq_singleton_iff, opened, opened,
    Prod.mk.injEq]
  simp only [ext_recons_primeField, secret_sub, sub_left_inj]

/-! ### In fixed point -/

/-- The least first mask. -/
def ServiceTriple.leastA (n : ℕ) : ServiceTriple n where
  a _ := -2 ^ 63
  b _ := 0
  c _ := 0
  valid := by simp
  int64 _ := by norm_num

/-- The least second mask. -/
def ServiceTriple.leastB (n : ℕ) : ServiceTriple n where
  a _ := 0
  b _ := -2 ^ 63
  c _ := 0
  valid := by simp
  int64 _ := by norm_num

open FixedPoint (shift)

theorem opened_handedFp (t : ServiceTriple n) (x y : Share n FixedPoint) :
    (opened (handedFp t) x y).1.value = secret x - shift * ∑ i, t.a i ∧
      (opened (handedFp t) x y).2.value = secret y - shift * ∑ i, t.b i := by
  constructor
  · rw [opened, recons_value_fixedPoint, secret_sub, handedFp, BtsTriple.convertStr2Triple,
      secret_ofInt]
  · rw [opened, recons_value_fixedPoint, secret_sub, handedFp, BtsTriple.convertStr2Triple,
      secret_ofInt]

/-- The greatest opened values belong to the least masks, so a smaller set of
openings has smaller factors. -/
theorem secret_le_of_openings_subset {x y x' y' : Share n FixedPoint}
    (h : openings handedFp x y ⊆ openings handedFp x' y') :
    secret x ≤ secret x' ∧ secret y ≤ secret y' := by
  have hshift := FixedPoint.shift_pos
  constructor
  · obtain ⟨t, ht⟩ := h ⟨.leastA n, rfl⟩
    have hopened : secret x' - shift * ∑ i, t.a i
        = secret x - shift * ∑ i, (ServiceTriple.leastA n).a i := by
      rw [← (opened_handedFp t x' y').1, ht, (opened_handedFp _ x y).1]
    have hleast : ∑ i, (ServiceTriple.leastA n).a i ≤ ∑ i, t.a i :=
      Finset.sum_le_sum fun i _ => (t.int64 i).1.1
    have := mul_le_mul_of_nonneg_left hleast hshift.le
    linarith
  · obtain ⟨t, ht⟩ := h ⟨.leastB n, rfl⟩
    have hopened : secret y' - shift * ∑ i, t.b i
        = secret y - shift * ∑ i, (ServiceTriple.leastB n).b i := by
      rw [← (opened_handedFp t x' y').2, ht, (opened_handedFp _ x y).2]
    have hleast : ∑ i, (ServiceTriple.leastB n).b i ≤ ∑ i, t.b i :=
      Finset.sum_le_sum fun i _ => (t.int64 i).2.1.1
    have := mul_le_mul_of_nonneg_left hleast hshift.le
    linarith

/-- The openings depend on the factors through their secrets. -/
theorem openings_handedFp_congr {x y x' y' : Share n FixedPoint} (hx : secret x = secret x')
    (hy : secret y = secret y') : openings handedFp x y = openings handedFp x' y' := by
  have hopened : ∀ t, opened (handedFp t) x y = opened (handedFp t) x' y' := by
    intro t
    have hd : recons (x - (handedFp t).a) = recons (x' - (handedFp t).a) := by
      rw [ext_recons_fixedPoint, secret_sub, secret_sub, hx]
    have he : recons (y - (handedFp t).b) = recons (y' - (handedFp t).b) := by
      rw [ext_recons_fixedPoint, secret_sub, secret_sub, hy]
    rw [opened, opened, hd, he]
  simp only [openings, hopened]

theorem openings_handedFp_iff (x y x' y' : Share n FixedPoint) :
    openings handedFp x y = openings handedFp x' y' ↔ recons x = recons x' ∧ recons y = recons y' := by
  rw [ext_recons_fixedPoint, ext_recons_fixedPoint]
  constructor
  · intro h
    obtain ⟨hx, hy⟩ := secret_le_of_openings_subset h.subset
    obtain ⟨hx', hy'⟩ := secret_le_of_openings_subset h.symm.subset
    exact ⟨le_antisymm hx hx', le_antisymm hy hy'⟩
  · intro ⟨hx, hy⟩
    exact openings_handedFp_congr hx hy

/-! ### What the openings show -/

/-- **The openings determine the factors.** For both value types, any number of
parties and any sharing, two multiplications can open the same pairs only when
their factors are the same. -/
theorem openings_eq_iff (n : ℕ) [Config n] :
    (∀ x y x' y' : Share n PrimeField,
      openings handedPf x y = openings handedPf x' y'
        ↔ recons x = recons x' ∧ recons y = recons y') ∧
    (∀ x y x' y' : Share n FixedPoint,
      openings handedFp x y = openings handedFp x' y'
        ↔ recons x = recons x' ∧ recons y = recons y') :=
  ⟨openings_handedPf_iff, openings_handedFp_iff⟩

/-- `1` against `0` in the field, and `0.5` against `0` in fixed point. -/
theorem openings_ne_three :
    (let x : Share 3 PrimeField := ⟨![.ofNat 1, .ofNat 0, .ofNat 0]⟩
      let x' : Share 3 PrimeField := ⟨![.ofNat 0, .ofNat 0, .ofNat 0]⟩
      openings handedPf x x' ≠ openings handedPf x' x') ∧
    (let x : Share 3 FixedPoint := ⟨![⟨50000000⟩, ⟨0⟩, ⟨0⟩]⟩
      let x' : Share 3 FixedPoint := ⟨![⟨0⟩, ⟨0⟩, ⟨0⟩]⟩
      openings handedFp x x' ≠ openings handedFp x' x') := by
  let _ := threeParties
  refine ⟨?_, ?_⟩
  · rw [Ne, openings_handedPf_iff]
    decide +kernel
  · rw [Ne, openings_handedFp_iff]
    decide +kernel

end QuickMpc.Share
