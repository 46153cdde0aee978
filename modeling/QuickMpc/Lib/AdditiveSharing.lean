import Mathlib.Algebra.BigOperators.Fin
import Mathlib.Algebra.BigOperators.Group.Finset.Piecewise
import Mathlib.Algebra.BigOperators.Ring.Finset
import Mathlib.Algebra.Field.Basic
import Mathlib.Tactic.Ring
import Mathlib.Tactic.FieldSimp

/-!
# Additive secret sharing

A value of a commutative group is shared by giving one summand to every member
of a finite set of parties; the value is the sum of the summands (`secret`).
This module has the arithmetic that protocols over such shares rest on, over an
arbitrary index type and an arbitrary group, ring or field:

* `secret` is additive, and a constant that *one* party adds is added once
  (`secret_addAt`), while a constant that every party multiplies by is a factor
  (`secret_mul_left`);
* `secret_deal`: a dealer who keeps the remainder shares exactly its value;
* `beaver_identity`: multiplication from one multiplication triple;
* `masked_chain`: the powers of a value from the publicly opened, masked
  quotients `A * m (i-1) * (m i)⁻¹`.
-/

namespace AdditiveSharing

section Group

variable {ι G : Type*} [Fintype ι] [AddCommGroup G]

/-- The value shared by a family of summands. -/
def secret (s : ι → G) : G := ∑ i, s i

@[simp] theorem secret_zero : secret (fun _ : ι => (0 : G)) = 0 := by
  simp [secret]

theorem secret_add (s t : ι → G) :
    secret (fun i => s i + t i) = secret s + secret t :=
  Finset.sum_add_distrib

theorem secret_sub (s t : ι → G) :
    secret (fun i => s i - t i) = secret s - secret t :=
  Finset.sum_sub_distrib s t

theorem secret_neg (s : ι → G) : secret (fun i => -s i) = -secret s :=
  Finset.sum_neg_distrib s

/-- A constant held by every party is shared with the multiplicity of the
parties, not once. -/
theorem secret_const (c : G) : secret (fun _ : ι => c) = Fintype.card ι • c := by
  simp [secret, Finset.card_univ]

variable [DecidableEq ι]

/-- Change the summand of one party only. -/
def addAt (sp : ι) (c : G) (s : ι → G) : ι → G :=
  fun i => if i = sp then s i + c else s i

/-- What one party adds is added once. -/
theorem secret_addAt (sp : ι) (c : G) (s : ι → G) :
    secret (addAt sp c s) = secret s + c := by
  have hsplit : ∀ i, addAt sp c s i = s i + if i = sp then c else 0 := by
    intro i
    unfold addAt
    split <;> simp
  simp only [secret, hsplit, Finset.sum_add_distrib, Finset.sum_ite_eq', Finset.mem_univ,
    if_true]

/-- The dealer's rule: every other party gets its own summand, the dealer keeps
what is missing. -/
def deal (sp : ι) (x : G) (q : ι → G) : ι → G :=
  fun i => if i = sp then x - ∑ j ∈ Finset.univ.erase sp, q j else q i

/-- Dealing shares exactly the dealer's value, whatever the other summands are. -/
theorem secret_deal (sp : ι) (x : G) (q : ι → G) : secret (deal sp x q) = x := by
  have hothers : ∑ i ∈ Finset.univ.erase sp, deal sp x q i
      = ∑ i ∈ Finset.univ.erase sp, q i := by
    refine Finset.sum_congr rfl fun i hi => ?_
    simp [deal, (Finset.mem_erase.mp hi).1]
  rw [secret, ← Finset.add_sum_erase _ _ (Finset.mem_univ sp), hothers]
  simp [deal]

end Group

section Ring

variable {ι R : Type*} [Fintype ι] [CommRing R]

/-- A public factor that every party applies multiplies the secret. -/
theorem secret_mul_left (c : R) (s : ι → R) :
    secret (fun i => c * s i) = c * secret s :=
  (Finset.mul_sum _ _ _).symm

/-- **Beaver's identity.** With `a * b = c`, opening `x - a` and `y - b` is
enough to assemble the product. -/
theorem beaver_identity {a b c : R} (h : a * b = c) (x y : R) :
    c + (x - a) * b + (y - b) * a + (x - a) * (y - b) = x * y := by
  rw [← h]
  ring

end Ring

section Field

variable {K : Type*} [Field K]

/-- The quotients opened to obtain the powers of `A` behind the masks `m`:
`A * (m 0)⁻¹`, then `A * m (i-1) * (m i)⁻¹`. -/
def maskedQuotient (A : K) (m : ℕ → K) : ℕ → K
  | 0 => A * (m 0)⁻¹
  | i + 1 => A * m i * (m (i + 1))⁻¹

/-- The masks telescope: the product of the first `i + 1` opened quotients times
the `i`-th mask is `A ^ (i + 1)`. -/
theorem masked_chain (A : K) (m : ℕ → K) :
    ∀ i, (∀ j ≤ i, m j ≠ 0) →
      (∏ j ∈ Finset.range (i + 1), maskedQuotient A m j) * m i = A ^ (i + 1)
  | 0, h => by
      have h0 : m 0 ≠ 0 := h 0 le_rfl
      simp [maskedQuotient, h0]
  | i + 1, h => by
      have ih := masked_chain A m i fun j hj => h j (hj.trans (Nat.le_succ i))
      have hlast : m (i + 1) ≠ 0 := h (i + 1) le_rfl
      rw [Finset.prod_range_succ, maskedQuotient]
      calc (∏ j ∈ Finset.range (i + 1), maskedQuotient A m j)
              * (A * m i * (m (i + 1))⁻¹) * m (i + 1)
          = ((∏ j ∈ Finset.range (i + 1), maskedQuotient A m j) * m i) * A := by
            field_simp
        _ = A ^ (i + 1 + 1) := by rw [ih, ← pow_succ]

end Field

end AdditiveSharing
