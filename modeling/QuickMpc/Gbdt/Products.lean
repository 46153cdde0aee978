import Mathlib.Algebra.BigOperators.Fin
import QuickMpc.Division
import QuickMpc.Lib.Supply

/-!
# QuickMpc.Gbdt.Products

The share arithmetic of the decision trees. Products take the next triples of the
handler; a vector over the training rows is a family on `Fin N`.

A product in fixed point is rounded, but not when one factor is a whole number. All
that the trees are computed with are products with a bit, so they are exact.
-/

namespace QuickMpc.Gbdt

open Share (secret recons)
open FixedPoint (shift)

variable {n N : ℕ}

/-- The shares that the decision trees compute with. -/
abbrev Share (n : ℕ) := QuickMpc.Share n FixedPoint

/-! ### Bits -/

/-- A share of the bit that tells whether `p` holds. -/
def IsBit (p : Prop) [Decidable p] (b : Share n) : Prop := secret b = if p then shift else 0

/-- The secret of a bit, as a multiple of `1`. -/
theorem IsBit.secret_eq {p : Prop} [Decidable p] {b : Share n} (h : IsBit p b) :
    secret b = shift * if p then 1 else 0 := by
  rw [h, mul_ite, mul_one, mul_zero]

/-- The children's attribute bits of one row, the `1` at the position `hot`. -/
structure OneHot (bits : List (Share n)) (hot : ℕ) : Prop where
  lt : hot < bits.length
  isBit : ∀ j b, bits[j]? = some b → IsBit (j = hot) b

/-! ### The operations -/

section Operations

variable [Config n] (t : ℕ → BtsTriple n)

/-- `operator*(Share, Share)`. -/
def mul (x y : Share n) : Supply (Share n) :=
  Supply.take 1 fun k => QuickMpc.Share.mul (t k).convertStr2Triple x y

/-- `operator*(std::vector<Share>, std::vector<Share>)`. -/
def mulVec (x y : Fin N → Share n) : Supply (Fin N → Share n) :=
  Supply.take N fun k => QuickMpc.Share.bulkMul (fun i => (t (k + i)).convertStr2Triple) x y

/-- `operator/(Share, Share)`, with what is drawn for the triple `k` and the next two. -/
def div [Multiprecision] (r sent : ℕ → QuickMpc.Share.Draws n) (x y : Share n) : Supply (Share n) :=
  Supply.take 3 fun k => QuickMpc.Share.div (fun i => t (k + i)) (r k) (sent k) x y

/-- `qmpc::Math::sum`. -/
def sum (v : Fin N → Share n) : Share n := (List.finRange N).foldl (fun ret i => ret + v i) 0

/-- `dot`. -/
def dot (x y : Fin N → Share n) : Supply (Share n) := do
  let ret ← mulVec t x y
  return sum ret

/-- `dataSize`: the number of rows in use. -/
def dataSize (T : Fin N → Share n) : ℤ :=
  FixedPoint.truncate ((recons (sum T)).getDoubleVal + 1 / 10)

end Operations

theorem secret_sum (v : Fin N → Share n) : secret (sum v) = ∑ i, secret (v i) := by
  have hloop : ∀ (is : List (Fin N)) (acc : Share n),
      secret (is.foldl (fun ret i => ret + v i) acc)
        = secret acc + (is.map fun i => secret (v i)).sum := by
    intro is
    induction is with
    | nil => intro acc; simp
    | cons i is ih =>
        intro acc
        rw [List.foldl_cons, ih, QuickMpc.Share.secret_add, List.map_cons, List.sum_cons, add_assoc]
  rw [sum, hloop, QuickMpc.Share.secret_zero, zero_add, ← List.ofFn_eq_map, List.sum_ofFn]

/-- The sum of bits counts those that are set. -/
theorem secret_sum_bits {rows : Finset (Fin N)} {T : Fin N → Share n}
    (hT : ∀ i, IsBit (i ∈ rows) (T i)) : secret (sum T) = shift * rows.card := by
  rw [secret_sum, Finset.sum_congr rfl fun i _ => (hT i).secret_eq, ← Finset.mul_sum]
  simp

theorem getDoubleVal_recons_sum {rows : Finset (Fin N)} {T : Fin N → Share n}
    (hT : ∀ i, IsBit (i ∈ rows) (T i)) :
    (recons (sum T)).getDoubleVal = ((rows.card : ℤ) : ℚ) :=
  FixedPoint.getDoubleVal_of_whole
    ((QuickMpc.Share.recons_value_fixedPoint _).trans (secret_sum_bits hT))

/-- The rows in use are counted exactly. -/
theorem dataSize_eq {rows : Finset (Fin N)} {T : Fin N → Share n}
    (hT : ∀ i, IsBit (i ∈ rows) (T i)) : dataSize T = rows.card := by
  have hnonneg : (0 : ℚ) ≤ ((rows.card : ℤ) : ℚ) + 1 / 10 := by positivity
  rw [dataSize, getDoubleVal_recons_sum hT, FixedPoint.truncate_of_nonneg hnonneg,
    Int.floor_intCast_add]
  have hfloor : ⌊(1 / 10 : ℚ)⌋ = 0 := by norm_num
  rw [hfloor, add_zero]

section Specs

variable [Config n] (t : ℕ → BtsTriple n)

theorem mul_returns_trivial (x y : Share n) : Supply.Returns (mul t x y) fun _ => True :=
  .take fun _ => trivial

theorem mulVec_returns_trivial (x y : Fin N → Share n) :
    Supply.Returns (mulVec t x y) fun _ => True :=
  .take fun _ => trivial

/-- A bit selects the other factor, or nothing. -/
theorem mul_returns {p : Prop} [Decidable p] {b : Share n} (hb : IsBit p b) (x : Share n) :
    Supply.Returns (mul t b x) fun r => secret r = if p then secret x else 0 := by
  refine .take fun k => ?_
  rw [QuickMpc.Share.secret_whole_mul _ _ _ hb.secret_eq, ite_mul, one_mul, zero_mul]

/-- A vector of bits as the second factor. -/
theorem mulVec_returns {p : Fin N → Prop} [DecidablePred p] {b : Fin N → Share n}
    (hb : ∀ i, IsBit (p i) (b i)) (x : Fin N → Share n) :
    Supply.Returns (mulVec t x b) fun r => ∀ i, secret (r i) = if p i then secret (x i) else 0 := by
  refine .take fun k i => ?_
  rw [QuickMpc.Share.bulkMul_apply, QuickMpc.Share.secret_mul_whole _ _ _ (hb i).secret_eq, mul_ite,
    mul_one, mul_zero]

/-- The product of two masks is the mask of the rows in both. -/
theorem mulVec_returns_and {p q : Fin N → Prop} [DecidablePred p] [DecidablePred q]
    {a b : Fin N → Share n} (ha : ∀ i, IsBit (p i) (a i)) (hb : ∀ i, IsBit (q i) (b i)) :
    Supply.Returns (mulVec t a b) fun r => ∀ i, IsBit (p i ∧ q i) (r i) := by
  refine (mulVec_returns t hb a).mono fun r hr i => ?_
  rw [IsBit, hr i, ha i]
  by_cases hq : q i <;> by_cases hp : p i <;> simp [hp, hq]

theorem dot_returns_trivial (x y : Fin N → Share n) : Supply.Returns (dot t x y) fun _ => True :=
  (mulVec_returns_trivial t x y).bind fun _ _ => .pure trivial

end Specs

end QuickMpc.Gbdt
