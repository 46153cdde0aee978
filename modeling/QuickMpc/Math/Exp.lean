import Mathlib.Analysis.Complex.Exponential
import QuickMpc.Gbdt.Products
import QuickMpc.Rounding

/-!
# QuickMpc.Math.Exp

The exponential of a share, by the first 100 terms of its series.

The powers are products of shares, so the error of one is multiplied by `x` in the next;
the factorials are exact. Each term is divided by a factorial, and the error of the sum
stays below `e ^ max 1 |x|` units, and one more unit for each term and party.
-/

namespace QuickMpc.Math

open Share (toRat ulp)
open FixedPoint (ofInt)
open Gbdt (mul)

variable {n : ℕ}

/-! ### The code -/

section Code

variable [Config n] (t : ℕ → BtsTriple n)

/-- `N` of `exp`. -/
def expTerms : ℕ := 100

/-- `px[0]`. -/
def expOne : Share n FixedPoint := (0 : Share n FixedPoint) + ofInt 1

/-- `px[i]` and `k[i]`. -/
structure ExpTerm (n : ℕ) where
  px : Share n FixedPoint
  k : FixedPoint

/-- The first loop of `exp`, up to `N` terms: the last term and all the terms after the
first. -/
def expLoop (x : Share n FixedPoint) (N : ℕ) : Supply (ExpTerm n × List (ExpTerm n)) :=
  (List.range' 1 (N - 1)).foldlM (fun cur (i : ℕ) => do
    let k := cur.1.k * ofInt i
    let px ← mul t cur.1.px x
    return (⟨px, k⟩, cur.2 ++ [⟨px, k⟩])) (⟨expOne, ofInt 1⟩, [])

/-- `exp`. -/
def exp [Multiprecision] (x : Share n FixedPoint) : Supply (Share n FixedPoint) := do
  let (_, terms) ← expLoop t x expTerms
  let px := expOne :: terms.map fun term => term.px / term.k
  return px.foldl (fun acc p => acc + p) 0

end Code

/-! ### The terms -/

/-- What the error of a power has grown to: `i` products have lost one unit each, and each
loss was multiplied by `M` at most afterwards. -/
theorem abs_pow_succ_sub_le {p p' x M : ℚ} {i : ℕ} (hM : 1 ≤ M) (hx : |x| ≤ M)
    (h : |p - x ^ i| ≤ i * M ^ (i - 1) * ulp) (hmul : |p' - p * x| ≤ ulp) :
    |p' - x ^ (i + 1)| ≤ (i + 1 : ℕ) * M ^ i * ulp := by
  have hulp := Share.ulp_pos
  have hone : 1 ≤ M ^ i := one_le_pow₀ hM
  have hpow : i * M ^ (i - 1) * M = i * M ^ i := by
    cases i with
    | zero => simp
    | succ i => rw [Nat.add_sub_cancel, mul_assoc, ← pow_succ]
  have hscaled : |(p - x ^ i) * x| ≤ i * M ^ (i - 1) * ulp * M := by
    rw [abs_mul]
    exact mul_le_mul h hx (abs_nonneg _) ((abs_nonneg _).trans h)
  calc |p' - x ^ (i + 1)| = |(p' - p * x) + (p - x ^ i) * x| := by
        congr 1
        ring
    _ ≤ ulp + i * M ^ (i - 1) * ulp * M := (abs_add_le _ _).trans (add_le_add hmul hscaled)
    _ = ulp + i * M ^ i * ulp := by rw [mul_right_comm, hpow]
    _ ≤ M ^ i * ulp + i * M ^ i * ulp := by
        gcongr
        exact le_mul_of_one_le_left hulp.le hone
    _ = (i + 1 : ℕ) * M ^ i * ulp := by
        push_cast
        ring

/-- A term is `x ^ i / i!`, up to rounding. -/
structure ExpTerm.Near (x : Share n FixedPoint) (i : ℕ) (term : ExpTerm n) : Prop where
  k : term.k = ofInt i.factorial
  px : |toRat term.px - toRat x ^ i| ≤ i * max 1 |toRat x| ^ (i - 1) * ulp

/-- What the terms after the first may be off: a unit for each party, and what the power has
lost. -/
def expSlack (n : ℕ) (x : ℚ) (N : ℕ) : ℚ :=
  ∑ i ∈ Finset.range N, (n * ulp + max 1 |x| ^ i / i.factorial * ulp)

/-- A term, divided by its factorial. -/
theorem ExpTerm.Near.abs_div_sub_le [Multiprecision] {x : Share n FixedPoint} {i : ℕ}
    {term : ExpTerm n} (h : term.Near x (i + 1)) :
    |toRat (term.px / term.k) - toRat x ^ (i + 1) / (i + 1).factorial|
      ≤ n * ulp + max 1 |toRat x| ^ i / i.factorial * ulp := by
  have hfact : (0 : ℚ) < (i + 1).factorial := by exact_mod_cast (i + 1).factorial_pos
  have hne : ((i + 1).factorial : ℤ) ≠ 0 := by exact_mod_cast (i + 1).factorial_ne_zero
  have hdiv := Share.abs_toRat_div_ofInt_sub_le term.px hne
  rw [← h.k, Int.cast_natCast] at hdiv
  have hpow : |toRat term.px / (i + 1).factorial - toRat x ^ (i + 1) / (i + 1).factorial|
      ≤ max 1 |toRat x| ^ i / i.factorial * ulp := by
    rw [← sub_div, abs_div, abs_of_pos hfact, div_le_iff₀ hfact]
    refine h.px.trans (le_of_eq ?_)
    have hi : (i.factorial : ℚ) ≠ 0 := by exact_mod_cast i.factorial_ne_zero
    rw [Nat.add_sub_cancel, Nat.factorial_succ]
    push_cast
    field_simp
  exact (abs_sub_le _ _ _).trans (add_le_add hdiv hpow)

section Returns

variable [Config n] (t : ℕ → BtsTriple n)

theorem ExpTerm.near_one (x : Share n FixedPoint) : ExpTerm.Near x 0 ⟨expOne, ofInt 1⟩ where
  k := rfl
  px := by simp [expOne, Share.getDoubleVal_ofInt]

/-- One iteration. -/
theorem ExpTerm.Near.returns_succ {x : Share n FixedPoint} {i : ℕ} {term : ExpTerm n}
    (h : term.Near x i) :
    Supply.Returns (mul t term.px x) fun px =>
      ExpTerm.Near x (i + 1) ⟨px, term.k * ofInt (i + 1 : ℕ)⟩ := by
  refine .take fun k => ⟨?_, ?_⟩
  · ext
    rw [h.k, FixedPoint.mul_ofInt_value, FixedPoint.ofInt_value, FixedPoint.ofInt_value,
      Nat.factorial_succ]
    push_cast
    ring
  · exact abs_pow_succ_sub_le (le_max_left _ _) (le_max_right _ _) h.px
      (Share.abs_toRat_mul_sub_lt (t k) term.px x).le

/-- The loop: the terms are divided by their factorials in the next one. -/
theorem expLoop_returns [Multiprecision] (x : Share n FixedPoint) (N : ℕ) :
    Supply.Returns (expLoop t x N) fun cur =>
      |(cur.2.map fun term => toRat (term.px / term.k)).sum
          - ∑ i ∈ Finset.range (N - 1), toRat x ^ (i + 1) / (i + 1).factorial|
        ≤ expSlack n (toRat x) (N - 1) := by
  refine (Supply.Returns.foldlM_passed (P := fun passed cur =>
    cur.1.Near x passed.length ∧
      |(cur.2.map fun term => toRat (term.px / term.k)).sum
          - ∑ i ∈ Finset.range passed.length, toRat x ^ (i + 1) / (i + 1).factorial|
        ≤ expSlack n (toRat x) passed.length)
    (fun passed i rest cur hsplit hcur => ?_)
    ⟨ExpTerm.near_one x, by simp [expSlack]⟩).mono fun cur hcur => ?_
  · have hi : i = passed.length + 1 := by
      have hget : (List.range' 1 (N - 1))[passed.length]? = some i := by
        rw [← hsplit, List.getElem?_append_right le_rfl, Nat.sub_self, List.getElem?_cons_zero]
      obtain ⟨hlt, rfl⟩ := List.getElem?_eq_some_iff.mp hget
      rw [List.getElem_range']
      omega
    obtain ⟨hnear, hsum⟩ := hcur
    subst hi
    refine (hnear.returns_succ t).bind fun px hpx => .pure ⟨?_, ?_⟩
    · rw [List.length_append, List.length_singleton]
      exact hpx
    · have hterm := hpx.abs_div_sub_le
      rw [List.map_append, List.sum_append, List.map_singleton, List.sum_singleton,
        List.length_append, List.length_singleton, expSlack, Finset.sum_range_succ,
        Finset.sum_range_succ, add_sub_add_comm]
      exact (abs_add_le _ _).trans (add_le_add hsum hterm)
  · rw [List.length_range'] at hcur
    exact hcur.2

theorem exp_returns [Multiprecision] (x : Share n FixedPoint) :
    Supply.Returns (exp t x) fun r =>
      |toRat r - ∑ i ∈ Finset.range expTerms, toRat x ^ i / i.factorial|
        ≤ expSlack n (toRat x) (expTerms - 1) := by
  refine (expLoop_returns t x expTerms).bind fun cur hcur => .pure ?_
  have hone : toRat (expOne : Share n FixedPoint) = 1 := by simp [expOne, Share.getDoubleVal_ofInt]
  have hsucc : expTerms = (expTerms - 1) + 1 := rfl
  have hsum := Share.toRat_foldl_add id (expOne :: cur.2.map fun term => term.px / term.k) 0
  simp only [id, Share.toRat_zero, List.map_cons, List.sum_cons, List.map_map, zero_add, hone]
    at hsum
  rw [hsum, hsucc, Finset.sum_range_succ', Nat.add_sub_cancel]
  simp only [pow_zero, Nat.factorial_zero, Nat.cast_one, div_one]
  convert hcur using 2
  rw [add_comm (1 : ℚ)]
  exact add_sub_add_right_eq_sub _ _ _

end Returns

/-! ### The exponential -/

/-- The rounding errors add up to the series of `e ^ max 1 |x|`. -/
theorem expSlack_le (n : ℕ) (x : ℚ) (N : ℕ) :
    (expSlack n x N : ℝ) ≤ (Real.exp (max 1 |x|) + N * n) * ulp := by
  have hulp : (0 : ℝ) ≤ ulp := by exact_mod_cast Share.ulp_pos.le
  have hseries := Real.sum_le_exp_of_nonneg (x := ((max 1 |x| : ℚ) : ℝ))
    (by exact_mod_cast zero_le_one.trans (le_max_left (1 : ℚ) |x|)) N
  have hslack : (expSlack n x N : ℝ)
      = (∑ i ∈ Finset.range N, ((max 1 |x| : ℚ) : ℝ) ^ i / i.factorial + N * n) * ulp := by
    rw [expSlack, Finset.sum_add_distrib, Finset.sum_const, Finset.card_range, nsmul_eq_mul,
      ← Finset.sum_mul]
    push_cast
    ring
  rw [hslack]
  push_cast at hseries ⊢
  gcongr

/-- The rest of the series. -/
theorem abs_exp_sub_sum_le {x : ℝ} {N : ℕ} (hx : |x| ≤ (N + 1) / 2) :
    |Real.exp x - ∑ i ∈ Finset.range N, x ^ i / i.factorial| ≤ |x| ^ N / N.factorial * 2 := by
  have hhalf : ‖(x : ℂ)‖ / N.succ ≤ 1 / 2 := by
    rw [Complex.norm_real, Real.norm_eq_abs, div_le_iff₀ (by positivity)]
    push_cast
    linarith
  have hbound := Complex.exp_bound' hhalf
  rw [Complex.norm_real, Real.norm_eq_abs] at hbound
  convert hbound using 1
  norm_cast

/-- **`exp` is the exponential**, for every number of parties, every sharing and every
triple: up to `e ^ max 1 |x| + 99 n` units and the rest of the series. -/
theorem exp_accurate [Multiprecision] [Config n] (t : ℕ → BtsTriple n) (x : Share n FixedPoint)
    (hx : |toRat x| ≤ 50) :
    Supply.Returns (exp t x) fun r =>
      |(toRat r : ℝ) - Real.exp (toRat x)|
        ≤ (Real.exp (max 1 |toRat x|) + 99 * n) * ulp
          + |(toRat x : ℝ)| ^ 100 / (100 : ℕ).factorial * 2 := by
  refine (exp_returns t x).mono fun r hr => ?_
  have hrest := abs_exp_sub_sum_le (x := (toRat x : ℝ)) (N := expTerms) (by
    have hcast : |(toRat x : ℝ)| ≤ 50 := by exact_mod_cast hx
    rw [expTerms]
    push_cast
    linarith)
  have hround : |(toRat r : ℝ) - ∑ i ∈ Finset.range expTerms, (toRat x : ℝ) ^ i / i.factorial|
      ≤ (Real.exp (max 1 |toRat x|) + 99 * n) * ulp := by
    refine le_trans ?_ (expSlack_le n (toRat x) (expTerms - 1))
    exact_mod_cast hr
  rw [abs_sub_comm] at hrest
  exact (abs_sub_le _ _ _).trans (add_le_add hround hrest)

theorem exp_accurate_three :
    letI := threeParties
    letI := Multiprecision.plain
    let x : Share 3 FixedPoint := Share.sharize (ofInt (-3)) fun i => ofInt i.val
    Supply.Returns (exp (fun _ => ⟨fun i => i.val, fun _ => 1, fun i => 3 * i.val, rfl⟩) x) fun r =>
      |(toRat r : ℝ) - Real.exp (toRat x)|
        ≤ (Real.exp (max 1 |toRat x|) + 99 * (3 : ℕ)) * ulp
          + |(toRat x : ℝ)| ^ 100 / (100 : ℕ).factorial * 2 := by
  let _ := threeParties
  let _ := Multiprecision.plain
  refine exp_accurate _ _ ?_
  rw [Share.toRat_sharize, Share.getDoubleVal_ofInt]
  norm_num

end QuickMpc.Math
