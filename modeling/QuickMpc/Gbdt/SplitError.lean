import QuickMpc.Gbdt.SID3Regression
import QuickMpc.Lib.MeanSquares
import QuickMpc.Rounding

/-!
# QuickMpc.Gbdt.SplitError

The number by which the regression tree picks an attribute, beside the plain one. Half
the squared error around its mean is computed for every cell of a split; the masks are
exact, so what is rounded is the mean and the square of one difference for each row.
An empty cell counts for `10 ^ 9` at *every* party.

`IG` opens the sum for every attribute that is left, turns it into a double and takes the
smallest: up to `doubleSlack` on either side, it is the attribute with the smallest error.
Where a cell is empty the doubles are `64` units apart, and what tells two attributes apart
is often less.
-/

namespace QuickMpc.Gbdt.SID3Regression

open QuickMpc.Share (toRat ulp ulp_pos ofValue recons)
open FixedPoint (shift)
open MeanSquares (mean spread)

variable {n N : ℕ}

/-! ### The plain numbers -/

/-- The mean of the targets of some rows. -/
def meanTarget (targets : Fin N → Share n) (rows : Finset (Fin N)) : ℚ :=
  mean rows fun i => toRat (targets i)

/-- The error of one cell of a split. -/
def cellError (targets : Fin N → Share n) (cell : Finset (Fin N)) : ℚ :=
  if cell = ∅ then n * 1000000000
  else spread cell (fun i => toRat (targets i)) (meanTarget targets cell) / 2

/-- How far `infomationGain` may be off. -/
def cellSlack (n : ℕ) (cell : Finset (Fin N)) : ℚ :=
  n * ulp + cell.card * (ulp + (n * ulp) ^ 2) / 2

/-- The error of the split by the attribute `r`. -/
def splitError (D : TrainingSet n N) (targets : Fin N → Share n) (rows : Finset (Fin N))
    (r : ℕ) : ℚ :=
  ∑ v ∈ Finset.range (D.S[r]?.elim 0 List.length), cellError targets (D.withValue r v rows)

/-- How far the error that `IG` opens may be off. -/
def splitSlack (D : TrainingSet n N) (rows : Finset (Fin N)) (r : ℕ) : ℚ :=
  (D.S[r]?.elim 0 List.length : ℕ) * (n * ulp) + rows.card * (ulp + (n * ulp) ^ 2) / 2

/-- How far the double may be off in which the error is compared. -/
def doubleSlack (D : TrainingSet n N) (targets : Fin N → Share n) (rows : Finset (Fin N))
    (r : ℕ) : ℚ :=
  splitSlack D rows r + (splitError D targets rows r + splitSlack D rows r) / 2 ^ 51

/-- The error is far from the largest double. -/
def InDouble (D : TrainingSet n N) (targets : Fin N → Share n) (rows : Finset (Fin N))
    (r : ℕ) : Prop :=
  splitError D targets rows r + splitSlack D rows r < 2 ^ 200

theorem cellError_nonneg (targets : Fin N → Share n) (cell : Finset (Fin N)) :
    0 ≤ cellError targets cell := by
  unfold cellError
  split
  · positivity
  · exact div_nonneg (Finset.sum_nonneg fun i _ => sq_nonneg _) zero_le_two

theorem splitError_nonneg (D : TrainingSet n N) (targets : Fin N → Share n)
    (rows : Finset (Fin N)) (r : ℕ) : 0 ≤ splitError D targets rows r :=
  Finset.sum_nonneg fun _ _ => cellError_nonneg targets _

/-- The double of a number that is known up to a slack. -/
theorem abs_double_sub_le_of_near [Multiprecision] {x : FixedPoint} {e s : ℚ} (he : 0 ≤ e)
    (hx : |x.getDoubleVal - e| ≤ s) (hrange : e + s < 2 ^ 200) :
    |x.double - e| ≤ s + (e + s) / 2 ^ 51 := by
  have hsize : |x.getDoubleVal| ≤ e + s := by
    rw [abs_le] at hx ⊢
    exact ⟨by linarith, by linarith⟩
  have hvalue : |x.value| < 2 ^ 1023 := by
    have hscaled : |(x.value : ℚ)| < 2 ^ 200 * shift := by
      have hunits : (x.value : ℚ) = x.getDoubleVal * shift :=
        (div_mul_cancel₀ _ QuickMpc.Share.shift_cast_pos.ne').symm
      rw [hunits, abs_mul, abs_of_pos QuickMpc.Share.shift_cast_pos]
      exact mul_lt_mul_of_pos_right (hsize.trans_lt hrange) QuickMpc.Share.shift_cast_pos
    have hbound : (2 : ℤ) ^ 200 * shift ≤ 2 ^ 227 := by norm_num [shift]
    have hint : |x.value| < 2 ^ 200 * shift := by exact_mod_cast hscaled
    exact (hint.trans_le hbound).trans_le (pow_le_pow_right₀ one_le_two (by norm_num))
  calc |x.double - e| ≤ |x.double - x.getDoubleVal| + |x.getDoubleVal - e| := abs_sub_le _ _ _
    _ ≤ (e + s) / 2 ^ 51 + s :=
        add_le_add ((FixedPoint.abs_double_sub_le hvalue).trans
          (div_le_div_of_nonneg_right hsize (by positivity))) hx
    _ = s + (e + s) / 2 ^ 51 := add_comm _ _

theorem cellSlack_nonneg (cell : Finset (Fin N)) : 0 ≤ cellSlack n cell := by
  have hulp := ulp_pos
  unfold cellSlack
  positivity

section Returns

variable [Config n] (t : ℕ → BtsTriple n) {targets : Fin N → Share n}

/-! ### One cell -/

/-- A mask selects the terms of a sum. -/
theorem dot_returns {cell : Finset (Fin N)} {mask : Fin N → Share n}
    (hmask : ∀ i, IsBit (i ∈ cell) (mask i)) (x : Fin N → Share n) :
    Supply.Returns (dot t mask x) fun r => toRat r = ∑ i ∈ cell, toRat (x i) := by
  refine .bind (P := fun r => ∀ i, toRat (r i) = if i ∈ cell then toRat (x i) else 0)
    (.take fun k i => ?_) fun r hr => .pure ?_
  · rw [QuickMpc.Share.bulkMul_apply,
      QuickMpc.Share.toRat_whole_mul _ _ _ (hmask i).secret_eq]
    split <;> simp
  · rw [sum, QuickMpc.Share.toRat_foldl_add, QuickMpc.Share.toRat_zero, zero_add,
      ← List.ofFn_eq_map, List.sum_ofFn, Finset.sum_congr rfl fun i _ => hr i,
      Finset.sum_ite_mem, Finset.univ_inter]

/-- A vector in which a mask sets all but some rows to `0`. -/
theorem mulVec_returns_toRat {cell : Finset (Fin N)} {mask : Fin N → Share n}
    (hmask : ∀ i, IsBit (i ∈ cell) (mask i)) (x : Fin N → Share n) :
    Supply.Returns (mulVec t x mask) fun r =>
      ∀ i, toRat (r i) = if i ∈ cell then toRat (x i) else 0 := by
  refine (mulVec_returns t hmask x).mono fun r hr i => ?_
  rw [QuickMpc.Share.toRat_eq, hr i, QuickMpc.Share.toRat_eq]
  split
  · rfl
  · rw [Int.cast_zero, zero_mul]

omit [Config n] in
theorem recons_sum_bits {cell : Finset (Fin N)} {mask : Fin N → Share n}
    (hmask : ∀ i, IsBit (i ∈ cell) (mask i)) :
    recons (sum mask) = FixedPoint.ofInt cell.card := by
  ext
  rw [QuickMpc.Share.recons_value_fixedPoint, secret_sum_bits hmask, FixedPoint.ofInt_value,
    mul_comm]

/-- The comparison with `0` tolerates one unit, which is less than one row. -/
theorem ofInt_eq_zero_iff (k : ℕ) :
    (FixedPoint.ofInt k).eq (FixedPoint.ofInt 0) = true ↔ k = 0 := by
  rw [FixedPoint.eq, Bool.and_eq_true, decide_eq_true_iff, decide_eq_true_iff,
    FixedPoint.ofInt_value, FixedPoint.ofInt_value, shift]
  omega

omit [Config n] in
/-- The error of an empty cell is what *every* party stores. -/
theorem toRat_ofValue_ofInt (k : ℤ) : toRat (ofValue (FixedPoint.ofInt k) : Share n) = n * k := by
  have hsecret : QuickMpc.Share.secret (ofValue (FixedPoint.ofInt k) : Share n) = shift * (n * k) := by
    rw [QuickMpc.Share.secret_ofValue, QuickMpc.Share.denote_eq_value, FixedPoint.ofInt_value,
      nsmul_eq_mul]
    ring
  rw [QuickMpc.Share.toRat_of_secret hsecret]
  push_cast
  rfl

/-- The loop that adds up the squared differences: one unit is lost for each row of the
cell at most. -/
theorem sumSquares_returns {cell : Finset (Fin N)} {average_mask target_mask : Fin N → Share n}
    {average : ℚ} (haverage : ∀ i, toRat (average_mask i) = if i ∈ cell then average else 0)
    (htarget : ∀ i, toRat (target_mask i) = if i ∈ cell then toRat (targets i) else 0) :
    Supply.Returns ((List.finRange N).foldlM (fun ret i => do
        let cur := target_mask i - average_mask i
        let cur ← mul t cur cur
        return ret + cur) (0 : Share n)) fun ret =>
      |toRat ret - spread cell (fun i => toRat (targets i)) average| ≤ cell.card * ulp := by
  refine (Supply.Returns.foldlM_passed (P := fun passed ret =>
    |toRat ret - (passed.map fun i => if i ∈ cell then (toRat (targets i) - average) ^ 2 else 0).sum|
      ≤ (passed.map fun i => if i ∈ cell then ulp else 0).sum)
    (fun passed i rest ret _ hret => ?_) (by simp)).mono fun ret hret => ?_
  · refine .bind (P := fun cur => |toRat cur
        - if i ∈ cell then (toRat (targets i) - average) ^ 2 else 0| ≤ if i ∈ cell then ulp else 0)
      (.take fun k => ?_) fun cur hcur => .pure ?_
    · have hdiff : toRat (target_mask i - average_mask i)
          = if i ∈ cell then toRat (targets i) - average else 0 := by
        rw [QuickMpc.Share.toRat_sub, htarget, haverage]
        split
        · rfl
        · exact sub_zero 0
      by_cases hi : i ∈ cell
      · have hmul := QuickMpc.Share.abs_toRat_mul_sub_lt (t k) (target_mask i - average_mask i)
          (target_mask i - average_mask i)
        rw [hdiff, if_pos hi, ← sq] at hmul
        rw [if_pos hi, if_pos hi]
        exact hmul.le
      · -- the difference is `0`, a whole number
        rw [if_neg hi] at hdiff
        have hwhole : QuickMpc.Share.secret (target_mask i - average_mask i) = shift * 0 := by
          rw [mul_zero, ← QuickMpc.Share.toRat_eq_zero_iff, hdiff]
        rw [if_neg hi, if_neg hi, QuickMpc.Share.toRat_mul_whole _ _ _ hwhole]
        simp
    · rw [List.map_append, List.sum_append, List.map_append, List.sum_append,
        QuickMpc.Share.toRat_add, add_sub_add_comm]
      refine (abs_add_le _ _).trans (add_le_add hret ?_)
      simpa using hcur
  · rw [← List.ofFn_eq_map, List.sum_ofFn, ← List.ofFn_eq_map, List.sum_ofFn, Finset.sum_ite_mem,
      Finset.univ_inter, Finset.sum_ite_mem, Finset.univ_inter, Finset.sum_const, nsmul_eq_mul] at hret
    exact hret

theorem infomationGain_returns_error [Multiprecision] {rows : Finset (Fin N)} {p : Fin N → Prop}
    [DecidablePred p] {T category : Fin N → Share n} (hT : ∀ i, IsBit (i ∈ rows) (T i))
    (hcategory : ∀ i, IsBit (p i) (category i)) :
    Supply.Returns (infomationGain t T targets category) fun gain =>
      |toRat gain - cellError targets (rows.filter p)| ≤ cellSlack n (rows.filter p) := by
  set cell := rows.filter p with hcell
  have hmask : Supply.Returns (mulVec t category T) fun mask => ∀ i, IsBit (i ∈ cell) (mask i) := by
    refine (mulVec_returns_and t hcategory hT).mono fun mask hmask i => ?_
    have hbit := hmask i
    rw [IsBit] at hbit ⊢
    rw [hbit]
    exact if_congr (by rw [hcell, Finset.mem_filter, and_comm]) rfl rfl
  refine hmask.bind fun mask hmask => ?_
  rw [recons_sum_bits hmask]
  dsimp only
  split
  · -- an empty cell
    rename_i hempty
    rw [ofInt_eq_zero_iff, Finset.card_eq_zero] at hempty
    refine .pure ?_
    rw [cellError, if_pos hempty, toRat_ofValue_ofInt]
    simpa using cellSlack_nonneg cell
  · rename_i hsome
    rw [ofInt_eq_zero_iff] at hsome
    have hcard : (cell.card : ℤ) ≠ 0 := by exact_mod_cast hsome
    refine (dot_returns t hmask targets).bind fun dot hdot => ?_
    have haverage := QuickMpc.Share.abs_toRat_div_ofInt_sub_le dot hcard
    rw [hdot] at haverage
    set average := dot / FixedPoint.ofInt cell.card
    refine (mulVec_returns_toRat t hmask fun _ => average).bind fun average_mask haverage_mask => ?_
    refine (mulVec_returns_toRat t hmask targets).bind fun target_mask htarget_mask => ?_
    refine (sumSquares_returns t haverage_mask htarget_mask).bind fun ret hret => .pure ?_
    have hhalf := QuickMpc.Share.abs_toRat_div_ofInt_sub_le ret (k := 2) two_ne_zero
    have hmean : |meanTarget targets cell - toRat average| ≤ n * ulp := by
      rw [abs_sub_comm]
      exact_mod_cast haverage
    have hlow := MeanSquares.spread_mean_le (s := cell) (x := fun i => toRat (targets i)) (toRat average)
    have hhigh := MeanSquares.spread_le_of_abs_sub_le hmean
    rw [cellError, if_neg fun h => hsome (Finset.card_eq_zero.mpr h), cellSlack]
    rw [abs_le] at hret hhalf ⊢
    unfold meanTarget at *
    push_cast at hhalf
    constructor <;> linarith

/-! ### The choice of the attribute -/

variable {D : TrainingSet n N} {rows : Finset (Fin N)} {T : Fin N → Share n}

omit [Config n] in
/-- Every row is in one cell of a split. -/
theorem sum_card_withValue {r : ℕ} {values : List (Fin N → Share n)} (hvalues : D.S[r]? = some values) :
    ∑ v ∈ Finset.range values.length, (D.withValue r v rows).card = rows.card := by
  refine (Finset.card_eq_sum_card_fiberwise (f := D.value r) fun i _ => ?_).symm
  exact Finset.mem_coe.mpr (Finset.mem_range.mpr (D.value_lt hvalues i))

omit [Config n] in
theorem sum_cellSlack {r : ℕ} {values : List (Fin N → Share n)} (hvalues : D.S[r]? = some values) :
    ∑ v ∈ Finset.range values.length, cellSlack n (D.withValue r v rows) = splitSlack D rows r := by
  unfold cellSlack splitSlack
  rw [Finset.sum_add_distrib, Finset.sum_const, Finset.card_range, nsmul_eq_mul, ← Finset.sum_div,
    ← Finset.sum_mul, ← Nat.cast_sum, sum_card_withValue hvalues, hvalues, Option.elim_some]

/-- The error that is opened for one attribute. -/
theorem categoryError_returns [Multiprecision] (hT : ∀ i, IsBit (i ∈ rows) (T i)) {r : ℕ}
    (hr : r < D.S.length) :
    Supply.Returns (categoryError t D.S T targets r) fun p =>
      p.2 = r ∧ (InDouble D targets rows r →
        |p.1 - splitError D targets rows r| ≤ doubleSlack D targets rows r) := by
  have hvalues : D.S[r]? = some D.S[r] := List.getElem?_eq_getElem hr
  rw [categoryError, hvalues]
  refine (Supply.Returns.foldlM_passed (P := fun passed sumError =>
    |toRat sumError - ∑ v ∈ Finset.range passed.length, cellError targets (D.withValue r v rows)|
      ≤ ∑ v ∈ Finset.range passed.length, cellSlack n (D.withValue r v rows))
    (fun passed category rest sumError hsplit herror => ?_) (by simp)).bind
      fun sumError herror => .pure ⟨rfl, fun hrange => ?_⟩
  · have hcategory : D.S[r][passed.length]? = some category := by
      rw [← hsplit, List.getElem?_append_right le_rfl, Nat.sub_self, List.getElem?_cons_zero]
    refine (infomationGain_returns_error t hT (D.isBit hvalues hcategory)).bind
      fun gain hgain => .pure ?_
    rw [List.length_append, List.length_singleton, Finset.sum_range_succ, Finset.sum_range_succ,
      QuickMpc.Share.toRat_add, add_sub_add_comm]
    exact (abs_add_le _ _).trans (add_le_add herror hgain)
  · rw [sum_cellSlack hvalues] at herror
    refine abs_double_sub_le_of_near (splitError_nonneg D targets rows r) ?_ hrange
    rw [splitError, hvalues, Option.elim_some]
    exact herror

/-- The smallest key. -/
theorem min_element_le {κ : Type} [LinearOrder κ] {ps : List (κ × ℕ)} {p : κ × ℕ}
    (h : min_element ps = some p) : ∀ q ∈ ps, p.1 ≤ q.1 := by
  have hlex : ∀ p q : κ × ℕ, pairLt p q ↔ toLex p < toLex q := fun p q =>
    Prod.Lex.toLex_lt_toLex.symm
  intro q hq
  have hnot : ¬pairLt q p := by
    refine bestElement_not_better (fun p q hpq => ?_) (fun p q r hpq hqr => ?_) h q hq
    · rw [hlex] at hpq ⊢
      exact hpq.not_gt
    · rw [hlex, not_lt] at hpq hqr ⊢
      exact hqr.trans hpq
  exact not_lt.mp fun hlt => hnot (.inl hlt)

/-- `IG` picks an attribute that is left, and no other has a smaller error, up to the
rounding of both, as long as all of them are far from the largest double. -/
structure Picks (D : TrainingSet n N) (targets : Fin N → Share n) (rows : Finset (Fin N))
    (R : List ℕ) (error : ℚ) (a : ℕ) : Prop where
  mem : a ∈ R
  error : InDouble D targets rows a →
    |error - splitError D targets rows a| ≤ doubleSlack D targets rows a
  le : (∀ r ∈ R, InDouble D targets rows r) → ∀ r ∈ R, splitError D targets rows a
    ≤ splitError D targets rows r + (doubleSlack D targets rows a + doubleSlack D targets rows r)

theorem IG_picks [Multiprecision] (hT : ∀ i, IsBit (i ∈ rows) (T i)) {R : List ℕ}
    (hR : ∀ r ∈ R, r < D.S.length) :
    Supply.Returns (IG t D.S targets T R) fun p =>
      (R = [] ∧ p.2 = none) ∨ ∃ a, p.2 = some a ∧ Picks D targets rows R p.1 a := by
  refine (Supply.Returns.mapM (P := fun k p => R[k]? = some p.2 ∧
    (InDouble D targets rows p.2 →
      |p.1 - splitError D targets rows p.2| ≤ doubleSlack D targets rows p.2)) fun k r hr => ?_).bind
      fun categoryErrors hcat => ?_
  · have hlt := hR r (List.mem_of_getElem? hr)
    refine (categoryError_returns t hT hlt).mono fun p hp => ?_
    obtain ⟨rfl, herror⟩ := hp
    exact ⟨hr, herror⟩
  · cases hmin : min_element categoryErrors with
    | none =>
        refine .pure (.inl ⟨?_, rfl⟩)
        by_contra hne
        have hnonempty : categoryErrors ≠ [] := by
          intro hnil
          rw [hnil] at hcat
          exact hne (List.length_eq_zero_iff.mp hcat.1.symm)
        obtain ⟨p, hp⟩ := bestElement_isSome pairLt hnonempty
        rw [min_element, hp] at hmin
        cases hmin
    | some p =>
        obtain ⟨error, a⟩ := p
        obtain ⟨k, hk⟩ := List.mem_iff_getElem?.mp (bestElement_mem hmin)
        obtain ⟨ha, herror⟩ := hcat.2 k _ hk
        refine .pure (.inr ⟨a, rfl, List.mem_of_getElem? ha, herror, fun hrange r hr => ?_⟩)
        -- the error that was opened for `r` is no smaller
        obtain ⟨j, hj⟩ := List.mem_iff_getElem?.mp hr
        have hlt : j < categoryErrors.length := hcat.1 ▸ (List.getElem?_eq_some_iff.mp hj).1
        obtain ⟨hr', herror'⟩ := hcat.2 j _ (List.getElem?_eq_getElem hlt)
        obtain rfl : r = categoryErrors[j].2 := Option.some.inj (hj.symm.trans hr')
        have hle := min_element_le hmin _ (List.getElem_mem hlt)
        obtain ⟨hlow, -⟩ := abs_le.mp (herror (hrange a (List.mem_of_getElem? ha)))
        obtain ⟨-, hhigh⟩ := abs_le.mp (herror' (hrange _ hr))
        linarith

end Returns

end QuickMpc.Gbdt.SID3Regression
