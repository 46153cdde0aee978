import QuickMpc.LessThanZero
import QuickMpc.Math.ColumnJobs

/-!
# QuickMpc.Model.DecisionTree

Prediction with a weighted list of decision trees that is itself shared: the coefficients
and the threshold of every node, the value of every leaf and the weight of every tree.

The parties walk down a tree together. At a node they compare the inner product of the row
and the coefficients with the threshold, and the outcome of the comparison is opened. The
walk is that of the tree in the clear (`PlainTree`) as long as every difference on the way is
one that the comparison decides (`Decided`): it lies between `-2 ^ 16` and `2 ^ 16`, and is not
negative and closer to zero than `2 ^ -16`, with the rounding of the inner product to spare.
Coefficients that are whole numbers, as the ones of a single column are, add no error of their
own (`slack`).

A column outside the table is read where there is nothing, which C++ leaves undefined;
`outOfRange` stands for it.
-/

namespace QuickMpc.Model

open Share (toRat ulp lessThan)
open Job (IsTable Inside)
open ValueTable (Access access)

variable {n : ℕ}

/-! ### The code -/

/-- The json of a tree, with the texts that the parties hold. -/
inductive DTree (n : ℕ)
  | output (text : Cell n)
  | split (feature_bitvector : List (Cell n)) (threshold : Cell n) (left_child right_child : DTree n)

/-- `Share(dtree[…].get<std::string>())`. -/
def shareOf (parse : String → FixedPoint) (text : Cell n) : Share n FixedPoint :=
  ⟨fun i => parse (text i)⟩

section Code

variable [Config n] (t : ℕ → BtsTriple n) (draws : ℕ → ℕ → Share.LSBDraws n)
  (parse : String → FixedPoint)

/-- `sum(x * y)`, for vectors of any sizes. -/
def sumProducts (x y : List (Share n FixedPoint)) : Supply (Share n FixedPoint) :=
  if h : x.length = y.length then do
    let products ← Gbdt.mulVec t x.get fun i => y.get (i.cast h)
    return Gbdt.sum products
  else failure

/-- `classify`. -/
def classify [Multiprecision] (x : List (Share n FixedPoint)) :
    DTree n → Supply (Share n FixedPoint)
  | .output text => return shareOf parse text
  | .split feature_bitvector threshold left_child right_child => do
      let bv_s := feature_bitvector.map (shareOf parse)
      let val ← sumProducts t x bv_s
      let less ← Supply.take 0 fun k => lessThan (draws k) val (shareOf parse threshold)
      if ← Supply.ofExcept less then classify x left_child else classify x right_child

/-- `predict_f`; a tree has a `weight` and a `tree_structure`. -/
def predict_f [Multiprecision] (dtree_list : List (Cell n × DTree n))
    (x : List (Share n FixedPoint)) :
    Supply (Share n FixedPoint) :=
  dtree_list.foldlM (fun sum dtree => do
    let w := shareOf parse dtree.1
    let out ← classify t draws parse x dtree.2
    let product ← Gbdt.mul t w out
    return sum + product) 0

/-- `table[i][j - 1]`. -/
def cellAt (row : List (Share n FixedPoint)) (j : ℤ) : Access (Share n FixedPoint) :=
  if 1 ≤ j then access row (j - 1).toNat else .error .outOfRange

/-- `parse_table`. -/
def parse_table (table : List (List (Share n FixedPoint))) (arg : List ℤ) :
    Access (List (List (Share n FixedPoint))) :=
  table.mapM fun row => arg.mapM (cellAt row)

/-- `predict`, with the model that `readModelparamJson` returns. -/
def DecisionTree.predict [Multiprecision] (dtree_list : List (Cell n × DTree n))
    (table : List (List (Share n FixedPoint))) (arg : List ℤ) :
    Access (Supply (List (Share n FixedPoint))) := do
  let x ← parse_table table arg
  return x.mapM (predict_f t draws parse dtree_list)

end Code

/-! ### Trees in the clear -/

/-- A decision tree over rows of numbers. -/
inductive PlainTree
  | output (value : ℚ)
  | split (coefficients : List ℚ) (threshold : ℚ) (left right : PlainTree)

def innerProduct (x y : List ℚ) : Option ℚ :=
  if x.length = y.length then some (List.zipWith (fun a b => a * b) x y).sum else none

namespace PlainTree

/-- The value of the leaf, unless a node on the way has coefficients for another width. -/
def classify (x : List ℚ) : PlainTree → Option ℚ
  | .output value => some value
  | .split coefficients threshold left right => do
      let val ← innerProduct x coefficients
      if val < threshold then left.classify x else right.classify x

end PlainTree

/-- The weighted sum of the trees. -/
def plainForest (forest : List (ℚ × PlainTree)) (x : List ℚ) : Option ℚ :=
  forest.foldlM (fun sum tree => do
    let out ← tree.2.classify x
    return sum + tree.1 * out) 0

/-- The tree that is shared. -/
def DTree.plain (parse : String → FixedPoint) : DTree n → PlainTree
  | .output text => .output (toRat (shareOf parse text))
  | .split feature_bitvector threshold left_child right_child =>
      .split (feature_bitvector.map fun b => toRat (shareOf parse b)) (toRat (shareOf parse threshold))
        (left_child.plain parse) (right_child.plain parse)

/-- The rounding of an inner product: one unit for each coefficient that is not whole. -/
def slack (coefficients : List ℚ) : ℚ := (coefficients.map fun b => if b.den = 1 then 0 else ulp).sum

/-- Differences that are compared correctly when they are known up to `ε`. -/
def Comparable (ε d : ℚ) : Prop :=
  -2 ^ 16 + ε < d ∧ d ≤ -(1 / 2 ^ 16) - ε ∨ ε ≤ d ∧ d ≤ 2 ^ 16 - 1 / 2 ^ 16 - ε

instance (ε d : ℚ) : Decidable (Comparable ε d) :=
  inferInstanceAs (Decidable (-2 ^ 16 + ε < d ∧ d ≤ -(1 / 2 ^ 16) - ε ∨
    ε ≤ d ∧ d ≤ 2 ^ 16 - 1 / 2 ^ 16 - ε))

/-- The comparisons on the way of `x` are decided: no difference is out of their range, or too
close. -/
def PlainTree.Decided (x : List ℚ) : PlainTree → Prop
  | .output _ => True
  | .split coefficients threshold left right =>
      ∀ val ∈ innerProduct x coefficients, Comparable (slack coefficients) (val - threshold) ∧
        if val < threshold then left.Decided x else right.Decided x

instance PlainTree.decidableDecided (x : List ℚ) : (tree : PlainTree) → Decidable (tree.Decided x)
  | .output _ => .isTrue trivial
  | .split coefficients threshold left right =>
      have := decidableDecided x left
      have := decidableDecided x right
      inferInstanceAs (Decidable (∀ val ∈ innerProduct x coefficients,
        Comparable (slack coefficients) (val - threshold) ∧
          if val < threshold then left.Decided x else right.Decided x))

/-! ### One node -/

/-- A product with a whole number is exact. -/
theorem abs_toRat_mul_sub_le_of_den [Config n] (t : BtsTriple n) (x y : Share n FixedPoint) :
    |toRat (Share.mul t.convertStr2Triple x y) - toRat x * toRat y|
      ≤ if (toRat y).den = 1 then 0 else ulp := by
  split
  next hden =>
    have hnum : toRat y = (toRat y).num := (Rat.den_eq_one_iff _).mp hden |>.symm
    have hwhole : Share.secret y = FixedPoint.shift * (toRat y).num := by
      have hval : (Share.secret y : ℚ) = FixedPoint.shift * (toRat y).num := by
        rw [← hnum, Share.toRat_eq, mul_left_comm, Share.shift_mul_ulp, mul_one]
      exact_mod_cast hval
    rw [Share.toRat_mul_whole t x y hwhole, ← hnum, sub_self, abs_zero]
  next => exact (Share.abs_toRat_mul_sub_lt t x y).le

/-- The inner product, up to the rounding of its terms. -/
theorem sumProducts_computes [Config n] (t : ℕ → BtsTriple n) (x y : List (Share n FixedPoint)) :
    Supply.Computes (sumProducts t x y) (innerProduct (x.map toRat) (y.map toRat)) fun val v =>
      |toRat val - v| ≤ slack (y.map toRat) := by
  by_cases h : x.length = y.length
  · have hplain : innerProduct (x.map toRat) (y.map toRat)
        = some (∑ i : Fin x.length, toRat (x.get i) * toRat (y.get (i.cast h))) := by
      rw [innerProduct, if_pos (by simpa using h), ← List.sum_ofFn]
      refine congrArg (fun l => some (List.sum l)) (List.ext_getElem (by simp [h]) fun i _ _ => ?_)
      simp
    have hslack : slack (y.map toRat)
        = ∑ i : Fin x.length, if (toRat (y.get (i.cast h))).den = 1 then 0 else ulp := by
      rw [slack, ← List.sum_ofFn]
      refine congrArg List.sum (List.ext_getElem (by simp [h]) fun i _ _ => ?_)
      simp
    rw [hplain, hslack, sumProducts, dif_pos h]
    refine Supply.Returns.bind (P := fun products => ∀ i : Fin x.length,
      |toRat (products i) - toRat (x.get i) * toRat (y.get (i.cast h))|
        ≤ if (toRat (y.get (i.cast h))).den = 1 then 0 else ulp) ?_ fun products hproducts => .pure ?_
    · refine .take fun k i => ?_
      rw [Share.bulkMul_apply]
      exact abs_toRat_mul_sub_le_of_den _ _ _
    · show |toRat (Gbdt.sum products) - _| ≤ _
      rw [Math.toRat_sum]
      exact RoundedSum.abs_sum_sub_sum_le fun i _ => hproducts i
  · have hplain : innerProduct (x.map toRat) (y.map toRat) = none := by
      rw [innerProduct, List.length_map, List.length_map, if_neg h]
    rw [hplain, sumProducts, dif_neg h]
    exact .failure

theorem slack_nonneg (coefficients : List ℚ) : 0 ≤ slack coefficients := by
  refine List.sum_nonneg fun e he => ?_
  obtain ⟨b, -, rfl⟩ := List.mem_map.mp he
  split
  · exact le_rfl
  · exact Share.ulp_pos.le

/-- A comparison in the range of `LTZ`. -/
theorem lessThan_of_inRange [Multiprecision] [Config 3] (draws : ℕ → Share.LSBDraws 3)
    (left right : Share 3 FixedPoint) (h : Share.InRange (Share.secret (left - right) * 2 ^ 16)) :
    lessThan draws left right = .ok (decide (Share.secret (left - right) < 0)) := by
  obtain ⟨z, hz, herr⟩ := Share.LTZ_spec draws (left - right) h
  have hscale : toRat z - (if Share.secret (left - right) < 0 then 1 else 0)
      = ((Share.secret z - if Share.secret (left - right) < 0 then FixedPoint.shift else 0 : ℤ) : ℚ)
        * ulp := by
    rw [Share.toRat_eq]
    split <;> simp [sub_mul, Share.shift_mul_ulp]
  have hclose : |toRat z - (if Share.secret (left - right) < 0 then 1 else 0)| ≤ 1510 * ulp := by
    rw [hscale, abs_mul, abs_of_pos Share.ulp_pos]
    exact mul_le_mul_of_nonneg_right (by exact_mod_cast herr) Share.ulp_pos.le
  have hsmall : 1510 * ulp < 0.05 := by
    rw [ulp, FixedPoint.shift]
    norm_num
  rw [lessThan, Except.bind_ok hz]
  refine Share.decideOpened_of_close ?_
  simp only [decide_eq_true_eq]
  exact hclose.trans_lt hsmall

/-- A comparison that is not too close. -/
theorem lessThan_of_comparable [Multiprecision] [Config 3] (draws : ℕ → Share.LSBDraws 3)
    {left right : Share 3 FixedPoint} {ε d : ℚ} (hε : 0 ≤ ε) (hd : |toRat (left - right) - d| ≤ ε)
    (hrange : Comparable ε d) : lessThan draws left right = .ok (decide (d < 0)) := by
  rw [abs_le] at hd
  have hinside : Share.InRange (Share.secret (left - right) * 2 ^ 16) := by
    rw [← Share.recons_value_fixedPoint]
    refine Share.inRange_of_double ?_
    rw [← Share.toRat]
    rcases hrange with ⟨hlo, hhi⟩ | ⟨hlo, hhi⟩
    · exact .inl ⟨by linarith, by linarith⟩
    · exact .inr ⟨by linarith, by linarith⟩
  have hsign : Share.secret (left - right) < 0 ↔ d < 0 := by
    rw [← Share.recons_value_fixedPoint, ← Share.getDoubleVal_neg_iff, ← Share.toRat]
    rcases hrange with ⟨-, hhi⟩ | ⟨hlo, -⟩
    · exact iff_of_true (by linarith) (by linarith)
    · exact iff_of_false (by linarith) (by linarith)
  simp only [lessThan_of_inRange draws left right hinside, hsign]

/-! ### The walk -/

section Walk

variable [Config 3] (t : ℕ → BtsTriple 3) (draws : ℕ → ℕ → Share.LSBDraws 3)
  (parse : String → FixedPoint)

/-- The parties go down the tree in the clear. -/
theorem classify_computes [Multiprecision] (x : List (Share 3 FixedPoint)) (dtree : DTree 3)
    (h : (dtree.plain parse).Decided (x.map toRat)) :
    Supply.Computes (classify t draws parse x dtree) ((dtree.plain parse).classify (x.map toRat))
      fun out v => toRat out = v := by
  induction dtree with
  | output text => exact .pure rfl
  | split feature_bitvector threshold left_child right_child ihl ihr =>
      have hval := sumProducts_computes t x (feature_bitvector.map (shareOf parse))
      rw [List.map_map] at hval
      refine hval.bind fun val v hv hclose => ?_
      obtain ⟨hrange, hnext⟩ := h v hv
      have hless : ∀ k, lessThan (draws k) val (shareOf parse threshold)
          = .ok (decide (v < toRat (shareOf parse threshold))) := by
        intro k
        have hd : |toRat (val - shareOf parse threshold) - (v - toRat (shareOf parse threshold))|
            ≤ slack (feature_bitvector.map fun b => toRat (shareOf parse b)) := by
          rw [Share.toRat_sub, sub_sub_sub_cancel_right]
          exact hclose
        rw [lessThan_of_comparable (draws k) (slack_nonneg _) hd hrange]
        simp only [sub_neg]
      refine Supply.Returns.bind_computes
        (P := fun less => less = .ok (decide (v < toRat (shareOf parse threshold))))
        (.take hless) fun less hdecided => ?_
      refine (Supply.Returns.ofExcept hdecided (P := fun b => b = decide _) rfl).bind_computes
        fun b hb => ?_
      rw [hb]
      by_cases hlt : v < toRat (shareOf parse threshold)
      · simp only [hlt, if_true, decide_true] at hnext ⊢
        exact ihl hnext
      · simp only [hlt, if_false, decide_false] at hnext ⊢
        exact ihr hnext

/-- The sum over the trees: one unit for every weight. -/
theorem predict_f_computes [Multiprecision] (x : List (Share 3 FixedPoint))
    (dtree_list : List (Cell 3 × DTree 3))
    (h : ∀ dtree ∈ dtree_list, (dtree.2.plain parse).Decided (x.map toRat)) :
    Supply.Computes (predict_f t draws parse dtree_list x)
      (plainForest (dtree_list.map fun dtree => (toRat (shareOf parse dtree.1), dtree.2.plain parse))
        (x.map toRat))
      fun r v => |toRat r - v| ≤ dtree_list.length * ulp := by
  rw [plainForest, List.foldlM_map]
  refine Supply.Computes.foldlM (R := fun k sum v => |toRat sum - v| ≤ k * ulp)
    (fun dtree hdtree k sum v hsum => ?_) (by simp)
  refine (classify_computes t draws parse x dtree.2 (h dtree hdtree)).bind fun out v' _ hout => ?_
  refine Supply.Returns.bind
    (P := fun product => |toRat product - toRat (shareOf parse dtree.1) * toRat out| ≤ ulp)
    (.take fun i => (Share.abs_toRat_mul_sub_lt _ _ _).le) fun product hproduct => .pure ?_
  rw [hout] at hproduct
  dsimp only
  rw [Share.toRat_add, add_sub_add_comm, Nat.cast_succ, add_mul, one_mul]
  exact (abs_add_le _ _).trans (add_le_add hsum hproduct)

end Walk

/-! ### The rows of a request -/

/-- The cells of a row that a request asks for. -/
def cells (row : List (Share n FixedPoint)) (arg : List ℤ) : List (Share n FixedPoint) :=
  arg.map fun j => row.getD (j - 1).toNat 0

section Rows

variable {table : List (List (Share n FixedPoint))} {width : ℕ}

theorem cellAt_eq_ok {row : List (Share n FixedPoint)} {j : ℤ} (hj : 1 ≤ j ∧ j ≤ row.length) :
    cellAt row j = .ok (row.getD (j - 1).toNat 0) := by
  rw [cellAt, if_pos hj.1, ValueTable.access_of_lt (by omega) 0]

theorem cellAt_eq_error {row : List (Share n FixedPoint)} {j : ℤ} (hj : ¬(1 ≤ j ∧ j ≤ row.length)) :
    cellAt row j = .error .outOfRange := by
  rw [cellAt]
  split
  · exact ValueTable.access_of_le (by omega)
  · rfl

theorem parse_table_ok (h : IsTable table width) {arg : List ℤ} (harg : Inside width arg) :
    parse_table table arg = .ok (table.map fun row => cells row arg) :=
  ValueTable.mapM_eq_ok fun row hrow => ValueTable.mapM_eq_ok fun j hj =>
    cellAt_eq_ok (by rw [h.width row hrow]; exact harg j hj)

/-- A request for a column outside the table. -/
theorem parse_table_error (h : IsTable table width) {arg : List ℤ} (harg : ¬Inside width arg) :
    parse_table table arg = .error .outOfRange := by
  obtain ⟨j, hj, hout⟩ := Job.exists_of_not_inside harg
  have hrow : ∀ row ∈ table, arg.mapM (cellAt row) = .error .outOfRange := by
    intro row hrow
    rw [← h.width row hrow] at hout
    refine ValueTable.mapM_eq_error (fun j _ => ?_) ⟨j, hj, cellAt_eq_error hout⟩
    by_cases hin : 1 ≤ j ∧ j ≤ row.length
    · exact .inl ⟨_, cellAt_eq_ok hin⟩
    · exact .inr (cellAt_eq_error hin)
  obtain ⟨row, hmem⟩ := List.exists_mem_of_ne_nil table h.ne_nil
  exact ValueTable.mapM_eq_error (fun row hmem => .inr (hrow row hmem)) ⟨row, hmem, hrow row hmem⟩

end Rows

/-- The reading of the texts `0`, `1` and `2`. -/
def exampleParse : String → FixedPoint
  | "1" => FixedPoint.ofInt 1
  | "2" => FixedPoint.ofInt 2
  | _ => 0

/-- The text at the first party, and `0` at the others. -/
def exampleCell (text : String) : Cell 3 := fun i => if i.val = 0 then text else "0"

/-- A tree over two columns, and a leaf. -/
def exampleForest : List (Cell 3 × DTree 3) :=
  [(exampleCell "2",
    .split [exampleCell "0", exampleCell "1"] (exampleCell "1") (.output (exampleCell "0"))
      (.split [exampleCell "1", exampleCell "1"] (exampleCell "2") (.output (exampleCell "2"))
        (.output (exampleCell "1")))),
    (exampleCell "1", .output (exampleCell "2"))]

end QuickMpc.Model
