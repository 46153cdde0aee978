import QuickMpc.Gbdt.Cells
import QuickMpc.Gbdt.SplitError

/-!
# QuickMpc.Gbdt.GreedyTree

`SID3Regression::createTree` is the greedy regression tree, up to rounding: it stops
when no attribute is left or at most a third of the rows is, it splits by an attribute
that is left and whose error is the smallest, as far as doubles tell, and every node stores
the mean of the targets of its rows. What it predicts for any row, seen in training or not, is the mean
of the training rows that agree with it on the attributes on the way down.
-/

namespace QuickMpc.Gbdt.SID3Regression

open QuickMpc.Share (toRat ulp)
open FixedPoint (shift)
open MeanSquares (mean)

variable {n N : ℕ}

/-! ### The greedy tree -/

/-- What a node stores that was made for the mask `rows`, when the attributes `R` were
left. -/
structure Node.Fitted (D : TrainingSet n N) (targets : Fin N → Share n) (rows : Finset (Fin N))
    (R : List ℕ) (cur : Node n N) : Prop extends Node.Fits rows cur where
  mean : |toRat cur.y - meanTarget targets rows| ≤ n * ulp
  picks : R ≠ [] → ∃ a, cur.att_class = some a ∧ Picks D targets rows R cur.error_value a

/-- The tree that the greedy algorithm grows from the mask `rows` with the attributes
`R`. -/
inductive Greedy (D : TrainingSet n N) (targets : Fin N → Share n) :
    Finset (Fin N) → List ℕ → SID3Regression n N → Prop
  | leaf {rows : Finset (Fin N)} {R : List ℕ} {cur : Node n N} : cur.Fitted D targets rows R →
      (R = [] ∨ 3 * rows.card ≤ N) → Greedy D targets rows R (.node cur [])
  | inner {rows : Finset (Fin N)} {R : List ℕ} {cur : Node n N} {cs : List (SID3Regression n N)}
      {a : ℕ} {values : List (Fin N → Share n)} : cur.Fitted D targets rows R → a ∈ R →
      N < 3 * rows.card → cur.att_class = some a → D.S[a]? = some values →
      cs.length = values.length →
      (∀ v c, cs[v]? = some c → Greedy D targets (D.withValue a v rows) (R.erase a) c) →
      Greedy D targets rows R (.node cur cs)

theorem Greedy.grown {D : TrainingSet n N} {targets : Fin N → Share n} {rows : Finset (Fin N)}
    {R : List ℕ} {tree : SID3Regression n N} (h : Greedy D targets rows R tree) :
    Grown D rows tree := by
  induction h with
  | leaf hcur _ => exact .leaf hcur.toFits
  | inner hcur _ _ hatt hvalues hlen _ ih => exact .inner hcur.toFits hatt hvalues hlen ih

section Growing

variable [Config n] (t : ℕ → BtsTriple n) {D : TrainingSet n N} {targets : Fin N → Share n}
  {rows : Finset (Fin N)} {T : Fin N → Share n}

/-- A node stores the mean of its rows. A single row, or none, is not divided. -/
theorem new_returns_mean [Multiprecision] (hT : ∀ i, IsBit (i ∈ rows) (T i)) :
    Supply.Returns (new t T targets) fun cur =>
      Node.Fits rows cur ∧ |toRat cur.y - meanTarget targets rows| ≤ n * ulp := by
  have hulp := QuickMpc.Share.ulp_pos
  have hdot : Supply.Returns (dot t targets T) fun y => toRat y = ∑ i ∈ rows, toRat (targets i) := by
    refine (mulVec_returns_toRat t hT targets).bind fun r hr => .pure ?_
    rw [sum, QuickMpc.Share.toRat_foldl_add, QuickMpc.Share.toRat_zero, zero_add,
      ← List.ofFn_eq_map, List.sum_ofFn, Finset.sum_congr rfl fun i _ => hr i,
      Finset.sum_ite_mem, Finset.univ_inter]
  refine hdot.bind fun y hy => ?_
  refine (mulVec_returns t hT _).bind fun grads hgrads => .pure ⟨⟨dataSize_eq hT, hgrads⟩, ?_⟩
  dsimp only
  rw [dataSize_eq hT]
  split
  · rename_i hmany
    have hne : (rows.card : ℤ) ≠ 0 := by omega
    have hdiv := QuickMpc.Share.abs_toRat_div_ofInt_sub_le y hne
    rw [hy] at hdiv
    exact_mod_cast hdiv
  · rename_i hfew
    have hmean : meanTarget targets rows = ∑ i ∈ rows, toRat (targets i) := by
      rw [← MeanSquares.card_mul_mean]
      have hcases : rows.card = 0 ∨ rows.card = 1 := by omega
      rcases hcases with hzero | hone
      · obtain rfl := Finset.card_eq_zero.mp hzero
        simp [meanTarget, mean]
      · rw [hone, Nat.cast_one, one_mul, meanTarget]
    rw [hy, hmean, sub_self, abs_zero]
    positivity

/-- One call of `createTree`, when the calls for the children do their part. -/
theorem createTreeBody_returns_greedy [Multiprecision] {R : List ℕ}
    {createChild : (Fin N → Share n) → List ℕ → Supply (SID3Regression n N)}
    (hT : ∀ i, IsBit (i ∈ rows) (T i)) (hR : ∀ r ∈ R, r < D.S.length)
    (hchild : ∀ a ∈ R, ∀ rows' T', (∀ i, IsBit (i ∈ rows') (T' i)) →
      Supply.Returns (createChild T' (R.erase a)) (Greedy D targets rows' (R.erase a))) :
    Supply.Returns (createTreeBody t (IG t D.S targets) D.S targets createChild T R)
      (Greedy D targets rows R) := by
  refine (new_returns_mean t hT).bind fun cur hcur => ?_
  refine (IG_picks t hT hR).bind fun p hp => ?_
  obtain ⟨error_value, att_class⟩ := p
  have hfitted : Node.Fitted D targets rows R { cur with error_value, att_class } :=
    ⟨⟨hcur.1.size, hcur.1.grads⟩, hcur.2, fun hne => hp.resolve_left fun h => hne h.1⟩
  have hsize : cur.size = rows.card := hcur.1.size
  dsimp only
  split
  · rename_i hstop
    refine .pure (.leaf hfitted ?_)
    simp only [hsize, Bool.or_eq_true, List.isEmpty_iff, decide_eq_true_eq] at hstop
    rcases hstop with (hnil | hfew) | hzero
    · exact .inl hnil
    · exact .inr (by omega)
    · exact .inr (by omega)
  · rename_i hgo
    simp only [hsize, Bool.or_eq_true, List.isEmpty_iff, decide_eq_true_eq, not_or] at hgo
    obtain ⟨⟨hne, hmany⟩, -⟩ := hgo
    obtain ⟨a, hatt, hpicks⟩ := hp.resolve_left fun h => hne h.1
    obtain rfl : att_class = some a := hatt
    have ha : a ∈ R := hpicks.mem
    have hlt := hR a ha
    have hvalues : D.S[a]? = some D.S[a] := List.getElem?_eq_getElem hlt
    dsimp only
    rw [hvalues]
    refine (Supply.Returns.mapM (P := fun v => Greedy D targets (D.withValue a v rows) (R.erase a))
      fun v bits hbits => ?_).bind fun cs hcs => ?_
    · exact (TrainingSet.mulVec_returns t hvalues hbits hT).bind fun T_ hT_ => hchild a ha _ T_ hT_
    · exact .pure (.inner hfitted ha (by omega) rfl hvalues hcs.1 hcs.2)

/-- `createTree` grows the greedy tree, from all the rows and all the attributes. -/
theorem createTree_greedy [Multiprecision] (D : TrainingSet n N) (targets : Fin N → Share n)
    (t : ℕ → BtsTriple n) :
    Supply.Returns (createTree t D.S targets D.T D.R) (Greedy D targets Finset.univ D.R) := by
  have hT : ∀ i, IsBit (i ∈ Finset.univ) (D.T i) := by
    intro i
    rw [IsBit, D.T_ones i]
    exact if_congr (by simp) rfl rfl
  exact TrainingSet.returns_of_erase (P := fun rows R => Greedy D targets rows R)
    (fun _ _ => rfl) (fun _ _ _ => rfl)
    (fun hT hR hchild => createTreeBody_returns_greedy t hT hR hchild) le_rfl hT D.R_lt

end Growing

/-! ### The prediction -/

/-- The child that a row with the attribute values `value` goes to. -/
def childFor (value : ℕ → ℕ) (cur : Node n N) : ℕ := cur.att_class.elim 0 value

/-- The training rows that go the same way as a row with the attribute values `value`, at
the nodes `inner`. -/
def sameWay (D : TrainingSet n N) (value : ℕ → ℕ) (inner : List (Node n N)) : Finset (Fin N) :=
  Finset.univ.filter fun i => ∀ cur ∈ inner, childFor (fun a => D.value a i) cur = childFor value cur

/-- A row with one attribute vector for each attribute of the training set, of its width. -/
def FitsRow (D : TrainingSet n N) (value : ℕ → ℕ) (data : List (List (Share n))) : Prop :=
  ∀ a values, D.S[a]? = some values →
    ∃ bits, data[a]? = some bits ∧ bits.length = values.length ∧ OneHot bits (value a)

section Predicting

variable {D : TrainingSet n N} {targets : Fin N → Share n} {rows : Finset (Fin N)} {R : List ℕ}
  {tree : SID3Regression n N} {value : ℕ → ℕ} {data : List (List (Share n))}

/-- Every leaf stores the mean of its rows. -/
theorem Greedy.cells (h : Greedy D targets rows R tree) :
    Cells D Node.att_class (fun rows cur => |toRat cur.y - meanTarget targets rows| ≤ n * ulp)
      rows tree := by
  induction h with
  | leaf hcur _ => exact .leaf hcur.mean
  | inner _ _ _ hatt hvalues hlen _ ih => exact .inner hatt hvalues hlen ih

/-- The leaf of a row stores the mean of the training rows that go the same way. -/
theorem Greedy.exists_leaf (h : Greedy D targets rows R tree) (hdata : FitsRow D value data) :
    ∃ inner leaf, tree.descend (childFor value) = some (inner, leaf) ∧
      |toRat leaf.y - meanTarget targets (rows ∩ sameWay D value inner)| ≤ n * ulp :=
  h.cells.exists_leaf hdata

/-- The training rows that go the same way as a row, down to its leaf. -/
def cellOf (D : TrainingSet n N) (value : ℕ → ℕ) (tree : SID3Regression n N) : Finset (Fin N) :=
  sameWay D value ((tree.descend (childFor value)).elim [] Prod.fst)

theorem Greedy.predict_returns [Config n] {t : ℕ → BtsTriple n}
    (h : Greedy D targets Finset.univ R tree) (hdata : FitsRow D value data) :
    Supply.Returns (predict t data tree) fun r =>
      |toRat r - meanTarget targets (cellOf D value tree)| ≤ n * ulp := by
  refine (h.cells.predict_returns hdata).mono fun r hr => ?_
  obtain ⟨leaf, hmean, hsecret⟩ := hr
  rw [← QuickMpc.Share.toRat_inj] at hsecret
  rw [hsecret]
  exact hmean

/-- **`createTree` grows the greedy tree**: it splits a node by an attribute whose error is the
smallest, up to the rounding of the errors and of the doubles that are compared. What it
predicts is a mean: of the targets of the training rows that agree with the row on the
attributes on its way down, up to one unit for each party. -/
theorem predict_mean [Multiprecision] [Config n] (D : TrainingSet n N) (targets : Fin N → Share n)
    (t : ℕ → BtsTriple n) :
    Supply.Returns (createTree t D.S targets D.T D.R) fun tree =>
      Greedy D targets Finset.univ D.R tree ∧
      ∀ value data, FitsRow D value data →
        Supply.Returns (predict t data tree) fun r =>
          |toRat r - meanTarget targets (cellOf D value tree)| ≤ n * ulp :=
  (createTree_greedy D targets t).mono fun _ htree =>
    ⟨htree, fun _ _ hdata => htree.predict_returns hdata⟩

/-! ### Training rows -/

/-- The attribute vectors of a training row. -/
theorem fitsRow_rowData (D : TrainingSet n N) (i : Fin N) :
    FitsRow D (fun a => D.value a i) (rowData D.S i) :=
  SID3.oneHotInput_rowData D i

theorem childFor_value (D : TrainingSet n N) (i : Fin N) :
    childFor (fun a => D.value a i) = nextChild D i := by
  funext cur
  unfold childFor nextChild
  cases cur.att_class <;> rfl

/-- The cells of the training rows are those of a partition. -/
theorem Greedy.mem_cellOf_iff (h : Greedy D targets Finset.univ R tree) (i j : Fin N) :
    j ∈ cellOf D (fun a => D.value a i) tree
      ↔ cellOf D (fun a => D.value a j) tree = cellOf D (fun a => D.value a i) tree :=
  h.cells.mem_cellOf_iff i j

end Predicting

end QuickMpc.Gbdt.SID3Regression
