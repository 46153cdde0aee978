import QuickMpc.Gbdt.GreedyTree
import QuickMpc.Lib.RootSquares
import QuickMpc.Math.Statistics

/-!
# QuickMpc.Gbdt.SGBM

Gradient boosting. A model starts at the mean of the targets; every round grows a tree for
the residuals of the current values, and adds its gradient, scaled by the learning rate, to
the current values.

`Boosted` records the rounds: the residuals and the tree that was grown for them. What
`predict` returns is the mean of the targets plus, for every round, the scaled mean of the
residuals of the training rows that go the same way. The current values are the predictions
of the training rows only where `grad` loses none: a row that it loses keeps its value for
the round. While no row is lost, no round makes the training error larger.
-/

namespace QuickMpc.Gbdt

open SID3Regression
open QuickMpc.Share (toRat ulp)
open MeanSquares (mean)

variable {n N : ℕ}

/-- The model: what it was made with, and what `boosting` leaves in it. -/
structure SGBM (n N : ℕ) where
  T : Fin N → Share n
  S : List (List (Fin N → Share n))
  targets : Fin N → Share n
  R : List ℕ
  lr : FixedPoint
  trees : List (SID3Regression n N)
  init : Share n

namespace SGBM

/-! ### The code -/

section Code

variable [Config n] (t : ℕ → BtsTriple n)

/-- One iteration of `boosting`, on the trees and the current values. -/
def round [Multiprecision] (m : SGBM n N) (cur : List (SID3Regression n N) × (Fin N → Share n)) :
    Supply (List (SID3Regression n N) × (Fin N → Share n)) := do
  let (trees, currentY) := cur
  let diff := fun i => m.targets i - currentY i
  let tree ← createTree t m.S diff m.T m.R
  let grad := grad tree
  return (trees ++ [tree], fun i => currentY i + m.lr * grad i)

/-- `boosting`; returns the current values, and the model after the call. -/
def boosting [Multiprecision] (m : SGBM n N) (numIterations : ℕ) :
    Supply ((Fin N → Share n) × SGBM n N) := do
  let init := Math.smean m.targets
  let (trees, currentY) ← (List.range numIterations).foldlM (fun cur _ => round t m cur)
    (m.trees, fun _ => init)
  return (currentY, { m with trees, init })

/-- `predict`. -/
def predict (m : SGBM n N) (data : List (List (Share n))) : Supply (Share n) :=
  m.trees.foldlM (fun ret tree => do
    let value ← SID3Regression.predict t data tree
    return ret + m.lr * value) m.init

end Code

/-- A model before the first `boosting`. -/
def untrained (D : TrainingSet n N) (targets : Fin N → Share n) (lr : FixedPoint) : SGBM n N where
  T := D.T
  S := D.S
  targets := targets
  R := D.R
  lr := lr
  trees := []
  init := 0

/-! ### The rounds -/

/-- What one round has fitted, and the tree that it has grown. -/
structure Round (n N : ℕ) where
  diff : Fin N → Share n
  tree : SID3Regression n N

/-- The rounds of `boosting`, and the current values after them. -/
inductive Boosted (D : TrainingSet n N) (targets : Fin N → Share n) (lr : FixedPoint)
    (init : Share n) : List (Round n N) → (Fin N → Share n) → Prop
  | start : Boosted D targets lr init [] fun _ => init
  | round {rounds : List (Round n N)} {currentY : Fin N → Share n} {tree : SID3Regression n N} :
      Boosted D targets lr init rounds currentY →
      Greedy D (fun i => targets i - currentY i) Finset.univ D.R tree →
      Boosted D targets lr init (rounds ++ [⟨fun i => targets i - currentY i, tree⟩])
        fun i => currentY i + lr * grad tree i

section Boosting

variable [Config n] (t : ℕ → BtsTriple n) (D : TrainingSet n N) (targets : Fin N → Share n)
  (lr : FixedPoint)

/-- `boosting` starts at the computed mean and runs its rounds. -/
theorem boosting_returns [Multiprecision] (numIterations : ℕ) :
    Supply.Returns (boosting t (untrained D targets lr) numIterations) fun p =>
      ∃ rounds, rounds.length = numIterations ∧ p.2.trees = rounds.map Round.tree ∧
        p.2.lr = lr ∧ p.2.init = Math.smean targets ∧
        Boosted D targets lr p.2.init rounds p.1 := by
  refine (Supply.Returns.foldlM_passed (P := fun passed cur =>
    ∃ rounds, rounds.length = passed.length ∧ cur.1 = rounds.map Round.tree ∧
      Boosted D targets lr (Math.smean targets) rounds cur.2)
    (fun passed it rest cur _ hcur => ?_) ⟨[], rfl, rfl, .start⟩).bind fun cur hcur => .pure ?_
  · obtain ⟨rounds, hlen, htrees, hrounds⟩ := hcur
    refine (createTree_greedy D _ t).bind fun tree htree => .pure ?_
    refine ⟨_, ?_, ?_, .round hrounds htree⟩
    · rw [List.length_append, List.length_append, hlen, List.length_singleton,
        List.length_singleton]
    · rw [List.map_append, List.map_singleton, ← htrees]
  · obtain ⟨rounds, hlen, htrees, hrounds⟩ := hcur
    rw [List.length_range] at hlen
    exact ⟨rounds, hlen, htrees, rfl, rfl, hrounds⟩

end Boosting

theorem Boosted.greedy {D : TrainingSet n N} {targets : Fin N → Share n} {lr : FixedPoint}
    {init : Share n} {rounds : List (Round n N)} {currentY : Fin N → Share n}
    (h : Boosted D targets lr init rounds currentY) :
    ∀ r ∈ rounds, Greedy D r.diff Finset.univ D.R r.tree := by
  induction h with
  | start => exact fun r hr => by cases hr
  | round _ htree ih =>
      intro r hr
      rcases List.mem_append.mp hr with hr | hr
      · exact ih r hr
      · obtain rfl := List.mem_singleton.mp hr
        exact htree

/-! ### Predictions -/

/-- One more tree of `predict`. -/
theorem predict_append [Config n] (t : ℕ → BtsTriple n) (m : SGBM n N)
    (trees : List (SID3Regression n N)) (tree : SID3Regression n N) (data : List (List (Share n))) :
    predict t { m with trees := trees ++ [tree] } data = (do
      let ret ← predict t { m with trees := trees } data
      let value ← SID3Regression.predict t data tree
      return ret + m.lr * value) := by
  simp only [predict, List.foldlM_append, List.foldlM_cons, List.foldlM_nil, bind_pure]

/-- A scaled value that is known up to one unit for each party. -/
theorem abs_lr_mul_sub_le (lr : FixedPoint) {x : Share n} {a : ℚ}
    (h : |toRat x - a| ≤ n * ulp) :
    |toRat (lr * x) - lr.getDoubleVal * a| ≤ (1 + |lr.getDoubleVal|) * (n * ulp) := by
  have hscaled := QuickMpc.Share.abs_toRat_value_mul_sub_le lr x
  have hmul : |lr.getDoubleVal * (toRat x - a)| ≤ |lr.getDoubleVal| * (n * ulp) := by
    rw [abs_mul]
    exact mul_le_mul_of_nonneg_left h (abs_nonneg _)
  calc |toRat (lr * x) - lr.getDoubleVal * a|
      ≤ |toRat (lr * x) - lr.getDoubleVal * toRat x| + |lr.getDoubleVal * (toRat x - a)| := by
        rw [mul_sub]
        exact abs_sub_le _ _ _
    _ ≤ n * ulp + |lr.getDoubleVal| * (n * ulp) := add_le_add hscaled hmul
    _ = (1 + |lr.getDoubleVal|) * (n * ulp) := by ring

section Predicting

variable [Config n] (t : ℕ → BtsTriple n) {D : TrainingSet n N} {targets : Fin N → Share n}
  {currentY : Fin N → Share n} {rounds : List (Round n N)}

/-- The prediction for a row with the attribute values `value`: every round adds the scaled
mean of the residuals of the training rows that go the same way. -/
theorem Boosted.predict_returns {m : SGBM n N} (h : Boosted D targets m.lr m.init rounds currentY)
    {value : ℕ → ℕ} {data : List (List (Share n))} (hdata : FitsRow D value data) :
    Supply.Returns (predict t { m with trees := rounds.map Round.tree } data) fun r =>
      |toRat r - (toRat m.init + m.lr.getDoubleVal *
          (rounds.map fun r => meanTarget r.diff (cellOf D value r.tree)).sum)|
        ≤ rounds.length * ((1 + |m.lr.getDoubleVal|) * (n * ulp)) := by
  induction h with
  | start =>
      refine .pure ?_
      simp
  | @round rounds currentY tree _ htree ih =>
      rw [List.map_append, List.map_singleton, predict_append]
      refine ih.bind fun ret hret => ?_
      refine (htree.predict_returns hdata).bind fun leaf hleaf => .pure ?_
      have hstep := abs_lr_mul_sub_le m.lr hleaf
      rw [QuickMpc.Share.toRat_add, List.map_append, List.sum_append, List.map_singleton,
        List.sum_singleton, mul_add, ← add_assoc, add_sub_add_comm, List.length_append,
        List.length_singleton, Nat.cast_add, Nat.cast_one, add_one_mul]
      exact (abs_add_le _ _).trans (add_le_add hret hstep)

end Predicting

/-- **Boosting fits the residuals**: it returns, every round grows the greedy tree for the
residuals of the values so far, and the prediction for any row, seen in training or not, is
the mean of the targets plus, for every round, the scaled mean of the residuals of the
training rows that go the same way. -/
theorem boosting_additive [Multiprecision] [Config n] (D : TrainingSet n N)
    (targets : Fin N → Share n) (lr : FixedPoint) (t : ℕ → BtsTriple n) (numIterations : ℕ)
    (hN : 0 < N) :
    Supply.Returns (boosting t (untrained D targets lr) numIterations) fun p =>
      ∃ rounds, rounds.length = numIterations ∧ p.2.trees = rounds.map Round.tree ∧
        Boosted D targets lr p.2.init rounds p.1 ∧
        ∀ value data, FitsRow D value data →
          Supply.Returns (predict t p.2 data) fun r =>
            |toRat r - (Math.columnMean targets + lr.getDoubleVal *
                (rounds.map fun r => meanTarget r.diff (cellOf D value r.tree)).sum)|
              ≤ (1 + numIterations * (1 + |lr.getDoubleVal|)) * (n * ulp) := by
  refine (boosting_returns t D targets lr numIterations).mono fun p hp => ?_
  obtain ⟨currentY, m⟩ := p
  obtain ⟨rounds, hlen, htrees, rfl, hinit, hrounds⟩ := hp
  refine ⟨rounds, hlen, htrees, hrounds, fun value data hdata => ?_⟩
  have hpredict := hrounds.predict_returns t hdata
  rw [← htrees] at hpredict
  refine hpredict.mono fun r hr => ?_
  have hmean := Math.abs_smean_sub_le hN targets
  rw [← hinit] at hmean
  rw [hlen] at hr
  rw [abs_le] at hr hmean ⊢
  constructor <;> linarith

theorem boosting_additive_three :
    letI := threeParties
    letI := Multiprecision.plain
    Supply.Returns (boosting exampleTriples
        (untrained exampleTable exampleTargets (FixedPoint.ofDouble (1 / 10))) 2) fun p =>
      ∃ rounds, rounds.length = 2 ∧ p.2.trees = rounds.map Round.tree ∧
        Boosted exampleTable exampleTargets (FixedPoint.ofDouble (1 / 10)) p.2.init rounds p.1 ∧
        ∀ value data, FitsRow exampleTable value data →
          Supply.Returns (predict exampleTriples p.2 data) fun r =>
            |toRat r - (Math.columnMean exampleTargets
                + (FixedPoint.ofDouble (1 / 10)).getDoubleVal * (rounds.map fun r =>
                  meanTarget r.diff (cellOf exampleTable value r.tree)).sum)|
              ≤ (1 + (2 : ℕ) * (1 + |(FixedPoint.ofDouble (1 / 10)).getDoubleVal|))
                * ((3 : ℕ) * ulp) :=
  letI := threeParties
  letI := Multiprecision.plain
  boosting_additive exampleTable exampleTargets (FixedPoint.ofDouble (1 / 10)) exampleTriples 2
    (by decide)

/-! ### Training rows -/

/-- What `grad` leaves out for a training row. -/
def lost (D : TrainingSet n N) (i : Fin N) (tree : SID3Regression n N) : ℚ :=
  match tree.descend (nextChild D i) with
  | some (inner, leaf) => if ∀ cur ∈ inner, (i : ℤ) < cur.size then 0 else toRat leaf.y
  | none => 0

section TrainingRows

variable {D : TrainingSet n N} {targets : Fin N → Share n} {currentY : Fin N → Share n}
  {rounds : List (Round n N)}

/-- The prediction for a training row is its gradient and what `grad` leaves out. -/
theorem predict_row_returns [Config n] (t : ℕ → BtsTriple n) {R : List ℕ}
    {tree : SID3Regression n N} (h : Greedy D targets Finset.univ R tree) (i : Fin N) :
    Supply.Returns (SID3Regression.predict t (rowData D.S i) tree) fun r =>
      toRat r = toRat (grad tree i) + lost D i tree := by
  obtain ⟨inner, leaf, hwalk, hgrad⟩ := h.grown.secret_grad_of_mem (Finset.mem_univ i)
  refine (Gbdt.predict_returns (h.grown.selects i)).mono fun r hr => ?_
  rw [leafValue_of_descend hwalk, ← QuickMpc.Share.toRat_inj] at hr
  rw [lost, hwalk, hr]
  dsimp only
  split at hgrad
  · rename_i hall
    rw [if_pos hall, add_zero, QuickMpc.Share.toRat_inj, hgrad]
  · rename_i hlost
    rw [if_neg hlost, QuickMpc.Share.toRat_eq_zero_iff.mpr hgrad, zero_add]

theorem Boosted.predict_row_returns [Config n] (t : ℕ → BtsTriple n) {m : SGBM n N}
    (h : Boosted D targets m.lr m.init rounds currentY) (i : Fin N) :
    Supply.Returns (predict t { m with trees := rounds.map Round.tree } (rowData D.S i)) fun r =>
      |toRat r - (toRat (currentY i)
          + m.lr.getDoubleVal * (rounds.map fun r => lost D i r.tree).sum)|
        ≤ rounds.length * (2 * (n * ulp)) := by
  induction h with
  | start =>
      refine .pure ?_
      simp
  | @round rounds currentY tree _ htree ih =>
      rw [List.map_append, List.map_singleton, predict_append]
      refine ih.bind fun ret hret => ?_
      refine (SGBM.predict_row_returns t htree i).bind fun value hvalue => .pure ?_
      have hpredict := QuickMpc.Share.abs_toRat_value_mul_sub_le m.lr value
      have hgrad := QuickMpc.Share.abs_toRat_value_mul_sub_le m.lr (grad tree i)
      rw [hvalue] at hpredict
      rw [QuickMpc.Share.toRat_add, QuickMpc.Share.toRat_add, List.map_append, List.sum_append,
        List.map_singleton, List.sum_singleton, List.length_append, List.length_singleton,
        Nat.cast_add, Nat.cast_one]
      rw [abs_le] at hret hpredict hgrad ⊢
      constructor <;> linarith

end TrainingRows

/-- **The current values are the predictions of the training rows, less what `grad` loses**:
they differ by the scaled values of the leaves, over the trees in which the row is lost. -/
theorem boosting_predict_row [Multiprecision] [Config n] (D : TrainingSet n N)
    (targets : Fin N → Share n) (lr : FixedPoint) (t : ℕ → BtsTriple n) (numIterations : ℕ) :
    Supply.Returns (boosting t (untrained D targets lr) numIterations) fun p =>
      ∀ i, Supply.Returns (predict t p.2 (rowData D.S i)) fun r =>
        |toRat r - (toRat (p.1 i) + lr.getDoubleVal * (p.2.trees.map (lost D i)).sum)|
          ≤ numIterations * (2 * (n * ulp)) := by
  refine (boosting_returns t D targets lr numIterations).mono fun p hp i => ?_
  obtain ⟨currentY, m⟩ := p
  obtain ⟨rounds, hlen, htrees, rfl, -, hrounds⟩ := hp
  have hpredict := hrounds.predict_row_returns t i
  rw [← htrees, hlen] at hpredict
  have hlost : m.trees.map (lost D i) = rounds.map fun r => lost D i r.tree := by
    rw [htrees, List.map_map]
    rfl
  rwa [hlost]

/-! ### The training error -/

/-- The root of the sum of the squared training errors. -/
noncomputable def trainingError (targets currentY : Fin N → Share n) : ℝ :=
  RootSquares.rootSquares fun i => toRat (targets i) - toRat (currentY i)

section Error

variable {D : TrainingSet n N} {targets : Fin N → Share n} {currentY : Fin N → Share n}
  {lr : FixedPoint} {init : Share n} {rounds : List (Round n N)}

theorem Greedy.abs_grad_sub_le {R : List ℕ} {tree : SID3Regression n N}
    (h : Greedy D targets Finset.univ R tree) {i : Fin N} (hkeep : lost D i tree = 0) :
    |toRat (grad tree i) - meanTarget targets (cellOf D (fun a => D.value a i) tree)|
      ≤ n * ulp := by
  obtain ⟨inner, leaf, hwalk, hmean⟩ := h.exists_leaf (fitsRow_rowData D i)
  obtain ⟨inner', leaf', hwalk', hgrad⟩ := h.grown.secret_grad_of_mem (Finset.mem_univ i)
  rw [childFor_value, hwalk'] at hwalk
  obtain ⟨rfl, rfl⟩ := Prod.mk.inj (Option.some.inj hwalk)
  have hvalue : toRat (grad tree i) = toRat leaf'.y := by
    rw [lost, hwalk'] at hkeep
    dsimp only at hkeep
    split at hgrad
    · rw [QuickMpc.Share.toRat_inj, hgrad]
    · rename_i hlost
      rw [if_neg hlost] at hkeep
      rw [hkeep, QuickMpc.Share.toRat_eq_zero_iff, hgrad]
  rwa [cellOf, childFor_value, hwalk', hvalue, Option.elim_some, ← Finset.univ_inter (sameWay _ _ _)]

/-- A round that loses no row makes the training error no larger, up to rounding. -/
theorem trainingError_round_le {tree : SID3Regression n N} (hlr : |1 - lr.getDoubleVal| ≤ 1)
    (htree : Greedy D (fun i => targets i - currentY i) Finset.univ D.R tree)
    (hkeep : ∀ i, lost D i tree = 0) :
    trainingError targets (fun i => currentY i + lr * grad tree i)
      ≤ trainingError targets currentY
        + √N * ((1 + |lr.getDoubleVal|) * (n * ulp) : ℚ) := by
  set x : Fin N → ℚ := fun i => toRat (targets i - currentY i) with hx
  set cell : Fin N → Finset (Fin N) := fun i => cellOf D (fun a => D.value a i) tree
  have hulp := QuickMpc.Share.ulp_pos
  have hclose : ∀ i, |(toRat (targets i) - toRat (currentY i + lr * grad tree i))
      - (x i - lr.getDoubleVal * mean (cell i) x)| ≤ (1 + |lr.getDoubleVal|) * (n * ulp) := by
    intro i
    have h := abs_lr_mul_sub_le lr (Greedy.abs_grad_sub_le htree (hkeep i))
    have hmean : meanTarget (fun i => targets i - currentY i) (cellOf D (fun a => D.value a i) tree)
        = mean (cell i) x := rfl
    have hxi : x i = toRat (targets i) - toRat (currentY i) := QuickMpc.Share.toRat_sub _ _
    rw [abs_sub_comm, hmean] at h
    convert h using 2
    rw [hxi, QuickMpc.Share.toRat_add]
    ring
  have hstep := RootSquares.rootSquares_le_of_sum_sq_le
    (MeanSquares.sum_step_le (x := x) htree.mem_cellOf_iff hlr)
  have hround := RootSquares.rootSquares_le_add (by positivity) hclose
  rw [Fintype.card_fin] at hround
  refine hround.trans (add_le_add (hstep.trans (le_of_eq ?_)) le_rfl)
  rw [trainingError, hx]
  simp only [QuickMpc.Share.toRat_sub]

theorem Boosted.trainingError_le (hlr : |1 - lr.getDoubleVal| ≤ 1)
    (h : Boosted D targets lr init rounds currentY)
    (hkeep : ∀ r ∈ rounds, ∀ i, lost D i r.tree = 0) :
    trainingError targets currentY ≤ trainingError targets (fun _ => init)
      + rounds.length * (√N * ((1 + |lr.getDoubleVal|) * (n * ulp) : ℚ)) := by
  induction h with
  | start => simp
  | @round rounds currentY tree _ htree ih =>
      have hlast := hkeep _ (List.mem_append_right rounds List.mem_cons_self)
      have hround := trainingError_round_le hlr htree hlast
      have hrest := ih fun r hr => hkeep r (List.mem_append_left _ hr)
      rw [List.length_append, List.length_singleton, Nat.cast_add, Nat.cast_one, add_one_mul]
      linarith

theorem Greedy.eq_leaf {rows : Finset (Fin N)} {tree : SID3Regression n N}
    (h : Greedy D targets rows [] tree) : ∃ cur, tree = .node cur [] := by
  cases h with
  | leaf => exact ⟨_, rfl⟩
  | inner _ ha => cases ha

/-- With a single attribute no row is ever lost: all the rows are in use at the root. -/
theorem Greedy.lost_eq_zero {a : ℕ} {tree : SID3Regression n N}
    (h : Greedy D targets Finset.univ [a] tree) (i : Fin N) : lost D i tree = 0 := by
  cases h with
  | leaf =>
      rw [lost, RoseTree.descend_leaf]
      exact if_pos fun cur hcur => by cases hcur
  | @inner _ _ cur cs a' values hcur ha _ hatt hvalues hlen hcs =>
      obtain rfl := List.mem_singleton.mp ha
      have hlt : nextChild D i cur < cs.length := by
        rw [nextChild, hatt, hlen]
        exact D.value_lt hvalues i
      have hchild := List.getElem?_eq_getElem hlt
      have hlast := hcs _ _ hchild
      rw [List.erase_cons_head] at hlast
      obtain ⟨leaf, hleaf⟩ := Greedy.eq_leaf hlast
      rw [hleaf] at hchild
      rw [lost, RoseTree.descend_node hchild, RoseTree.descend_leaf, Option.map_some]
      refine if_pos fun cur' hcur' => ?_
      obtain rfl := List.mem_singleton.mp hcur'
      rw [hcur.size, Finset.card_univ, Fintype.card_fin]
      exact_mod_cast i.isLt

end Error

/-- **Boosting never makes the training error larger**, up to rounding, as long as `grad` loses
no row: for a learning rate between `0` and `2` and over any number of rounds, the root of the
sum of the squared residuals stays below the one that the mean of the targets leaves. -/
theorem boosting_trainingError [Multiprecision] [Config n] (D : TrainingSet n N)
    (targets : Fin N → Share n) (lr : FixedPoint) (hlr : |1 - lr.getDoubleVal| ≤ 1)
    (t : ℕ → BtsTriple n) (numIterations : ℕ) :
    Supply.Returns (boosting t (untrained D targets lr) numIterations) fun p =>
      (∀ tree ∈ p.2.trees, ∀ i, lost D i tree = 0) →
        trainingError targets p.1 ≤ trainingError targets (fun _ => p.2.init)
          + numIterations * (√N * ((1 + |lr.getDoubleVal|) * (n * ulp) : ℚ)) := by
  refine (boosting_returns t D targets lr numIterations).mono fun p hp hkeep => ?_
  obtain ⟨rounds, hlen, htrees, -, -, hrounds⟩ := hp
  have herror := hrounds.trainingError_le hlr fun r hr =>
    hkeep r.tree (htrees ▸ List.mem_map_of_mem hr)
  rwa [hlen] at herror

/-- One attribute, with which no row is lost. -/
def exampleColumn : TrainingSet 3 3 :=
  @TrainingSet.ofTable 3 3 threeParties 1 (fun _ => 2) (fun _ i => min i.val 1)
    fun _ _ i => Nat.lt_succ_of_le (Nat.min_le_right i.val 1)

theorem boosting_trainingError_three :
    letI := threeParties
    letI := Multiprecision.plain
    Supply.Returns (boosting exampleTriples
        (untrained exampleColumn exampleTargets (FixedPoint.ofInt 1)) 2) fun p =>
      trainingError exampleTargets p.1 ≤ trainingError exampleTargets (fun _ => p.2.init)
        + (2 : ℕ) * (√(3 : ℕ) * ((1 + |(FixedPoint.ofInt 1).getDoubleVal|) * ((3 : ℕ) * ulp) : ℚ)) := by
  let _ := threeParties
  let _ := Multiprecision.plain
  have hlr : |1 - (FixedPoint.ofInt 1).getDoubleVal| ≤ 1 := by
    rw [QuickMpc.Share.getDoubleVal_ofInt]
    norm_num
  have herror := boosting_trainingError exampleColumn exampleTargets _ hlr exampleTriples 2
  have hrounds := boosting_returns exampleTriples exampleColumn exampleTargets (FixedPoint.ofInt 1) 2
  refine (herror.and hrounds).mono fun p hp => hp.1 fun tree htree i => ?_
  obtain ⟨rounds, -, htrees, -, -, hboosted⟩ := hp.2
  obtain ⟨r, hr, rfl⟩ := List.mem_map.mp (htrees ▸ htree)
  exact Greedy.lost_eq_zero (hboosted.greedy r hr) i

end SGBM

end QuickMpc.Gbdt
