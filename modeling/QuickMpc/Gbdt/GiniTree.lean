import QuickMpc.Gbdt.Cells
import QuickMpc.Gbdt.GiniScore

/-!
# QuickMpc.Gbdt.GiniTree

`SID3::createTree` is the greedy classification tree, up to the rounding of the scores: it
stops when no attribute is left, at most half of the training rows is or the best score is
not above `eps`, and it splits by an attribute that has the best cell. What it predicts for
any row, seen in training or not, is the majority class of the training rows that agree
with it on the attributes on the way down.

The opened scores lose the more the larger the cells are, and `eps` is compared with what is
left. Up to some size of the training set it never stops anything (`createTree_small`).
-/

namespace QuickMpc.Gbdt.SID3

open Share (recons)
open QuickMpc.Share (ulp)
open FixedPoint (shift)

variable {n N : ℕ}

/-! ### The greedy tree -/

/-- What a node stores that was made for the mask `rows`, when the attributes `R` were
left. -/
structure Node.Scored [Config n] (D : TrainingSet n N) (L : Classes n N) (rows : Finset (Fin N))
    (R : List ℕ) (cur : Node n) : Prop extends Node.Fits L rows cur where
  picks : R ≠ [] → rows.Nonempty →
    ∃ a, cur.att_class = some a ∧ Picks D L rows R cur.gini_index a

/-- The tree that the greedy algorithm grows from the mask `rows` with the attributes
`R`. -/
inductive Greedy [Config n] (D : TrainingSet n N) (L : Classes n N) :
    Finset (Fin N) → List ℕ → SID3 n → Prop
  | leaf {rows : Finset (Fin N)} {R : List ℕ} {cur : Node n} : cur.Scored D L rows R →
      (R = [] ∨ 2 * rows.card ≤ N ∨ cur.gini_index ≤ eps) → Greedy D L rows R (.node cur [])
  | inner {rows : Finset (Fin N)} {R : List ℕ} {cur : Node n} {cs : List (SID3 n)} {a : ℕ}
      {values : List (Fin N → Share n)} : cur.Scored D L rows R → a ∈ R → N < 2 * rows.card →
      eps < cur.gini_index → cur.att_class = some a → D.S[a]? = some values →
      cs.length = values.length →
      (∀ v c, cs[v]? = some c → Greedy D L (D.withValue a v rows) (R.erase a) c) →
      Greedy D L rows R (.node cur cs)

/-- Every leaf stores the majority class of its rows. -/
theorem Greedy.cells [Config n] {D : TrainingSet n N} {L : Classes n N} {rows : Finset (Fin N)}
    {R : List ℕ} {tree : SID3 n} (h : Greedy D L rows R tree) :
    Cells D Node.att_class (fun rows cur => ∃ c, L.IsMajority rows c ∧
      cur.y = getConstantShare (FixedPoint.ofInt (c : ℕ))) rows tree := by
  induction h with
  | leaf hcur _ => exact .leaf hcur.majority
  | inner _ _ _ _ hatt hvalues hlen _ ih => exact .inner hatt hvalues hlen ih

section Growing

variable [Config n] {t : ℕ → BtsTriple n} (r sent : ℕ → QuickMpc.Share.Draws n)
  {D : TrainingSet n N} {L : Classes n N} {rows : Finset (Fin N)}

omit [Config n] in
/-- A row has a value of every attribute. -/
theorem hasValue (D : TrainingSet n N) {a : ℕ} (ha : a < D.S.length) (i : Fin N) :
    D.HasValue a (D.value a i) :=
  have hvalues := List.getElem?_eq_getElem ha
  ⟨_, hvalues, D.value_lt hvalues i⟩

/-- One call of `createTree`, when the calls for the children do their part. -/
theorem createTreeBody_returns_greedy [Multiprecision] {T : Fin N → Share n} {R : List ℕ}
    {createChild : (Fin N → Share n) → List ℕ → Supply (SID3 n)}
    (hT : ∀ i, IsBit (i ∈ rows) (T i)) (hR : ∀ a ∈ R, a < D.S.length)
    (hchild : ∀ a ∈ R, ∀ rows' T', (∀ i, IsBit (i ∈ rows') (T' i)) →
      Supply.Returns (createChild T' (R.erase a)) (Greedy D L rows' (R.erase a))) :
    Supply.Returns (createTreeBody t (div t r sent) D.S L.targets createChild T R)
      (Greedy D L rows R) := by
  refine (splitTransaction_returns hT).bind fun U hU => ?_
  refine (majorityClass_returns_majority hU).bind fun y hy => ?_
  refine (getMaxGini_picks r sent hU hR).bind fun p hp => ?_
  obtain ⟨gini_index, att_class⟩ := p
  have hsize := dataSize_eq hT
  have hscored : Node.Scored D L rows R
      { T := List.ofFn T, att_class, gini_index, size := dataSize T, y } := by
    refine ⟨node_fits hT hy gini_index att_class, fun hne hrows => hp.resolve_left fun h => ?_⟩
    obtain ⟨a, ha⟩ := List.exists_mem_of_ne_nil R hne
    obtain ⟨i, -⟩ := hrows
    exact h.2 a ha _ (hasValue D (hR a ha) i)
  dsimp only
  split
  · rename_i hstop
    refine .pure (.leaf hscored ?_)
    simp only [hsize, Bool.or_eq_true, List.isEmpty_iff, decide_eq_true_eq] at hstop
    rcases hstop with ((hnil | hfew) | hzero) | heps
    · exact .inl hnil
    · exact .inr (.inl (by omega))
    · exact .inr (.inl (by omega))
    · exact .inr (.inr heps)
  · rename_i hgo
    simp only [hsize, Bool.or_eq_true, List.isEmpty_iff, decide_eq_true_eq, not_or, not_le] at hgo
    obtain ⟨⟨⟨hne, hmany⟩, -⟩, heps⟩ := hgo
    have hrows : rows.Nonempty := Finset.card_pos.mp (by omega)
    obtain ⟨a, hatt, hpicks⟩ := hscored.picks hne hrows
    obtain rfl : att_class = some a := hatt
    have ha : a ∈ R := hpicks.mem
    have hlt := hR a ha
    have hvalues : D.S[a]? = some D.S[a] := List.getElem?_eq_getElem hlt
    dsimp only
    rw [hvalues]
    refine (Supply.Returns.mapM (P := fun v => Greedy D L (D.withValue a v rows) (R.erase a))
      fun v bits hbits => ?_).bind fun cs hcs => ?_
    · exact (TrainingSet.mulVec_returns t hvalues hbits hT).bind fun T_ hT_ => hchild a ha _ T_ hT_
    · exact .pure (.inner hscored ha (by omega) heps rfl hvalues hcs.1 hcs.2)

/-- `createTree` grows the greedy tree, from all the rows and all the attributes. -/
theorem createTree_greedy [Multiprecision] (D : TrainingSet n N) (L : Classes n N)
    (t : ℕ → BtsTriple n) :
    Supply.Returns (createTree t (div t r sent) D.S L.targets D.T D.R)
      (Greedy D L Finset.univ D.R) := by
  have hT : ∀ i, IsBit (i ∈ Finset.univ) (D.T i) := by
    intro i
    rw [IsBit, D.T_ones i]
    exact if_congr (by simp) rfl rfl
  exact TrainingSet.returns_of_erase (P := fun rows R => Greedy D L rows R)
    (fun _ _ => rfl) (fun _ _ _ => rfl)
    (fun hT hR hchild => createTreeBody_returns_greedy r sent hT hR hchild) le_rfl hT D.R_lt

/-! ### The prediction -/

/-- A prediction of the greedy tree. -/
theorem Greedy.predict_returns {R : List ℕ} {tree : SID3 n} (h : Greedy D L Finset.univ R tree)
    {value : ℕ → ℕ} {data : List (List (Share n))} (hdata : OneHotInput D.S data value) :
    Supply.Returns (predict t data tree) fun r =>
      ∃ c, L.IsMajority (Cells.cellOf D Node.att_class value tree) c ∧
        recons r = FixedPoint.ofInt c := by
  refine (h.cells.predict_returns hdata).mono fun r hr => ?_
  obtain ⟨leaf, ⟨c, hc, hy⟩, hsecret⟩ := hr
  refine ⟨c, hc, ?_⟩
  ext
  rw [QuickMpc.Share.recons_value_fixedPoint, hsecret, hy, getConstantShare,
    QuickMpc.Share.secret_add_value, QuickMpc.Share.secret_zero, zero_add,
    QuickMpc.Share.denote_eq_value]

/-- **`createTree` grows the greedy tree**, and what it predicts is a majority: the class
that most of the training rows have that agree with the row on the attributes on its way
down, the last one of several. -/
theorem predict_majority [Multiprecision] (D : TrainingSet n N) (L : Classes n N)
    (t : ℕ → BtsTriple n) :
    Supply.Returns (createTree t (div t r sent) D.S L.targets D.T D.R) fun tree =>
      Greedy D L Finset.univ D.R tree ∧
      ∀ (t' : ℕ → BtsTriple n) value data, OneHotInput D.S data value →
        Supply.Returns (predict t' data tree) fun ret =>
          ∃ c, L.IsMajority (Cells.cellOf D Node.att_class value tree) c ∧
            recons ret = FixedPoint.ofInt c :=
  (createTree_greedy r sent D L t).mono fun _ htree =>
    ⟨htree, fun _ _ _ hdata => htree.predict_returns hdata⟩

end Growing

/-! ### Small training sets -/

section Small

variable [Config n] {D : TrainingSet n N} {L : Classes n N} {rows : Finset (Fin N)} {R : List ℕ}

/-- Up to this size half of a score is left. -/
def Small (n N : ℕ) : Prop := 1998 * n * (8 * N + 1) ≤ shift

instance (n N : ℕ) : Decidable (Small n N) :=
  inferInstanceAs (Decidable (1998 * n * (8 * N + 1) ≤ shift))

omit [Config n] in
/-- The score of a cell with a row in it, less what it may lose. -/
theorem eps_lt_cellScore_sub (hsmall : Small n N) {cell : Finset (Fin N)} (hne : cell.Nonempty) :
    eps < cellScore L cell - scoreSlack L cell := by
  have hpos : 1 ≤ cell.card := hne.card_pos
  have hcard : cell.card ≤ N := card_finset_fin_le cell
  have hsquares := card_le_squares L cell
  have hdivisor : (0 : ℚ) < 8 * cell.card + 1 := by positivity
  -- the score is not close to `0`
  have hscore : 1 / 9 ≤ cellScore L cell := by
    have hle : 8 * cell.card + 1 ≤ 9 * squares L cell := by omega
    have hcast : (8 * cell.card + 1 : ℚ) ≤ 9 * squares L cell := by exact_mod_cast hle
    rw [cellScore, le_div_iff₀ hdivisor]
    linarith
  -- and half of it is left
  have hloss : 999 * n * squares L cell * ulp ≤ cellScore L cell / 2 := by
    have hfit : (1998 * n * (8 * cell.card + 1) : ℤ) ≤ shift :=
      le_trans (by gcongr) hsmall
    have hunit : (1998 * n * (8 * cell.card + 1) : ℚ) * ulp ≤ 1 := by
      refine le_of_le_of_eq ?_ QuickMpc.Share.shift_mul_ulp
      exact mul_le_mul_of_nonneg_right (by exact_mod_cast hfit) QuickMpc.Share.ulp_pos.le
    rw [cellScore, div_div, le_div_iff₀ (by positivity)]
    calc 999 * n * squares L cell * ulp * ((8 * cell.card + 1) * 2)
        = squares L cell * ((1998 * n * (8 * cell.card + 1)) * ulp) := by ring
      _ ≤ squares L cell * 1 := mul_le_mul_of_nonneg_left hunit (Nat.cast_nonneg _)
      _ = squares L cell := mul_one _
  have hsplit : scoreSlack L cell = 999 * n * squares L cell * ulp + ulp := by
    rw [scoreSlack, add_mul, one_mul]
  have hunits : eps + ulp < 1 / 18 := by norm_num [eps, ulp, shift]
  linarith

/-- A node with rows and attributes has a score above `eps`. -/
theorem Node.Scored.eps_lt {cur : Node n} (h : cur.Scored D L rows R) (hsmall : Small n N)
    (hR : ∀ a ∈ R, a < D.S.length) (hne : R ≠ []) (hrows : rows.Nonempty) :
    eps < cur.gini_index := by
  obtain ⟨a, -, hpicks⟩ := h.picks hne hrows
  obtain ⟨i, hi⟩ := hrows
  have hcell : (D.withValue a (D.value a i) rows).Nonempty :=
    ⟨i, TrainingSet.mem_withValue.mpr ⟨hi, rfl⟩⟩
  have hscore := hpicks.lt a hpicks.mem _ (hasValue D (hR a hpicks.mem) i)
  have heps := eps_lt_cellScore_sub (L := L) hsmall hcell
  linarith

/-- A leaf has at most half of the rows, or all the attributes are used on the way to it. -/
theorem Greedy.leaf_of_small {tree : SID3 n} (h : Greedy D L rows R tree) (hsmall : Small n N)
    (hR : ∀ a ∈ R, a < D.S.length) {ks : List ℕ} {as : List (Node n)} {leaf : Node n}
    (hwalk : RoseTree.Walk tree ks as (.node leaf [])) :
    2 * leaf.size ≤ N ∨ as.length = R.length := by
  generalize hend : RoseTree.node leaf [] = sub at hwalk
  induction hwalk generalizing rows R with
  | here tree =>
      subst hend
      cases h with
      | leaf hcur hstop =>
          have hsize := hcur.size
          rcases hstop with rfl | hfew | heps
          · exact .inr rfl
          · exact .inl (by omega)
          · rcases eq_or_ne R [] with rfl | hne
            · exact .inr rfl
            rcases rows.eq_empty_or_nonempty with rfl | hrows
            · exact .inl (by simp [hsize])
            · exact absurd heps (hcur.eps_lt hsmall hR hne hrows).not_ge
      | @inner _ _ _ _ _ values _ _ hmany _ _ hvalues hlen _ =>
          -- with a row there is a value, hence a child
          obtain ⟨i, -⟩ := Finset.card_pos.mp (show 0 < rows.card by omega)
          have hlt := D.value_lt hvalues i
          rw [← hlen] at hlt
          exact absurd hlt (Nat.not_lt_zero _)
  | @child cur cs k c ks as sub hc _ ih =>
      cases h with
      | leaf => simp at hc
      | @inner _ _ _ _ a values _ ha _ _ _ _ _ hcs =>
          have hrest := ih (hcs k c hc) (fun b hb => hR b (List.mem_of_mem_erase hb)) hend
          rw [List.length_erase_of_mem ha] at hrest
          have hpos := List.length_pos_of_mem ha
          rw [List.length_cons]
          omega

/-- **`eps` does not stop the growth** of a training set that is small enough for its number of
parties (`Small`): whatever the parties draw, a leaf has at most half of the rows, or all
attributes are used on the way to it. -/
theorem createTree_small [Multiprecision] (r sent : ℕ → QuickMpc.Share.Draws n) (hsmall : Small n N)
    (D : TrainingSet n N) (L : Classes n N) (t : ℕ → BtsTriple n) :
    Supply.Returns (createTree t (div t r sent) D.S L.targets D.T D.R) fun tree =>
      ∀ ks as leaf, RoseTree.Walk tree ks as (.node leaf []) →
        2 * leaf.size ≤ N ∨ as.length = D.R.length :=
  (createTree_greedy r sent D L t).mono fun _ htree _ _ _ hwalk =>
    htree.leaf_of_small hsmall D.R_lt hwalk

/-- The example's table. -/
theorem createTree_small_three :
    letI := threeParties
    letI := Multiprecision.plain
    let t : ℕ → BtsTriple 3 := fun _ => ⟨fun i => i.val, fun _ => 1, fun i => 3 * i.val, by decide⟩
    Small 3 3 ∧ Supply.Returns (createTree t
        (div t (fun _ => QuickMpc.Share.ones) fun _ => QuickMpc.Share.ones) exampleTable.S
        exampleClasses exampleTable.T exampleTable.R) fun tree =>
      ∀ ks as leaf, RoseTree.Walk tree ks as (.node leaf []) →
        2 * leaf.size ≤ (3 : ℕ) ∨ as.length = exampleTable.R.length := by
  let _ := threeParties
  let _ := Multiprecision.plain
  have hsmall : Small 3 3 := by decide
  exact ⟨hsmall, createTree_small _ _ hsmall exampleTable
    (Classes.ofLabels 2 (fun i => min i.val 1) (by decide) (by decide)) _⟩

end Small

end QuickMpc.Gbdt.SID3
