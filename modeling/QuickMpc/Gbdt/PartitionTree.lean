import QuickMpc.Gbdt.SID3Json

/-!
# QuickMpc.Gbdt.PartitionTree

The tree that `SID3::createTree` grows from one-hot attributes and one-hot classes. It
partitions the training rows: every node has a mask of rows, and the masks of the
children are the rows of the parent by their value of its attribute. No attribute is used
twice on the way to a node, and a node's class is the most frequent one of its rows.

The divisions of the Gini values are a parameter. All that they have to do is to return
where the divisor is positive, so the result holds for any attributes that are picked.

`Grown` is the tree together with the sets of rows and attributes of its nodes, and
`createTree_partitions` states what follows from it for the walks of the tree.
-/

namespace QuickMpc.Gbdt.SID3

open Share (secret recons)
open FixedPoint (shift)

variable {n N : ℕ}

/-! ### The classes -/

/-- The classes of the training rows, one-hot: `targets[class][row]`. -/
structure Classes (n N : ℕ) where
  targets : List (Fin N → Share n)
  label : Fin N → ℕ
  one_hot : ∀ i, OneHot (targets.map fun target => target i) (label i)
  targets_ne_nil : targets ≠ []

namespace Classes

variable (L : Classes n N)

/-- The rows of a class. -/
def withLabel (c : ℕ) (rows : Finset (Fin N)) : Finset (Fin N) := rows.filter fun i => L.label i = c

/-- No class has more rows, and no later one has as many. -/
def IsMajority (rows : Finset (Fin N)) (c : ℕ) : Prop :=
  c < L.targets.length ∧ ∀ j < L.targets.length,
    (L.withLabel j rows).card < (L.withLabel c rows).card ∨
      (L.withLabel j rows).card = (L.withLabel c rows).card ∧ j ≤ c

variable {L}

theorem isBit {c : ℕ} {target : Fin N → Share n} (h : L.targets[c]? = some target) (i : Fin N) :
    IsBit (L.label i = c) (target i) := by
  have hbit := (L.one_hot i).isBit c (target i) (by rw [List.getElem?_map, h]; rfl)
  rw [IsBit] at hbit ⊢
  rw [hbit]
  exact if_congr eq_comm rfl rfl

/-- Classes in the clear, shared as `getConstantShare` does. -/
def ofLabels [Config n] (classes : ℕ) (label : Fin N → ℕ) (hpos : 0 < classes)
    (h : ∀ i, label i < classes) : Classes n N where
  targets := (List.range classes).map fun c i =>
    getConstantShare (FixedPoint.ofInt (if c = label i then 1 else 0))
  label := label
  one_hot := fun i => by
    rw [List.map_map]
    exact oneHot_getConstantShare (h i)
  targets_ne_nil := by
    rw [Ne, List.map_eq_nil_iff, List.range_eq_nil]
    exact hpos.ne'

end Classes

section Majority

variable [Config n] {t : ℕ → BtsTriple n} {L : Classes n N} {rows : Finset (Fin N)}

/-- The rows in use, by their class. -/
def Split (L : Classes n N) (rows : Finset (Fin N)) (U : List (Fin N → Share n)) : Prop :=
  U.length = L.targets.length ∧
    ∀ c u, U[c]? = some u → ∀ i, IsBit (i ∈ L.withLabel c rows) (u i)

theorem splitTransaction_returns {T : Fin N → Share n} (hT : ∀ i, IsBit (i ∈ rows) (T i)) :
    Supply.Returns (splitTransaction t L.targets T) (Split L rows) := by
  refine Supply.Returns.mapM fun c target htarget => ?_
  refine (mulVec_returns_and t (Classes.isBit htarget) hT).mono fun u hu i => ?_
  have hbit := hu i
  rw [IsBit] at hbit ⊢
  rw [hbit]
  refine if_congr ?_ rfl rfl
  rw [Classes.withLabel, Finset.mem_filter, and_comm]

omit [Config n] in
theorem baseCount_eq {u : Fin N → Share n} (hu : ∀ i, IsBit (i ∈ rows) (u i)) :
    baseCount u = rows.card := by
  rw [baseCount, getDoubleVal_recons_sum hu, FixedPoint.truncate_intCast]

/-- The class of a node. -/
theorem majorityClass_returns_majority {U : List (Fin N → Share n)} (hU : Split L rows U) :
    Supply.Returns (majorityClass U) fun y =>
      ∃ c, L.IsMajority rows c ∧ y = getConstantShare (FixedPoint.ofInt (c : ℕ)) := by
  obtain ⟨hlen, hbits⟩ := hU
  have hcount : ∀ c (hc : c < U.length), baseCount U[c] = (L.withLabel c rows).card := fun c hc =>
    baseCount_eq (hbits c U[c] (List.getElem?_eq_getElem hc))
  have hne : (U.mapIdx fun index u => (baseCount u, index)) ≠ [] := by
    intro hnil
    rw [List.mapIdx_eq_nil_iff.mp hnil] at hlen
    exact L.targets_ne_nil (List.length_eq_zero_iff.mp hlen.symm)
  obtain ⟨p, hp⟩ := bestElement_isSome (fun p q => pairLt q p) hne
  obtain ⟨c, hc, rfl⟩ := List.mem_mapIdx.mp (bestElement_mem hp)
  have hindex : max_num_index U = some c := by rw [max_num_index, max_element, hp, Option.map_some]
  rw [majorityClass, hindex]
  refine .pure ⟨c, ⟨hlen ▸ hc, fun j hj => ?_⟩, rfl⟩
  have hj' : j < U.length := hlen ▸ hj
  have hmax := max_element_spec hp _ (List.mem_mapIdx.mpr ⟨j, hj', rfl⟩)
  simpa only [hcount, Nat.cast_lt, Nat.cast_inj] using hmax

end Majority

/-! ### The tree that is grown -/

/-- The mask of a node, which row it has. -/
def Node.maskAt (cur : Node n) (i : Fin N) : ℤ := (cur.T[i.val]?).elim 0 secret

/-- What a node stores that was made for the mask `rows`. -/
structure Node.Fits (L : Classes n N) [Config n] (rows : Finset (Fin N)) (cur : Node n) : Prop where
  mask : ∀ i : Fin N, cur.maskAt i = if i ∈ rows then shift else 0
  size : cur.size = rows.card
  majority : ∃ c, L.IsMajority rows c ∧ cur.y = getConstantShare (FixedPoint.ofInt (c : ℕ))

/-- The tree that was grown from the mask `rows` and the attributes `R`: every child has the
rows with its value of the attribute, and the attributes that are left. -/
inductive Grown [Config n] (D : TrainingSet n N) (L : Classes n N) :
    List ℕ → Finset (Fin N) → SID3 n → Prop
  | leaf {R : List ℕ} {rows : Finset (Fin N)} {cur : Node n} :
      cur.Fits L rows → Grown D L R rows (.node cur [])
  | inner {R : List ℕ} {rows : Finset (Fin N)} {cur : Node n} {cs : List (SID3 n)} {a : ℕ}
      {values : List (Fin N → Share n)} : cur.Fits L rows → cur.att_class = some a → a ∈ R →
      D.S[a]? = some values → cs.length = values.length →
      (∀ v c, cs[v]? = some c → Grown D L (R.erase a) (D.withValue a v rows) c) →
      Grown D L R rows (.node cur cs)

section Growing

variable [Config n] {t : ℕ → BtsTriple n} {div : Share n → Share n → Supply (Share n)}
  {D : TrainingSet n N} {L : Classes n N}

/-- The quotients are opened for divisors `8 * k + 1`. -/
theorem gini_returns_of_split
    (hdiv : ∀ x y, (0 : ℤ) < secret y → Supply.Returns (div x y) fun _ => True)
    {rows : Finset (Fin N)} {U : List (Fin N → Share n)} (hU : Split L rows U) {a : ℕ}
    {values : List (Fin N → Share n)} (hvalues : D.S[a]? = some values)
    {bits : Fin N → Share n} (hbits : bits ∈ values) :
    Supply.Returns (gini t div U bits) fun _ => True := by
  obtain ⟨v, hv⟩ := List.mem_iff_getElem?.mp hbits
  have hdot : ∀ (c : ℕ) u, U[c]? = some u →
      Supply.Returns (dot t u bits) fun r => (0 : ℤ) ≤ secret r := by
    intro c u hu
    refine (TrainingSet.mulVec_returns t hvalues hv (hU.2 c u hu)).bind fun T_ hT_ => .pure ?_
    rw [secret_sum_bits hT_]
    exact mul_nonneg FixedPoint.shift_pos.le (Int.natCast_nonneg _)
  refine (Supply.Returns.mapM hdot).bind fun x hx => ?_
  refine (dot_returns_trivial t x.get x.get).bind fun xx _ => hdiv _ _ ?_
  have hsum : (0 : ℤ) ≤ secret (x.foldl (· + ·) (0 : Share n)) := by
    refine List.foldlRecOn (motive := fun acc => (0 : ℤ) ≤ secret acc) x _
      (le_of_eq QuickMpc.Share.secret_zero.symm) fun acc hacc s hs => ?_
    obtain ⟨c, hc⟩ := List.mem_iff_getElem?.mp hs
    rw [QuickMpc.Share.secret_add]
    exact add_nonneg hacc (hx.2 c s hc)
  rw [QuickMpc.Share.secret_add_value, QuickMpc.Share.secret_mul_ofInt,
    QuickMpc.Share.denote_eq_value, FixedPoint.ofInt_value]
  have hshift := FixedPoint.shift_pos
  linarith

/-- The node that is made for a mask. -/
theorem node_fits {rows : Finset (Fin N)} {T : Fin N → Share n} {y : Share n}
    (hT : ∀ i, IsBit (i ∈ rows) (T i))
    (hy : ∃ c, L.IsMajority rows c ∧ y = getConstantShare (FixedPoint.ofInt (c : ℕ)))
    (gini_index : ℚ) (att_class : Option ℕ) :
    Node.Fits L rows { T := List.ofFn T, att_class, gini_index, size := dataSize T, y } := by
  refine ⟨fun i => ?_, dataSize_eq hT, hy⟩
  rw [Node.maskAt, List.getElem?_eq_getElem (by simp), List.getElem_ofFn]
  exact hT i

/-- One call of `createTree`, when the calls for the children do their part. -/
theorem createTreeBody_grown
    (hdiv : ∀ x y, (0 : ℤ) < secret y → Supply.Returns (div x y) fun _ => True)
    {rows : Finset (Fin N)} {T : Fin N → Share n} {R : List ℕ}
    {createChild : (Fin N → Share n) → List ℕ → Supply (SID3 n)}
    (hT : ∀ i, IsBit (i ∈ rows) (T i)) (hR : ∀ r ∈ R, r < D.S.length)
    (hchild : ∀ a ∈ R, ∀ rows' T', (∀ i, IsBit (i ∈ rows') (T' i)) →
      Supply.Returns (createChild T' (R.erase a)) (Grown D L (R.erase a) rows')) :
    Supply.Returns (createTreeBody t div D.S L.targets createChild T R) (Grown D L R rows) := by
  refine (splitTransaction_returns hT).bind fun U hU => ?_
  refine (majorityClass_returns_majority hU).bind fun y hy => ?_
  refine (getMaxGini_returns hR fun r _ values hvalues bits hbits =>
    gini_returns_of_split hdiv hU hvalues hbits).bind fun p hp => ?_
  obtain ⟨gini_index, att_class⟩ := p
  have hfits := node_fits hT hy gini_index att_class
  dsimp only at hp ⊢
  split
  · exact .pure (.leaf hfits)
  · rename_i hstop
    obtain ⟨a, ha, rfl⟩ := hp.resolve_left (ne_neg_one_of_not_stop hstop)
    dsimp only
    have hlt := hR a ha
    have hvalues : D.S[a]? = some D.S[a] := List.getElem?_eq_getElem hlt
    rw [hvalues]
    refine (Supply.Returns.mapM (P := fun v => Grown D L (R.erase a) (D.withValue a v rows))
      fun v bits hbits => ?_).bind fun cs hcs => ?_
    · exact (TrainingSet.mulVec_returns t hvalues hbits hT).bind fun T_ hT_ => hchild a ha _ T_ hT_
    · exact .pure (.inner hfits rfl ha hvalues hcs.1 hcs.2)

/-- The recursion ends after at most one call for each attribute. -/
theorem createTree_grown
    (hdiv : ∀ x y, (0 : ℤ) < secret y → Supply.Returns (div x y) fun _ => True)
    {rows : Finset (Fin N)} {T : Fin N → Share n} {R : List ℕ}
    (hT : ∀ i, IsBit (i ∈ rows) (T i)) (hR : ∀ r ∈ R, r < D.S.length) :
    Supply.Returns (createTree t div D.S L.targets T R) (Grown D L R rows) := by
  exact TrainingSet.returns_of_erase (P := fun rows R => Grown D L R rows) (fun _ _ => rfl)
    (fun _ _ _ => rfl) (fun hT hR hchild => createTreeBody_grown hdiv hT hR hchild) le_rfl hT hR

end Growing

/-! ### The nodes of the tree -/

section Nodes

variable [Config n] {D : TrainingSet n N} {L : Classes n N} {R : List ℕ} {rows : Finset (Fin N)}

/-- The child that a training row goes to. -/
abbrev rowChild (D : TrainingSet n N) (i : Fin N) : Node n → ℕ := nextChild fun a => D.value a i

theorem Grown.fits {cur : Node n} {cs : List (SID3 n)} (h : Grown D L R rows (.node cur cs)) :
    cur.Fits L rows := by
  cases h with
  | leaf hfits => exact hfits
  | inner hfits => exact hfits

theorem Node.Fits.maskAt_eq_shift_iff {cur : Node n} (h : cur.Fits L rows) {i : Fin N} :
    cur.maskAt i = shift ↔ i ∈ rows := by
  rw [h.mask i]
  split
  · rename_i hi
    exact iff_of_true rfl hi
  · rename_i hi
    exact iff_of_false FixedPoint.shift_pos.ne hi

/-- A node of the tree was grown, too: from some of the rows, which are the ones that go
there, and without the attributes on the way, which differ. -/
theorem Grown.walk {tree sub : SID3 n} {ks : List ℕ} {as : List (Node n)}
    (hwalk : RoseTree.Walk tree ks as sub) (h : Grown D L R rows tree) (hR : R.Nodup) :
    ∃ (attrs R' : List ℕ) (rows' : Finset (Fin N)),
      as.map Node.att_class = attrs.map some ∧ attrs.Nodup ∧ (∀ a ∈ attrs, a ∈ R) ∧
      rows' ⊆ rows ∧ (∀ i ∈ rows', ks = as.map (rowChild D i)) ∧ Grown D L R' rows' sub := by
  induction hwalk generalizing R rows with
  | here tree => exact ⟨[], R, rows, rfl, List.nodup_nil, by simp, subset_rfl, fun _ _ => rfl, h⟩
  | @child cur cs k c ks as sub hc _ ih =>
      cases h with
      | leaf => simp at hc
      | @inner _ _ _ _ a values hfits hatt ha hvalues hlen hcs =>
          obtain ⟨attrs, R', rows', hattrs, hnodup, hmem, hsubset, hrows, hsub⟩ :=
            ih (hcs k c hc) (hR.erase a)
          have hnot : a ∉ attrs := fun hin => hR.not_mem_erase (hmem a hin)
          refine ⟨a :: attrs, R', rows', ?_, List.nodup_cons.mpr ⟨hnot, hnodup⟩, ?_, ?_, ?_, hsub⟩
          · rw [List.map_cons, List.map_cons, hatt, hattrs]
          · exact List.forall_mem_cons.mpr ⟨ha, fun b hb => List.mem_of_mem_erase (hmem b hb)⟩
          · exact hsubset.trans (Finset.filter_subset _ _)
          · intro i hi
            have hvalue := (TrainingSet.mem_withValue.mp (hsubset hi)).2
            have hnext : rowChild D i cur = D.value a i := by rw [rowChild, nextChild, hatt]
            rw [List.map_cons, ← hrows i hi, hnext, hvalue]

/-- Every row gets to a leaf that has it. -/
theorem Grown.exists_leaf {tree : SID3 n} (h : Grown D L R rows tree) {i : Fin N}
    (hi : i ∈ rows) :
    ∃ ks as leaf, RoseTree.Walk tree ks as (.node leaf []) ∧ leaf.maskAt i = shift := by
  induction h with
  | @leaf _ _ cur hfits =>
      exact ⟨[], [], cur, .here _, hfits.maskAt_eq_shift_iff.mpr hi⟩
  | @inner R rows cur cs a values _ _ _ hvalues hlen _ ih =>
      have hlt : D.value a i < cs.length := hlen ▸ D.value_lt hvalues i
      have hchild : cs[D.value a i]? = some cs[D.value a i] := List.getElem?_eq_getElem hlt
      obtain ⟨ks, as, leaf, hwalk, hleaf⟩ :=
        ih _ _ hchild (TrainingSet.mem_withValue.mpr ⟨hi, rfl⟩)
      exact ⟨_, _, leaf, .child hchild hwalk, hleaf⟩

/-- The masks of the children add up to the mask of their parent. -/
theorem Grown.sum_maskAt {cur : Node n} {cs : List (SID3 n)} (h : Grown D L R rows (.node cur cs))
    (hne : cs ≠ []) (i : Fin N) : (cs.map fun c => c.label.maskAt i).sum = cur.maskAt i := by
  cases h with
  | leaf => exact absurd rfl hne
  | @inner _ _ _ _ a values hfits _ _ hvalues hlen hcs =>
      have hlt : D.value a i < cs.length := hlen ▸ D.value_lt hvalues i
      have hchild : ∀ v c, cs[v]? = some c →
          c.label.maskAt i = if D.value a i = v then cur.maskAt i else 0 := by
        intro v c hc
        obtain ⟨node, cs'⟩ := c
        have hmask := (hcs v _ hc).fits.mask i
        rw [RoseTree.label_node, hmask, hfits.mask i, ← ite_and]
        exact if_congr (by rw [TrainingSet.mem_withValue, and_comm]) rfl rfl
      rw [sum_map_eq_sum_range hchild, Finset.sum_ite_eq, if_pos (Finset.mem_range.mpr hlt)]

/-- So do the sizes. -/
theorem Grown.sum_size {cur : Node n} {cs : List (SID3 n)} (h : Grown D L R rows (.node cur cs))
    (hne : cs ≠ []) : (cs.map fun c => c.label.size).sum = cur.size := by
  cases h with
  | leaf => exact absurd rfl hne
  | @inner _ _ _ _ a values hfits _ _ hvalues hlen hcs =>
      have hchild : ∀ v c, cs[v]? = some c →
          c.label.size = ((D.withValue a v rows).card : ℤ) := by
        intro v c hc
        obtain ⟨node, cs'⟩ := c
        exact (hcs v _ hc).fits.size
      have hmaps : ∀ i ∈ rows, D.value a i ∈ Finset.range cs.length := fun i _ =>
        Finset.mem_range.mpr (hlen ▸ D.value_lt hvalues i)
      rw [sum_map_eq_sum_range hchild, hfits.size, Finset.card_eq_sum_card_fiberwise hmaps,
        Nat.cast_sum]
      rfl

theorem Grown.selects {tree : SID3 n} (h : Grown D L R rows tree) (i : Fin N) :
    tree.Everywhere (Selects Node.att_class (rowData D.S i) (rowChild D i)) := by
  induction h with
  | leaf => exact .node (.inl rfl) fun c hc => by cases hc
  | @inner R rows cur cs a values _ hatt _ hvalues hlen _ ih =>
      exact TrainingSet.selects_inner hvalues hatt (by rw [rowChild, nextChild, hatt]) hlen ih

/-! ### The partition -/

/-- What the walks of a tree that partitions the training rows find. -/
structure Partitions (D : TrainingSet n N) (L : Classes n N) (tree : SID3 n) : Prop where
  root : ∀ i : Fin N, tree.label.maskAt i = shift
  node : ∀ ks as cur cs, RoseTree.Walk tree ks as (.node cur cs) →
    ∃ rows : Finset (Fin N), cur.Fits L rows
  /-- The depth is bounded. -/
  depth : ∀ ks as sub, RoseTree.Walk tree ks as sub → ks.length ≤ D.R.length
  /-- The attributes on the way are among those to split on, each is used once. -/
  attributes : ∀ ks as sub, RoseTree.Walk tree ks as sub →
    ∃ attrs : List ℕ, as.map Node.att_class = attrs.map some ∧ attrs.Nodup ∧ ∀ a ∈ attrs, a ∈ D.R
  /-- The children of an inner node share its rows. -/
  children : ∀ ks as cur cs, RoseTree.Walk tree ks as (.node cur cs) → cs ≠ [] →
    (∀ i : Fin N, (cs.map fun c => c.label.maskAt i).sum = cur.maskAt i) ∧
      (cs.map fun c => c.label.size).sum = cur.size
  /-- Every row is in one leaf. -/
  leaf : ∀ i : Fin N, ∃! ks, ∃ as leaf, RoseTree.Walk tree ks as (.node leaf []) ∧
    leaf.maskAt i = shift

/-- The walk to a leaf that has the row. -/
theorem Grown.descend_eq {tree : SID3 n} (h : Grown D L R rows tree) (hR : R.Nodup)
    {ks : List ℕ} {as : List (Node n)} {leaf : Node n}
    (hwalk : RoseTree.Walk tree ks as (.node leaf [])) {i : Fin N} (hi : leaf.maskAt i = shift) :
    tree.descend (rowChild D i) = some (as, leaf) ∧ ks = as.map (rowChild D i) := by
  obtain ⟨_, _, rows', -, -, -, -, hrows, hleaf⟩ := h.walk hwalk hR
  have hks := hrows i (hleaf.fits.maskAt_eq_shift_iff.mp hi)
  exact ⟨hwalk.descend_eq hks, hks⟩

theorem Grown.partitions {tree : SID3 n} (h : Grown D L D.R Finset.univ tree) :
    Partitions D L tree := by
  have hR : D.R.Nodup := D.R_sorted.imp ne_of_lt
  have hattributes : ∀ ks as sub, RoseTree.Walk tree ks as sub → ∃ attrs : List ℕ,
      as.map Node.att_class = attrs.map some ∧ attrs.Nodup ∧ ∀ a ∈ attrs, a ∈ D.R := by
    intro ks as sub hwalk
    obtain ⟨attrs, -, -, hattrs, hnodup, hmem, -⟩ := h.walk hwalk hR
    exact ⟨attrs, hattrs, hnodup, hmem⟩
  refine ⟨fun i => ?_, ?_, ?_, hattributes, ?_, ?_⟩
  · obtain ⟨cur, cs⟩ := tree
    exact h.fits.maskAt_eq_shift_iff.mpr (Finset.mem_univ i)
  · intro ks as cur cs hwalk
    obtain ⟨_, _, rows, -, -, -, -, -, hsub⟩ := h.walk hwalk hR
    exact ⟨rows, hsub.fits⟩
  · intro ks as sub hwalk
    obtain ⟨attrs, hattrs, hnodup, hmem⟩ := hattributes ks as sub hwalk
    have hlen : attrs.length = ks.length := by
      rw [← List.length_map some, ← hattrs, List.length_map, hwalk.length_eq]
    rw [← hlen]
    exact (List.subperm_of_subset hnodup hmem).length_le
  · intro ks as cur cs hwalk hne
    obtain ⟨_, _, rows, -, -, -, -, -, hsub⟩ := h.walk hwalk hR
    exact ⟨hsub.sum_maskAt hne, hsub.sum_size hne⟩
  · intro i
    obtain ⟨ks, as, leaf, hwalk, hleaf⟩ := h.exists_leaf (Finset.mem_univ i)
    refine ⟨ks, ⟨as, leaf, hwalk, hleaf⟩, fun ks' hks' => ?_⟩
    obtain ⟨as', leaf', hwalk', hleaf'⟩ := hks'
    obtain ⟨hdescend, hks⟩ := h.descend_eq hR hwalk hleaf
    obtain ⟨hdescend', hks'⟩ := h.descend_eq hR hwalk' hleaf'
    obtain ⟨rfl, -⟩ := Prod.mk.inj (Option.some.inj (hdescend.symm.trans hdescend'))
    rw [hks, hks']

end Nodes

/-- **Training partitions the rows.** Training ends, whatever the scores are that it opens: the
masks of the children of a node split the rows of its mask among them, the leaves hold each row
once, and a leaf has a majority class of its rows. A training row is predicted the class of the
leaf that it is in. -/
theorem createTree_partitions [Config n] (D : TrainingSet n N) (L : Classes n N)
    (t : ℕ → BtsTriple n) {div : Share n → Share n → Supply (Share n)}
    (hdiv : ∀ x y, (0 : ℤ) < secret y → Supply.Returns (div x y) fun _ => True) :
    Supply.Returns (createTree t div D.S L.targets D.T D.R) fun tree =>
      Partitions D L tree ∧
        ∀ (t' : ℕ → BtsTriple n) (i : Fin N) ks as leaf,
          RoseTree.Walk tree ks as (.node leaf []) → leaf.maskAt i = shift →
          Supply.Returns (predict t' (rowData D.S i) tree) fun r => recons r = recons leaf.y := by
  have hT : ∀ i, IsBit (i ∈ Finset.univ) (D.T i) := by
    intro i
    rw [IsBit, D.T_ones i]
    exact if_congr (by simp) rfl rfl
  refine (createTree_grown hdiv hT D.R_lt).mono fun tree htree => ?_
  refine ⟨htree.partitions, fun t' i ks as leaf hwalk hleaf => ?_⟩
  obtain ⟨hdescend, -⟩ := htree.descend_eq (D.R_sorted.imp ne_of_lt) hwalk hleaf
  refine (predict_returns (htree.selects i)).mono fun r hr => ?_
  rw [leafValue_of_descend hdescend] at hr
  ext
  rw [QuickMpc.Share.recons_value_fixedPoint, QuickMpc.Share.recons_value_fixedPoint, hr]

/-- The example's table, with the division of the shares. -/
theorem createTree_partitions_three :
    letI := threeParties
    letI := Multiprecision.plain
    let t : ℕ → BtsTriple 3 := fun _ => ⟨fun i => i.val, fun _ => 1, fun i => 3 * i.val, by decide⟩
    let L := Classes.ofLabels 2 (fun i : Fin 3 => min i.val 1) (by decide) (by decide)
    Supply.Returns (createTree t
        (div t (fun _ => QuickMpc.Share.ones) fun _ => QuickMpc.Share.ones) exampleTable.S
        L.targets exampleTable.T exampleTable.R) fun tree =>
      Partitions exampleTable L tree ∧
        ∀ (i : Fin 3) ks as leaf,
          RoseTree.Walk tree ks as (.node leaf []) → leaf.maskAt i = shift →
          Supply.Returns (predict t (rowData exampleTable.S i) tree) fun r =>
            recons r = recons leaf.y := by
  let _ := threeParties
  let _ := Multiprecision.plain
  intro t L
  exact (createTree_partitions exampleTable L t fun x y _ => .take fun _ => trivial).mono
    fun tree htree => ⟨htree.1, htree.2 t⟩

end QuickMpc.Gbdt.SID3
