import QuickMpc.Gbdt.TrainingSet

/-!
# QuickMpc.Gbdt.SID3Regression

The regression tree. `createTree` builds it from masks: the mask of a child is the
product of its parent's with the bits of one attribute value. `grad` is the
prediction for all the training rows at once: a leaf has it, masked, in `grads`,
and an inner node adds up those of its children.

The loop that adds them runs over the first `size` rows, where `size` is the number
of rows in use at the node, and not over all the rows. The rows in use may be
anywhere, so below the root the gradients of some of them are lost.
-/

namespace QuickMpc.Gbdt.SID3Regression

open Share (secret recons ofValue)
open FixedPoint (shift)

variable {n N : ℕ}

/-- What a node of the tree stores. -/
structure Node (n N : ℕ) where
  T : Fin N → Share n
  grads : Fin N → Share n
  error_value : ℚ
  /-- `none` for `-1`. -/
  att_class : Option ℕ
  size : ℤ
  y : Share n

end QuickMpc.Gbdt.SID3Regression

namespace QuickMpc.Gbdt

/-- A tree, the children below the node. -/
abbrev SID3Regression (n N : ℕ) := RoseTree (SID3Regression.Node n N)

namespace SID3Regression

open Share (secret recons ofValue)
open FixedPoint (shift)

variable {n N : ℕ}

/-! ### The gradient -/

mutual

/-- `grad`. -/
def grad : SID3Regression n N → Fin N → Share n
  | .node cur [] => cur.grads
  | .node cur (c :: cs) => gradChildren cur.size (c :: cs) fun _ => 0

/-- The loop of `grad` over the children. -/
def gradChildren (size : ℤ) : List (SID3Regression n N) → (Fin N → Share n) → Fin N → Share n
  | [], ret => ret
  | child :: cs, ret =>
      gradChildren size cs fun i => if (i : ℤ) < size then ret i + grad child i else ret i

end

section Code

variable [Config n] (t : ℕ → BtsTriple n)

/-- `predict`. -/
def predict (data : List (List (Share n))) (tree : SID3Regression n N) : Supply (Share n) :=
  Gbdt.predict t Node.att_class Node.y data tree

/-! ### Growing the tree -/

/-- The constructor. The members that it does not set are `createTree`'s to set. -/
def new [Multiprecision] (T targets : Fin N → Share n) : Supply (Node n N) := do
  let size := dataSize T
  let y ← dot t targets T
  let y := if 1 < size then y / FixedPoint.ofInt size else y
  let grads ← mulVec t (fun _ => y) T
  return { T, grads, error_value := 0, att_class := none, size, y }

/-- `infomationGain`, for the rows of one attribute value. -/
def infomationGain [Multiprecision] (T targets category : Fin N → Share n) : Supply (Share n) := do
  let mask ← mulVec t category T
  let mask_size := recons (sum mask)
  if mask_size.eq (FixedPoint.ofInt 0) then
    return ofValue (FixedPoint.ofInt 1000000000)
  let average := (← dot t mask targets) / mask_size
  let average_mask ← mulVec t (fun _ => average) mask
  let target_mask ← mulVec t targets mask
  let ret ← (List.finRange N).foldlM (fun ret i => do
    let cur := target_mask i - average_mask i
    let cur ← mul t cur cur
    return ret + cur) (0 : Share n)
  return ret / FixedPoint.ofInt 2

/-- The sum of `infomationGain` over the values of one attribute, opened. -/
def categoryError [Multiprecision] (S : List (List (Fin N → Share n))) (T targets : Fin N → Share n)
    (r : ℕ) :
    Supply (ℚ × ℕ) :=
  match S[r]? with
  | some categories => do
      let sumError ← categories.foldlM (fun sumError category => do
        return sumError + (← infomationGain t T targets category)) (0 : Share n)
      return ((recons sumError).double, r)
  | none => failure

/-- `IG`: the attribute with the smallest error. -/
def IG [Multiprecision] (S : List (List (Fin N → Share n))) (targets T : Fin N → Share n)
    (R : List ℕ) :
    Supply (ℚ × Option ℕ) := do
  let categoryErrors ← R.mapM (categoryError t S T targets)
  match min_element categoryErrors with
  | none => return (-1, none)
  | some (error, r) => return (error, some r)

variable (choice : (Fin N → Share n) → List ℕ → Supply (ℚ × Option ℕ))
  (S : List (List (Fin N → Share n))) (targets : Fin N → Share n)

/-- The body of `createTree`; `createChild` is its recursive call. -/
def createTreeBody [Multiprecision]
    (createChild : (Fin N → Share n) → List ℕ → Supply (SID3Regression n N)) (T : Fin N → Share n)
    (R : List ℕ) : Supply (SID3Regression n N) := do
  let current ← new t T targets
  let (error_value, att_class) ← choice T R
  let current := { current with error_value, att_class }
  -- the sizes are compared as unsigned numbers: a negative one would be large
  if R.isEmpty || decide (0 ≤ current.size ∧ 3 * current.size ≤ (N : ℤ))
      || decide (current.size = 0) then
    return .node current []
  match att_class with
  | none => failure
  | some a =>
    match S[a]? with
    | none => failure
    | some values =>
      let R_ := R.erase a
      let children ← values.mapM fun value => do
        let T_ ← mulVec t T value
        createChild T_ R_
      return .node current children

/-- `createTree` with the attributes that `choice` picks in the place of `IG`; the
argument in front bounds the depth. -/
def createTreeWith [Multiprecision] : ℕ → (Fin N → Share n) → List ℕ → Supply (SID3Regression n N)
  | 0, T, R => createTreeBody t choice S targets (fun _ _ => failure) T R
  | depth + 1, T, R => createTreeBody t choice S targets (createTreeWith depth) T R

end Code

/-- `createTree`. -/
def createTree [Multiprecision] [Config n] (t : ℕ → BtsTriple n) (S : List (List (Fin N → Share n)))
    (targets : Fin N → Share n) (T : Fin N → Share n) (R : List ℕ) :
    Supply (SID3Regression n N) :=
  createTreeWith t (IG t S targets) S targets R.length T R

/-! ### The tree that is grown -/

/-- What a node stores that was made for the mask `rows`. -/
structure Node.Fits (rows : Finset (Fin N)) (cur : Node n N) : Prop where
  size : cur.size = rows.card
  grads : ∀ i, secret (cur.grads i) = if i ∈ rows then secret cur.y else 0

/-- The tree that was grown from the mask `rows`: every child has the rows with its
value of the attribute. -/
inductive Grown (D : TrainingSet n N) : Finset (Fin N) → SID3Regression n N → Prop
  | leaf {rows : Finset (Fin N)} {cur : Node n N} : cur.Fits rows → Grown D rows (.node cur [])
  | inner {rows : Finset (Fin N)} {cur : Node n N} {cs : List (SID3Regression n N)} {a : ℕ}
      {values : List (Fin N → Share n)} : cur.Fits rows → cur.att_class = some a →
      D.S[a]? = some values → cs.length = values.length →
      (∀ v c, cs[v]? = some c → Grown D (D.withValue a v rows) c) → Grown D rows (.node cur cs)

/-- `choice` picks one of the attributes that are left. -/
def PicksFrom (D : TrainingSet n N)
    (choice : (Fin N → Share n) → List ℕ → Supply (ℚ × Option ℕ)) : Prop :=
  ∀ T R, (∀ r ∈ R, r < D.S.length) →
    Supply.Returns (choice T R) fun p => R ≠ [] → ∃ a ∈ R, p.2 = some a

section Growing

variable [Config n] (t : ℕ → BtsTriple n)

theorem new_returns [Multiprecision] {rows : Finset (Fin N)} {T : Fin N → Share n}
    (targets : Fin N → Share n) (hT : ∀ i, IsBit (i ∈ rows) (T i)) :
    Supply.Returns (new t T targets) (Node.Fits rows) := by
  refine (dot_returns_trivial t targets T).bind fun y _ => ?_
  refine (mulVec_returns t hT _).bind fun grads hgrads => ?_
  exact .pure ⟨dataSize_eq hT, hgrads⟩

variable {D : TrainingSet n N} {choice : (Fin N → Share n) → List ℕ → Supply (ℚ × Option ℕ)}
  {targets : Fin N → Share n}

/-- One call of `createTree`, when the calls for the children do their part. -/
theorem createTreeBody_returns [Multiprecision] (hchoice : PicksFrom D choice) {T : Fin N → Share n}
    {R : List ℕ}
    {rows : Finset (Fin N)}
    {createChild : (Fin N → Share n) → List ℕ → Supply (SID3Regression n N)}
    (hT : ∀ i, IsBit (i ∈ rows) (T i)) (hR : ∀ r ∈ R, r < D.S.length)
    (hchild : ∀ a ∈ R, ∀ rows' T', (∀ i, IsBit (i ∈ rows') (T' i)) →
      Supply.Returns (createChild T' (R.erase a)) (Grown D rows')) :
    Supply.Returns (createTreeBody t choice D.S targets createChild T R) (Grown D rows) := by
  refine (new_returns t targets hT).bind fun cur hcur => ?_
  refine (hchoice T R hR).bind fun p hp => ?_
  obtain ⟨error_value, att_class⟩ := p
  have hfits : Node.Fits rows { cur with error_value, att_class } := ⟨hcur.size, hcur.grads⟩
  dsimp only
  split
  · exact .pure (.leaf hfits)
  · rename_i hstop
    have hne : R ≠ [] := by
      intro hnil
      simp [hnil] at hstop
    obtain ⟨a, ha, hatt⟩ := hp hne
    obtain rfl : att_class = some a := hatt
    dsimp only
    have hlt := hR a ha
    have hvalues : D.S[a]? = some D.S[a] := List.getElem?_eq_getElem hlt
    rw [hvalues]
    refine (Supply.Returns.mapM (P := fun v => Grown D (D.withValue a v rows))
      fun v bits hbits => ?_).bind fun cs hcs => ?_
    · exact (TrainingSet.mulVec_returns t hvalues hbits hT).bind fun T_ hT_ => hchild a ha _ T_ hT_
    · exact .pure (.inner hfits rfl hvalues hcs.1 hcs.2)

/-- `createTree` returns, whatever the attributes picked. -/
theorem createTreeWith_returns [Multiprecision] (hchoice : PicksFrom D choice) {depth : ℕ}
    {T : Fin N → Share n} {R : List ℕ} {rows : Finset (Fin N)} (hlen : R.length ≤ depth)
    (hT : ∀ i, IsBit (i ∈ rows) (T i)) (hR : ∀ r ∈ R, r < D.S.length) :
    Supply.Returns (createTreeWith t choice D.S targets depth T R) (Grown D rows) := by
  exact TrainingSet.returns_of_erase (P := fun rows _ => Grown D rows) (fun _ _ => rfl)
    (fun _ _ _ => rfl) (fun hT hR hchild => createTreeBody_returns t hchoice hT hR hchild) hlen hT hR

/-! ### The choice of the code -/

theorem infomationGain_returns [Multiprecision] (T category : Fin N → Share n) :
    Supply.Returns (infomationGain t T targets category) fun _ => True := by
  refine (mulVec_returns_trivial t category T).bind fun mask _ => ?_
  dsimp only
  split
  · exact .pure trivial
  · refine (dot_returns_trivial t mask targets).bind fun average _ => ?_
    refine (mulVec_returns_trivial t _ mask).bind fun average_mask _ => ?_
    refine (mulVec_returns_trivial t targets mask).bind fun target_mask _ => ?_
    refine (Supply.Returns.foldlM fun ret i => ?_).bind fun ret _ => .pure trivial
    exact (mul_returns_trivial t _ _).bind fun cur _ => .pure trivial

/-- `IG` picks one of the attributes that are left. -/
theorem IG_picksFrom [Multiprecision] : PicksFrom D (IG t D.S targets) := by
  intro T R hR
  have herror : ∀ k r : ℕ, R[k]? = some r →
      Supply.Returns (categoryError t D.S T targets r) fun p => R[k]? = some p.2 := by
    intro k r hr
    have hlt : r < D.S.length := hR r (List.mem_of_getElem? hr)
    rw [categoryError, List.getElem?_eq_getElem hlt]
    refine (Supply.Returns.foldlM fun sumError category => ?_).bind fun sumError _ => .pure hr
    exact (infomationGain_returns t T category).bind fun gain _ => .pure trivial
  refine (Supply.Returns.mapM herror).bind fun categoryErrors hcat => ?_
  cases hmin : min_element categoryErrors with
  | none =>
      refine .pure fun hne => ?_
      have hnonempty : categoryErrors ≠ [] := by
        intro hnil
        rw [hnil] at hcat
        exact hne (List.length_eq_zero_iff.mp hcat.1.symm)
      obtain ⟨p, hp⟩ := bestElement_isSome pairLt hnonempty
      rw [min_element, hp] at hmin
      cases hmin
  | some p =>
      obtain ⟨error, r⟩ := p
      refine .pure fun _ => ⟨r, ?_, rfl⟩
      obtain ⟨k, hk⟩ := List.mem_iff_getElem?.mp (bestElement_mem hmin)
      exact List.mem_of_getElem? (hcat.2 k _ hk)

end Growing

/-! ### The gradient and the prediction of a training row -/

/-- The child that a training row goes to. -/
def nextChild (D : TrainingSet n N) (i : Fin N) (cur : Node n N) : ℕ :=
  match cur.att_class with
  | some a => D.value a i
  | none => 0

theorem Grown.selects {D : TrainingSet n N} {rows : Finset (Fin N)} {tree : SID3Regression n N}
    (h : Grown D rows tree) (i : Fin N) :
    tree.Everywhere (Selects Node.att_class (rowData D.S i) (nextChild D i)) := by
  induction h with
  | leaf => exact .node (.inl rfl) fun c hc => by cases hc
  | @inner rows cur cs a values _ hatt hvalues hlen _ ih =>
      exact TrainingSet.selects_inner hvalues hatt (by rw [nextChild, hatt]) hlen ih

/-- The sum over the children for one row, where the loop reaches it. -/
theorem secret_gradChildren {size : ℤ} {i : Fin N} {cs : List (SID3Regression n N)} :
    ∀ {ret : Fin N → Share n}, secret (gradChildren size cs ret i)
      = secret (ret i) + if (i : ℤ) < size then (cs.map fun c => secret (grad c i)).sum else 0 := by
  induction cs with
  | nil =>
      intro ret
      rw [gradChildren]
      simp
  | cons c cs ih =>
      intro ret
      rw [gradChildren, ih]
      split
      · rw [QuickMpc.Share.secret_add, List.map_cons, List.sum_cons, add_assoc]
      · rfl

theorem secret_grad_node {cur : Node n N} {cs : List (SID3Regression n N)} (hne : cs ≠ [])
    (i : Fin N) :
    secret (grad (.node cur cs) i)
      = if (i : ℤ) < cur.size then (cs.map fun c => secret (grad c i)).sum else 0 := by
  cases cs with
  | nil => exact absurd rfl hne
  | cons c cs => rw [grad, secret_gradChildren, QuickMpc.Share.secret_zero, zero_add]

/-- A sum with at most one term. -/
theorem sum_map_eq_of_getElem? {f : SID3Regression n N → ℤ} {c : SID3Regression n N}
    {cs : List (SID3Regression n N)} {k : ℕ} (hk : cs[k]? = some c)
    (hzero : ∀ v d, cs[v]? = some d → v ≠ k → f d = 0) : (cs.map f).sum = f c := by
  have hterm : ∀ v d, cs[v]? = some d → f d = if v = k then f c else 0 := by
    intro v d hd
    by_cases hv : v = k
    · obtain rfl : d = c := Option.some.inj (hd.symm.trans (hv ▸ hk))
      rw [if_pos hv]
    · rw [if_neg hv, hzero v d hd hv]
  have hlt : k < cs.length := (List.getElem?_eq_some_iff.mp hk).1
  rw [sum_map_eq_sum_range hterm, Finset.sum_ite_eq', if_pos (Finset.mem_range.mpr hlt)]

/-- The rows that are not in use have no gradient. -/
theorem Grown.secret_grad_of_notMem {D : TrainingSet n N} {rows : Finset (Fin N)}
    {tree : SID3Regression n N} (h : Grown D rows tree) {i : Fin N} (hi : i ∉ rows) :
    secret (grad tree i) = 0 := by
  induction h with
  | leaf hcur =>
      rw [grad, hcur.grads i, if_neg hi]
  | @inner rows cur cs a values hcur _ _ _ _ ih =>
      by_cases hnil : cs = []
      · rw [hnil, grad, hcur.grads i, if_neg hi]
      · rw [secret_grad_node hnil]
        split
        · refine List.sum_eq_zero fun x hx => ?_
          obtain ⟨c, hc, rfl⟩ := List.mem_map.mp hx
          obtain ⟨v, hv⟩ := List.mem_iff_getElem?.mp hc
          exact ih v c hv fun hmem => hi (TrainingSet.mem_withValue.mp hmem).1
        · rfl

/-- A row in use has the value of its leaf, unless one of the loops on the way down
stops before the row. -/
theorem Grown.secret_grad_of_mem {D : TrainingSet n N} {rows : Finset (Fin N)}
    {tree : SID3Regression n N} (h : Grown D rows tree) {i : Fin N} (hi : i ∈ rows) :
    ∃ inner leaf, tree.descend (nextChild D i) = some (inner, leaf) ∧
      secret (grad tree i) = if ∀ cur ∈ inner, (i : ℤ) < cur.size then secret leaf.y else 0 := by
  induction h with
  | @leaf rows cur hcur =>
      refine ⟨[], cur, RoseTree.descend_leaf _ _, ?_⟩
      rw [grad, hcur.grads i, if_pos hi, if_pos (by simp)]
  | @inner rows cur cs a values hcur hatt hvalues hlen hcs ih =>
      have hlt : D.value a i < cs.length := hlen ▸ D.value_lt hvalues i
      have hnext : nextChild D i cur = D.value a i := by rw [nextChild, hatt]
      have hchild : cs[D.value a i]? = some cs[D.value a i] := List.getElem?_eq_getElem hlt
      obtain ⟨inner, leaf, hwalk, hgrad⟩ :=
        ih _ _ hchild (TrainingSet.mem_withValue.mpr ⟨hi, rfl⟩)
      refine ⟨cur :: inner, leaf, ?_, ?_⟩
      · have hchild' : cs[nextChild D i cur]? = some cs[D.value a i] := by rw [hnext, hchild]
        rw [RoseTree.descend_node hchild', hwalk, Option.map_some]
      · -- the row is in use at one of the children only
        have hother : ∀ v c, cs[v]? = some c → v ≠ D.value a i → secret (grad c i) = 0 := by
          intro v c hc hne
          refine (hcs v c hc).secret_grad_of_notMem fun hmem => ?_
          exact hne (TrainingSet.mem_withValue.mp hmem).2.symm
        have hnonempty : cs ≠ [] := List.ne_nil_of_length_pos (Nat.zero_lt_of_lt hlt)
        rw [secret_grad_node hnonempty,
          sum_map_eq_of_getElem? (f := fun c => secret (grad c i)) hchild hother, hgrad]
        simp only [List.mem_cons, forall_eq_or_imp]
        by_cases hsize : (i : ℤ) < cur.size
        · simp only [hsize, if_true, true_and]
        · simp only [hsize, if_false, false_and]

/-- The gradient of a training row is its prediction exactly when every inner node
that the row passes has more rows in use than the row's index, or the value of the
row's leaf is `0`. -/
theorem grad_eq_predict_iff [Multiprecision] [Config n] (D : TrainingSet n N)
    (targets : Fin N → Share n) (t : ℕ → BtsTriple n)
    {choice : (Fin N → Share n) → List ℕ → Supply (ℚ × Option ℕ)} (hchoice : PicksFrom D choice) :
    Supply.Returns (createTreeWith t choice D.S targets D.R.length D.T D.R) fun tree =>
      ∀ i, ∃ inner leaf, tree.descend (nextChild D i) = some (inner, leaf) ∧
        Supply.Returns (predict t (rowData D.S i) tree) fun r =>
          recons (grad tree i) = recons r ↔
            (∀ cur ∈ inner, (i : ℤ) < cur.size) ∨ recons leaf.y = 0 := by
  have hT : ∀ i, IsBit (i ∈ Finset.univ) (D.T i) := by
    intro i
    rw [IsBit, D.T_ones i]
    exact if_congr (by simp) rfl rfl
  refine (createTreeWith_returns t hchoice le_rfl hT D.R_lt).mono fun tree htree i => ?_
  obtain ⟨inner, leaf, hwalk, hgrad⟩ := htree.secret_grad_of_mem (Finset.mem_univ i)
  refine ⟨inner, leaf, hwalk, (predict_returns (htree.selects i)).mono fun r hr => ?_⟩
  rw [leafValue_of_descend hwalk] at hr
  have hrecons : ∀ x y : Share n, recons x = recons y ↔ secret x = secret y := by
    intro x y
    rw [FixedPoint.ext_iff, QuickMpc.Share.recons_value_fixedPoint,
      QuickMpc.Share.recons_value_fixedPoint]
  have hzero : recons leaf.y = 0 ↔ secret leaf.y = 0 := by
    rw [FixedPoint.ext_iff, QuickMpc.Share.recons_value_fixedPoint, FixedPoint.zero_value]
  rw [hrecons, hr, hgrad, hzero]
  split
  · rename_i hall
    exact iff_of_true rfl (.inl hall)
  · rename_i hsome
    simp only [hsome, false_or]
    exact eq_comm

/-! ### A lost row -/

/-- Two attributes with two values. The first splits off the row `0`, the second
separates the other two. -/
def exampleTable : TrainingSet 3 3 :=
  @TrainingSet.ofTable 3 3 threeParties 2 (fun _ => 2)
    (fun a i => if a = 0 then min i.val 1 else i.val / 2) (by decide)

def exampleTargets : Fin 3 → Share 3 := fun i =>
  @getConstantShare 3 threeParties (FixedPoint.ofInt (if i.val = 0 then 5 else 1))

def exampleTriples : ℕ → BtsTriple 3 := fun _ =>
  ⟨fun i => i.val, fun _ => 1, fun i => 3 * i.val, by decide⟩

/-- The table's tree. -/
theorem grad_eq_predict_iff_three :
    letI := threeParties
    letI := Multiprecision.plain
    Supply.Returns (createTree exampleTriples exampleTable.S exampleTargets exampleTable.T
        exampleTable.R) fun tree =>
      ∀ i, ∃ inner leaf, tree.descend (nextChild exampleTable i) = some (inner, leaf) ∧
        Supply.Returns (predict exampleTriples (rowData exampleTable.S i) tree) fun r =>
          recons (grad tree i) = recons r ↔
            (∀ cur ∈ inner, (i : ℤ) < cur.size) ∨ recons leaf.y = 0 :=
  letI := threeParties
  letI := Multiprecision.plain
  grad_eq_predict_iff exampleTable exampleTargets exampleTriples (IG_picksFrom exampleTriples)

/-- The rows `1` and `2` are at the second child of the root. Its `size` is `2`, so
its loop leaves out the row `2`: the gradient is `0` where the prediction is `1`. -/
theorem grad_ne_predict_three :
    letI := threeParties
    letI := Multiprecision.plain
    ∃ tree k r k', createTree exampleTriples exampleTable.S exampleTargets exampleTable.T
        exampleTable.R 0 = some (tree, k) ∧
      predict exampleTriples (rowData exampleTable.S (Fin.last 2)) tree k = some (r, k') ∧
      recons (grad tree (Fin.last 2)) = FixedPoint.ofInt 0 ∧ recons r = FixedPoint.ofInt 1 := by
  let _ := threeParties
  let _ := Multiprecision.plain
  have hrun : ((createTree exampleTriples exampleTable.S exampleTargets exampleTable.T
      exampleTable.R 0).bind fun p =>
        (predict exampleTriples (rowData exampleTable.S (Fin.last 2)) p.1 p.2).map fun q =>
          (recons (grad p.1 (Fin.last 2)), recons q.1))
      = some (FixedPoint.ofInt 0, FixedPoint.ofInt 1) := by
    decide +kernel
  obtain ⟨⟨tree, k⟩, htree, hrest⟩ := Option.bind_eq_some_iff.mp hrun
  obtain ⟨⟨r, k'⟩, hpredict, hparts⟩ := Option.map_eq_some_iff.mp hrest
  obtain ⟨hgrad, hr⟩ := Prod.mk.inj hparts
  exact ⟨tree, k, r, k', htree, hpredict, hgrad, hr⟩

end SID3Regression

end QuickMpc.Gbdt
