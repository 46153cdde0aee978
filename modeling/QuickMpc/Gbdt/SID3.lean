import QuickMpc.Gbdt.TrainingSet

/-!
# QuickMpc.Gbdt.SID3

The classification tree. A node stores its majority class as a constant share, the
attribute with the largest opened Gini value, and the mask of its rows. The
quotients of the Gini values are shares divided by shares; that operation is a
parameter here, so nothing is assumed about the values that are opened.
-/

namespace QuickMpc.Gbdt

namespace SID3

/-- What a node of the tree stores. -/
structure Node (n : ℕ) where
  /-- Empty in a tree that was read from its json. -/
  T : List (Share n)
  /-- `none` for `-1`, and where it was not set. -/
  att_class : Option ℕ
  gini_index : ℚ
  size : ℤ
  y : Share n

end SID3

/-- A tree, the children below the node. -/
abbrev SID3 (n : ℕ) := RoseTree (SID3.Node n)

namespace SID3

open Share (secret recons)

variable {n N : ℕ}

/-- `eps`. -/
def eps : ℚ := 1 / 1000000

section Code

variable [Config n] (t : ℕ → BtsTriple n)

/-- `predict`. -/
def predict (data : List (List (Share n))) (tree : SID3 n) : Supply (Share n) :=
  Gbdt.predict t Node.att_class Node.y data tree

/-- `splitTransaction`: the rows in use, by their class. -/
def splitTransaction (targets : List (Fin N → Share n)) (T : Fin N → Share n) :
    Supply (List (Fin N → Share n)) :=
  targets.mapM fun target => mulVec t target T

/-- The rows of a class, counted in the clear. -/
def baseCount (u : Fin N → Share n) : ℤ := FixedPoint.truncate (recons (sum u)).getDoubleVal

/-- The index of the largest class in `majorityClass`; the last one of several. There is
none without a class. -/
def max_num_index (U : List (Fin N → Share n)) : Option ℕ :=
  (max_element (U.mapIdx fun index u => (baseCount u, index))).map Prod.snd

/-- `majorityClass`. -/
def majorityClass (U : List (Fin N → Share n)) : Supply (Share n) :=
  match max_num_index U with
  | some index => pure (getConstantShare (FixedPoint.ofInt index))
  | none => failure

variable (div : Share n → Share n → Supply (Share n))

/-- The quotient whose value is opened for one attribute value. -/
def gini (U : List (Fin N → Share n)) (bits : Fin N → Share n) : Supply (Share n) := do
  let x ← U.mapM fun u => dot t u bits
  let y := x.foldl (· + ·) (0 : Share n)
  let xx ← dot t x.get x.get
  div xx (y * FixedPoint.ofInt 8 + FixedPoint.ofInt 1)

/-- The Gini values of the attribute `r`, opened. -/
def giniValues (S : List (List (Fin N → Share n))) (U : List (Fin N → Share n)) (r : ℕ) :
    Supply (List (ℚ × ℕ)) :=
  match S[r]? with
  | some values => values.mapM fun bits => do
      let value ← gini t div U bits
      return ((recons value).getDoubleVal, r)
  | none => failure

/-- `calcGini`. -/
def calcGini (S : List (List (Fin N → Share n))) (U : List (Fin N → Share n)) (R : List ℕ) :
    Supply (List (ℚ × ℕ)) := do
  let ret ← R.mapM (giniValues t div S U)
  return ret.flatten

/-- `getMaxGini`. -/
def getMaxGini (S : List (List (Fin N → Share n))) (U : List (Fin N → Share n)) (R : List ℕ) :
    Supply (ℚ × Option ℕ) := do
  let gini_indexies ← calcGini t div S U R
  match max_element gini_indexies with
  | none => return (-1, none)
  | some (value, r) => return (value, some r)

variable (S : List (List (Fin N → Share n))) (targets : List (Fin N → Share n))

/-- The body of `createTree`; `createChild` is its recursive call. -/
def createTreeBody (createChild : (Fin N → Share n) → List ℕ → Supply (SID3 n))
    (T : Fin N → Share n) (R : List ℕ) : Supply (SID3 n) := do
  let size := dataSize T
  let U ← splitTransaction t targets T
  let y ← majorityClass U
  let (gini_index, att_class) ← getMaxGini t div S U R
  let current : Node n := { T := List.ofFn T, att_class, gini_index, size, y }
  -- `size` is compared as an unsigned number: a negative one would be large
  if R.isEmpty || decide (0 ≤ size ∧ size ≤ ((N / 2 : ℕ) : ℤ)) || decide (size = 0)
      || decide (gini_index ≤ eps) then
    return .node current []
  match att_class with
  | none => failure
  | some a =>
    match S[a]? with
    | none => failure
    | some values =>
      let R_ := R.erase a
      let children ← values.mapM fun value => do
        let T_ ← mulVec t T value
        createChild T_ R_
      return .node current children

/-- `createTree`; the argument in front bounds the depth. -/
def createTreeAux : ℕ → (Fin N → Share n) → List ℕ → Supply (SID3 n)
  | 0, T, R => createTreeBody t div S targets (fun _ _ => failure) T R
  | depth + 1, T, R => createTreeBody t div S targets (createTreeAux depth) T R

/-- `createTree`. Every call removes one attribute of `R`. -/
def createTree (T : Fin N → Share n) (R : List ℕ) : Supply (SID3 n) :=
  createTreeAux t div S targets R.length T R

end Code

/-! ### What a tree looks like -/

/-- A node stores one of the classes, and has a child for every value of its
attribute. -/
structure Node.WellFormed [Config n] (S : List (List (Fin N → Share n)))
    (targets : List (Fin N → Share n)) (cur : Node n) (k : ℕ) : Prop where
  class_lt : ∃ c < targets.length, cur.y = getConstantShare (FixedPoint.ofInt (c : ℕ))
  children : k = 0 ∨ ∃ a values, cur.att_class = some a ∧ S[a]? = some values ∧ values.length = k

section Growing

variable [Config n] {t : ℕ → BtsTriple n} {div : Share n → Share n → Supply (Share n)}
  {S : List (List (Fin N → Share n))} {targets : List (Fin N → Share n)}

omit [Config n] in
theorem max_num_index_lt {U : List (Fin N → Share n)} {index : ℕ}
    (h : max_num_index U = some index) : index < U.length := by
  obtain ⟨p, hp, rfl⟩ := Option.map_eq_some_iff.mp h
  obtain ⟨i, hi, rfl⟩ := List.mem_mapIdx.mp (bestElement_mem hp)
  exact hi

theorem splitTransaction_ensures (T : Fin N → Share n) :
    Supply.Ensures (splitTransaction t targets T) fun U => U.length = targets.length :=
  (Supply.Ensures.mapM (P := fun _ _ => True) fun _ _ _ => .trivial).mono fun _ hU => hU.1

theorem majorityClass_ensures (U : List (Fin N → Share n)) :
    Supply.Ensures (majorityClass U) fun y =>
      ∃ c < U.length, y = getConstantShare (FixedPoint.ofInt (c : ℕ)) := by
  unfold majorityClass
  cases hindex : max_num_index U with
  | none => exact .failure
  | some index => exact .pure ⟨index, max_num_index_lt hindex, rfl⟩

/-- One call of `createTree`, when the calls for the children do their part. -/
theorem createTreeBody_ensures
    {createChild : (Fin N → Share n) → List ℕ → Supply (SID3 n)}
    (hchild : ∀ T R, Supply.Ensures (createChild T R) fun tree =>
      tree.Everywhere (Node.WellFormed S targets)) (T : Fin N → Share n) (R : List ℕ) :
    Supply.Ensures (createTreeBody t div S targets createChild T R) fun tree =>
      tree.Everywhere (Node.WellFormed S targets) := by
  refine (splitTransaction_ensures T).bind fun U hU => ?_
  refine (majorityClass_ensures U).bind fun y hy => ?_
  refine Supply.Ensures.trivial.bind fun p _ => ?_
  obtain ⟨gini_index, att_class⟩ := p
  rw [hU] at hy
  dsimp only
  split
  · exact .pure (.node ⟨hy, .inl rfl⟩ fun c hc => by cases hc)
  · cases att_class with
    | none => exact .failure
    | some a =>
        dsimp only
        cases hvalues : S[a]? with
        | none => exact .failure
        | some values =>
            refine (Supply.Ensures.mapM
              (P := fun _ child => child.Everywhere (Node.WellFormed S targets))
              fun v bits hbits => ?_).bind fun cs hcs => ?_
            · exact Supply.Ensures.trivial.bind fun T_ _ => hchild T_ _
            · refine .pure (.node ⟨hy, .inr ⟨a, values, rfl, hvalues, hcs.1.symm⟩⟩ fun c hc => ?_)
              obtain ⟨v, hv⟩ := List.mem_iff_getElem?.mp hc
              exact hcs.2 v c hv

theorem createTree_ensures (T : Fin N → Share n) (R : List ℕ) :
    Supply.Ensures (createTree t div S targets T R) fun tree =>
      tree.Everywhere (Node.WellFormed S targets) := by
  have haux : ∀ (depth : ℕ) (T : Fin N → Share n) (R : List ℕ),
      Supply.Ensures (createTreeAux t div S targets depth T R) fun tree =>
        tree.Everywhere (Node.WellFormed S targets) := by
    intro depth
    induction depth with
    | zero => exact createTreeBody_ensures fun _ _ => .failure
    | succ depth ih => exact createTreeBody_ensures ih
  exact haux R.length T R

/-! ### The Gini values -/

/-- The Gini values return when the quotients do that are opened for them. -/
theorem calcGini_returns {U : List (Fin N → Share n)} {R : List ℕ} (hR : ∀ r ∈ R, r < S.length)
    (hgini : ∀ r ∈ R, ∀ values, S[r]? = some values → ∀ bits ∈ values,
      Supply.Returns (gini t div U bits) fun _ => True) :
    Supply.Returns (calcGini t div S U R) fun ret => ∀ p ∈ ret, p.2 ∈ R := by
  have hvalues : ∀ k r : ℕ, R[k]? = some r →
      Supply.Returns (giniValues t div S U r) fun ps => ∀ p ∈ ps, p.2 ∈ R := by
    intro k r hr
    have hmem : r ∈ R := List.mem_of_getElem? hr
    have hlt := hR r hmem
    have hget : S[r]? = some S[r] := List.getElem?_eq_getElem hlt
    rw [giniValues, hget]
    refine (Supply.Returns.mapM (P := fun _ p => p.2 ∈ R) fun _ bits hbits =>
      (hgini r hmem _ hget bits (List.mem_of_getElem? hbits)).bind fun value _ =>
        .pure hmem).mono fun ps hps p hp => ?_
    obtain ⟨j, hj⟩ := List.mem_iff_getElem?.mp hp
    exact hps.2 j p hj
  refine (Supply.Returns.mapM hvalues).bind fun ret hret => .pure fun p hp => ?_
  obtain ⟨ps, hps, hp⟩ := List.mem_flatten.mp hp
  obtain ⟨j, hj⟩ := List.mem_iff_getElem?.mp hps
  exact hret.2 j ps hj p hp

/-- The attribute is one of `R`, or the index is `-1`. -/
theorem getMaxGini_returns {U : List (Fin N → Share n)} {R : List ℕ} (hR : ∀ r ∈ R, r < S.length)
    (hgini : ∀ r ∈ R, ∀ values, S[r]? = some values → ∀ bits ∈ values,
      Supply.Returns (gini t div U bits) fun _ => True) :
    Supply.Returns (getMaxGini t div S U R) fun p => p.1 = -1 ∨ ∃ a ∈ R, p.2 = some a := by
  refine (calcGini_returns hR hgini).bind fun ret hret => ?_
  cases hmax : max_element ret with
  | none => exact .pure (.inl rfl)
  | some p => exact .pure (.inr ⟨p.2, hret p (bestElement_mem hmax), rfl⟩)

/-- Where a node is not terminal, an attribute was picked. -/
theorem ne_neg_one_of_not_stop {R : List ℕ} {size : ℤ} {gini_index : ℚ}
    (hstop : ¬(R.isEmpty || decide (0 ≤ size ∧ size ≤ ((N / 2 : ℕ) : ℤ)) || decide (size = 0)
      || decide (gini_index ≤ eps)) = true) : gini_index ≠ -1 := by
  intro heq
  have heps : (-1 : ℚ) ≤ eps := by norm_num [eps]
  simp [heq, heps] at hstop

end Growing

end SID3

end QuickMpc.Gbdt
