import QuickMpc.Gbdt.SID3

/-!
# QuickMpc.Gbdt.SID3Json

The classification tree as json. Every party writes its own share of the class, as a
double, and leaves out `att_class` at the terminal nodes; the constructor from json
leaves the members without a field unset. The shares of a class are constant shares,
hence whole numbers, which a double holds exactly.
-/

namespace QuickMpc.Gbdt

/-- `nlohmann::json`, as far as the tree uses it; the fields of an object are in the
order of their keys. -/
inductive Json
  | number (value : ℚ)
  | array (items : List Json)
  | object (fields : List (String × Json))

/-- `get<double>()` of a field. -/
def Json.getDouble (fields : List (String × Json)) (key : String) : Option ℚ :=
  match fields.lookup key with
  | some (.number value) => some value
  | _ => none

namespace SID3

open Share (secret recons)

/-- What one party stores of a node. -/
structure PartyNode where
  att_class : Option ℕ
  gini_index : ℚ
  size : ℤ
  y : FixedPoint

mutual

/-- `createTreeJson`. -/
def createTreeJson : RoseTree PartyNode → Json
  | .node cur [] => .object
      [("children", .array []), ("class", .number cur.y.getDoubleVal),
        ("gini", .number cur.gini_index), ("size", .number cur.size)]
  | .node cur (c :: cs) => .object
      [("att_class", .number (cur.att_class.elim (-1) fun a => a)),
        ("children", .array (childrenJson (c :: cs))), ("class", .number cur.y.getDoubleVal),
        ("gini", .number cur.gini_index), ("size", .number cur.size)]

/-- The loop of `createTreeJson` over the children. -/
def childrenJson : List (RoseTree PartyNode) → List Json
  | [] => []
  | child :: cs => createTreeJson child :: childrenJson cs

end

mutual

/-- The constructor `SID3(const nlohmann::json &)`. -/
def ofJson : Json → Option (RoseTree PartyNode)
  | .object fields => do
      let gini_index ← Json.getDouble fields "gini"
      let size ← Json.getDouble fields "size"
      let y ← Json.getDouble fields "class"
      let att_class ←
        match fields.lookup "att_class" with
        | none => some none
        | some (.number a) => some (FixedPoint.truncate a).toNat?
        | some _ => none
      let children ← readChildren fields
      return .node ⟨att_class, gini_index, FixedPoint.truncate size, .ofDouble y⟩ children
  | _ => none

/-- The children, from the fields of an object. -/
def readChildren : List (String × Json) → Option (List (RoseTree PartyNode))
  | [] => none
  | (key, value) :: fields => if key = "children" then readArray value else readChildren fields

def readArray : Json → Option (List (RoseTree PartyNode))
  | .array items => readItems items
  | _ => none

def readItems : List Json → Option (List (RoseTree PartyNode))
  | [] => some []
  | item :: items => do
      let child ← ofJson item
      let children ← readItems items
      return child :: children

end

/-! ### Through json and back -/

/-- What is left of a node with `k` children after its way through json. -/
def PartyNode.reread (cur : PartyNode) (k : ℕ) : PartyNode :=
  { cur with att_class := if k = 0 then none else cur.att_class }

/-- A node that json can carry. -/
structure PartyNode.Storable (cur : PartyNode) (k : ℕ) : Prop where
  y : FixedPoint.ofDouble cur.y.getDoubleVal = cur.y
  att_class : k = 0 ∨ ∃ a, cur.att_class = some a

@[simp] theorem childrenJson_eq_map (cs : List (RoseTree PartyNode)) :
    childrenJson cs = cs.map createTreeJson := by
  induction cs with
  | nil => rw [childrenJson, List.map_nil]
  | cons c cs ih => rw [childrenJson, ih, List.map_cons]

theorem readItems_map {f : RoseTree PartyNode → RoseTree PartyNode}
    {cs : List (RoseTree PartyNode)} (h : ∀ c ∈ cs, ofJson (createTreeJson c) = some (f c)) :
    readItems (cs.map createTreeJson) = some (cs.map f) := by
  induction cs with
  | nil => rw [List.map_nil, readItems, List.map_nil]
  | cons c cs ih =>
      rw [List.map_cons, readItems, h c List.mem_cons_self,
        ih fun d hd => h d (List.mem_cons_of_mem c hd)]
      rfl

theorem truncate_natCast (a : ℕ) : (FixedPoint.truncate (a : ℚ)).toNat? = some a := by
  have hint := FixedPoint.truncate_intCast (a : ℤ)
  rw [Int.cast_natCast] at hint
  rw [hint]
  rfl

/-- The tree that is read is the one that was written, without the attributes of the
terminal nodes. -/
theorem ofJson_createTreeJson {tree : RoseTree PartyNode}
    (h : tree.Everywhere PartyNode.Storable) :
    ofJson (createTreeJson tree) = some (tree.relabel PartyNode.reread) := by
  induction h with
  | @node cur cs hcur _ ih =>
      have hitems := readItems_map ih
      cases cs with
      | nil =>
          simp [createTreeJson, ofJson, Json.getDouble, readChildren, readArray, readItems,
            List.lookup_cons, FixedPoint.truncate_intCast, hcur.y, PartyNode.reread]
      | cons c cs =>
          obtain ⟨a, ha⟩ := hcur.att_class.resolve_left (by simp)
          rw [List.map_cons] at hitems
          simp [createTreeJson, ofJson, Json.getDouble, readChildren, readArray, hitems,
            List.lookup_cons, FixedPoint.truncate_intCast, hcur.y, PartyNode.reread, ha,
            truncate_natCast]

theorem createTreeJson_reread (tree : RoseTree PartyNode) :
    createTreeJson (tree.relabel PartyNode.reread) = createTreeJson tree := by
  induction tree with
  | node cur cs ih =>
      rw [RoseTree.relabel_node]
      cases cs with
      | nil => simp [createTreeJson, PartyNode.reread]
      | cons c cs =>
          have hchildren : ((c :: cs).map (RoseTree.relabel PartyNode.reread)).map createTreeJson
              = (c :: cs).map createTreeJson := by
            rw [List.map_map]
            exact List.map_congr_left ih
          rw [List.map_cons] at hchildren ⊢
          simp only [createTreeJson, childrenJson_eq_map, hchildren]
          simp [PartyNode.reread]

/-! ### The trees of all the parties -/

variable {n N : ℕ}

/-- The part of the party `i`. -/
def Node.at (i : Fin n) (cur : Node n) : PartyNode where
  att_class := cur.att_class
  gini_index := cur.gini_index
  size := cur.size
  y := cur.y.value i

/-- The tree of the party `i`. -/
def ofParty (i : Fin n) (tree : SID3 n) : RoseTree PartyNode :=
  tree.relabel fun cur _ => cur.at i

/-- What is left of a node with `k` children after its way through json. -/
def Node.reread (cur : Node n) (k : ℕ) : Node n :=
  { cur with T := [], att_class := if k = 0 then none else cur.att_class }

/-- An input: attribute vectors of the trained widths, the `1` of the attribute `a` at
the position `hot a`. -/
def OneHotInput (S : List (List (Fin N → Share n))) (data : List (List (Share n)))
    (hot : ℕ → ℕ) : Prop :=
  ∀ a values, S[a]? = some values →
    ∃ bits, data[a]? = some bits ∧ bits.length = values.length ∧ OneHot bits (hot a)

/-- The attribute vectors of a training row. -/
theorem oneHotInput_rowData (D : TrainingSet n N) (i : Fin N) :
    OneHotInput D.S (rowData D.S i) fun a => D.value a i := fun a values hvalues =>
  ⟨_, rowData_getElem? hvalues i, List.length_map _, D.one_hot a values hvalues i⟩

/-- The child at the position of the `1`. -/
def nextChild (hot : ℕ → ℕ) (cur : Node n) : ℕ :=
  match cur.att_class with
  | some a => hot a
  | none => 0

section Parties

variable [Config n] {S : List (List (Fin N → Share n))} {targets : List (Fin N → Share n)}

theorem Node.WellFormed.selects {data : List (List (Share n))} {hot : ℕ → ℕ} {cur : Node n} {k : ℕ}
    (h : cur.WellFormed S targets k) (hdata : OneHotInput S data hot) :
    Selects Node.att_class data (nextChild hot) cur k := by
  rcases h.children with hzero | ⟨a, values, hatt, hvalues, hlen⟩
  · exact .inl hzero
  · obtain ⟨bits, hbits, hwidth, hhot⟩ := hdata a values hvalues
    refine .inr ⟨a, bits, hatt, hbits, hwidth.trans hlen, ?_⟩
    rw [nextChild, hatt]
    exact hhot

/-- A constant share is a whole number at every party. -/
theorem ofDouble_getConstantShare (c : ℤ) (i : Fin n) :
    FixedPoint.ofDouble ((getConstantShare (FixedPoint.ofInt c) : Share n).value i).getDoubleVal
      = (getConstantShare (FixedPoint.ofInt c) : Share n).value i := by
  have hwhole : ∃ k, (getConstantShare (FixedPoint.ofInt c) : Share n).value i
      = FixedPoint.ofInt k := by
    by_cases hi : i = Config.sp_id
    · refine ⟨c, ?_⟩
      show (if i = Config.sp_id then (0 : FixedPoint) + FixedPoint.ofInt c else 0) = _
      rw [if_pos hi]
      ext
      simp
    · refine ⟨0, ?_⟩
      show (if i = Config.sp_id then (0 : FixedPoint) + FixedPoint.ofInt c else 0) = _
      rw [if_neg hi]
      ext
      simp
  obtain ⟨k, hk⟩ := hwhole
  have hdouble : (FixedPoint.ofInt k).getDoubleVal = k :=
    FixedPoint.getDoubleVal_of_whole (mul_comm _ _)
  rw [hk, hdouble, FixedPoint.ofDouble_intCast]

theorem Node.WellFormed.storable {cur : Node n} {k : ℕ} (h : cur.WellFormed S targets k)
    (i : Fin n) : (cur.at i).Storable k := by
  refine ⟨?_, ?_⟩
  · obtain ⟨c, -, hc⟩ := h.class_lt
    rw [Node.at, hc]
    exact ofDouble_getConstantShare c i
  · rcases h.children with hzero | ⟨a, values, hatt, -, -⟩
    · exact .inl hzero
    · exact .inr ⟨a, hatt⟩

/-- Every party reads its part of the tree `tree.relabel Node.reread`. -/
theorem ofJson_ofParty {tree : SID3 n} (h : tree.Everywhere (Node.WellFormed S targets))
    (i : Fin n) :
    ofJson (createTreeJson (ofParty i tree)) = some (ofParty i (tree.relabel Node.reread)) := by
  have hstorable : (ofParty i tree).Everywhere PartyNode.Storable :=
    h.relabel fun cur k hcur => hcur.storable i
  rw [ofJson_createTreeJson hstorable, ofParty, ofParty, RoseTree.relabel_relabel,
    RoseTree.relabel_relabel]
  rfl

/-- The prediction is the class that the leaf stores. -/
theorem predict_class (t : ℕ → BtsTriple n) {tree : SID3 n}
    (h : tree.Everywhere (Node.WellFormed S targets)) {data : List (List (Share n))} {hot : ℕ → ℕ}
    (hdata : OneHotInput S data hot) :
    ∃ inner leaf, tree.descend (nextChild hot) = some (inner, leaf) ∧
      ∃ c < targets.length, leaf.y = getConstantShare (FixedPoint.ofInt (c : ℕ)) ∧
        Supply.Returns (predict t data tree) fun r => recons r = FixedPoint.ofInt c := by
  have hselects : ∀ cur k, cur.WellFormed S targets k →
      Selects Node.att_class data (nextChild hot) cur k := fun cur k hcur => hcur.selects hdata
  obtain ⟨inner, leaf, hwalk, hleaf⟩ :=
    h.exists_descend fun cur k hcur => (hselects cur k hcur).next_lt
  obtain ⟨c, hc, hy⟩ := hleaf.class_lt
  refine ⟨inner, leaf, hwalk, c, hc, hy, (predict_returns (h.mono hselects)).mono fun r hr => ?_⟩
  ext
  rw [QuickMpc.Share.recons_value_fixedPoint, hr, leafValue_of_descend hwalk, hy, getConstantShare,
    QuickMpc.Share.secret_add_value, QuickMpc.Share.secret_zero, zero_add,
    QuickMpc.Share.denote_eq_value]

/-- **Oblivious prediction is the plain walk, also after json.** A tree that `createTree`
returns is read back by every party from its own json as its part of one tree of the same shape,
which has the same json again. For one-hot data the plain walk ends in a leaf, whose value is a
class, and `predict` returns this class with either of the two trees. -/
theorem predict_and_json {t : ℕ → BtsTriple n} {div : Share n → Share n → Supply (Share n)}
    {T : Fin N → Share n} {R : List ℕ} {k k' : ℕ} {tree : SID3 n}
    (h : createTree t div S targets T R k = some (tree, k')) :
    ∃ tree' : SID3 n,
      (∀ i, ofJson (createTreeJson (ofParty i tree)) = some (ofParty i tree')) ∧
      tree'.shape = tree.shape ∧
      (∀ i, createTreeJson (ofParty i tree') = createTreeJson (ofParty i tree)) ∧
      ∀ (t : ℕ → BtsTriple n) (data : List (List (Share n))) (hot : ℕ → ℕ),
        OneHotInput S data hot →
        ∃ inner leaf, tree.descend (nextChild hot) = some (inner, leaf) ∧
          ∃ c < targets.length, leaf.y = getConstantShare (FixedPoint.ofInt (c : ℕ)) ∧
            Supply.Returns (predict t data tree) (fun r => recons r = FixedPoint.ofInt c) ∧
            Supply.Returns (predict t data tree') (fun r => recons r = FixedPoint.ofInt c) := by
  have hwf := createTree_ensures T R k tree k' h
  refine ⟨tree.relabel Node.reread, ofJson_ofParty hwf, RoseTree.shape_relabel _ tree, ?_, ?_⟩
  · intro i
    have hparty : ofParty i (tree.relabel Node.reread)
        = (ofParty i tree).relabel PartyNode.reread := by
      rw [ofParty, ofParty, RoseTree.relabel_relabel, RoseTree.relabel_relabel]
      rfl
    rw [hparty, createTreeJson_reread]
  · intro t data hot hdata
    obtain ⟨inner, leaf, hwalk, c, hc, hy, hpredict⟩ := predict_class t hwf hdata
    have hsame : predict t data (tree.relabel Node.reread) = predict t data tree := by
      refine predict_relabel (hwf.mono fun cur k hcur => ⟨rfl, ?_⟩)
      by_cases hk : k = 0
      · exact .inl hk
      · exact .inr (if_neg hk)
    exact ⟨inner, leaf, hwalk, c, hc, hy, hpredict, hsame ▸ hpredict⟩

end Parties

/-- One attribute with two values; the row `0` has the value `0` and the class `0`. -/
def exampleTable : TrainingSet 3 3 :=
  @TrainingSet.ofTable 3 3 threeParties 1 (fun _ => 2) (fun _ i => min i.val 1) (by decide)

def exampleClasses : List (Fin 3 → Share 3) :=
  (List.range 2).map fun c i =>
    @getConstantShare 3 threeParties (FixedPoint.ofInt (if c = min i.val 1 then 1 else 0))

/-- The example's tree has two leaves, and predicts a class for its last row. The shares are
divided by the opened divisor. -/
theorem predict_and_json_three :
    letI := threeParties
    letI := Multiprecision.plain
    let t : ℕ → BtsTriple 3 := fun _ => ⟨fun i => i.val, fun _ => 1, fun i => 3 * i.val, by decide⟩
    ∃ tree k', createTree t (fun x y => pure (x / recons y)) exampleTable.S exampleClasses
        exampleTable.T exampleTable.R 0 = some (tree, k') ∧
      tree.children.length = 2 ∧
      ∃ tree' : SID3 3,
        (∀ i, ofJson (createTreeJson (ofParty i tree)) = some (ofParty i tree')) ∧
        tree'.shape = tree.shape ∧
        ∃ inner leaf,
          tree.descend (nextChild fun a => exampleTable.value a 2) = some (inner, leaf) ∧
          ∃ c < exampleClasses.length, leaf.y = getConstantShare (FixedPoint.ofInt (c : ℕ)) ∧
            Supply.Returns (predict t (rowData exampleTable.S 2) tree)
              (fun r => recons r = FixedPoint.ofInt c) ∧
            Supply.Returns (predict t (rowData exampleTable.S 2) tree')
              fun r => recons r = FixedPoint.ofInt c := by
  let _ := threeParties
  let _ := Multiprecision.plain
  intro t
  have hrun : (createTree t (fun x y => pure (x / recons y)) exampleTable.S exampleClasses
      exampleTable.T exampleTable.R 0).map (fun p => p.1.children.length) = some 2 := by
    decide +kernel
  obtain ⟨⟨tree, k'⟩, htree, hlen⟩ := Option.map_eq_some_iff.mp hrun
  obtain ⟨tree', hread, hshape, -, hpredict⟩ := predict_and_json htree
  exact ⟨tree, k', htree, hlen, tree', hread, hshape,
    hpredict t (rowData exampleTable.S 2) _ (oneHotInput_rowData exampleTable 2)⟩

end SID3

end QuickMpc.Gbdt
