import QuickMpc.Gbdt.AttrLayout
import QuickMpc.Gbdt.GiniTree
import QuickMpc.Model.DecisionTree

/-!
# QuickMpc.Model.SID3Model

The classification tree from the job to the model: `SID3Job` trains it on the columns of a
request and writes it as json, `SID3Model` reads the json and predicts the rows of another
request.

Both find out from the names of the columns which of them belong to one attribute. On
columns that are one-hot what the job makes of a table is a training set with the values of
its rows, and what the model makes of a row is an input with the values of the row; so the
model predicts, for every row of any table, the majority class of the training rows that go
the same way.
-/

namespace QuickMpc.Gbdt

open Share (recons)
open AttrLayout
open Job (IsTable Inside)
open Model (parse_table cells)
open ValueTable (Access access)

variable {n : ℕ}

/-! ### The code -/

/-- `schemas[j - 1]`. -/
def nameAt (schemas : List String) (j : ℤ) : Access String :=
  if 1 ≤ j then access schemas (j - 1).toNat else .error .outOfRange

/-- What was found without an access out of range. -/
def found {α : Type} : Option α → Access α
  | some a => .ok a
  | none => .error .outOfRange

theorem found_eq {α : Type} {o : Option α} {a : α} (h : o = some a) : found o = .ok a := by
  rw [h, found]

/-- A column over the rows of the table. -/
def overRows (N : ℕ) (column : List (Share n)) (i : Fin N) : Share n := column.getD i.val 0

section Code

variable [Config n] (t : ℕ → BtsTriple n) (r sent : ℕ → QuickMpc.Share.Draws n)

/-- `compute`. Every party returns its own json. -/
def SID3Job.compute [Multiprecision] (table : List (List (Share n))) (schemas : List String)
    (arg : List (List ℤ)) : Access (Supply (Fin n → Json)) := do
  let arg0 ← access arg 0
  let arg1 ← access arg 1
  let x ← parse_table table arg0
  let y ← parse_table table arg1
  let schemaX ← arg0.mapM (nameAt schemas)
  let schemaY ← arg1.mapM (nameAt schemas)
  let attrXSizeList ← found (SID3Job.getAttrSizeList schemaX)
  let attrYSizeList ← found (SID3Job.getAttrSizeList schemaY)
  let T : Fin table.length → Share n := fun _ => getConstantShare (FixedPoint.ofInt 1)
  let S ← found (SID3Job.getBitvector x attrXSizeList)
  let targets ← found (SID3Job.getBitvector y attrYSizeList)
  let target ← access targets 0
  let R := List.range attrXSizeList.length
  return do
    let tree ← SID3.createTree t (div t r sent)
      (S.map fun values => values.map (overRows table.length))
      (target.map (overRows table.length)) T R
    return fun i => SID3.createTreeJson (SID3.ofParty i tree)

/-- `predict`, with the tree that the constructor of `SID3` reads from the json. -/
def SID3Model.predict (sid3_tree : SID3 n) (table : List (List (Share n))) (schemas : List String)
    (arg : List ℤ) : Access (Supply (List (Share n))) := do
  let x ← parse_table table arg
  let parsed_schema ← arg.mapM (nameAt schemas)
  let attr_size_list ← found (SID3Model.getAttrSizeList parsed_schema)
  let data ← found (SID3Model.getBitvector x attr_size_list)
  return data.mapM fun d => SID3.predict t d sid3_tree

end Code

/-! ### One-hot columns -/

/-- A row of one-hot columns: the bit of every value of every attribute. -/
structure OneHotRow (gs : List Group) (x : List (Share n)) (value : ℕ → ℕ) : Prop where
  lt : ∀ a g, gs[a]? = some g → value a < g.size
  isBit : ∀ a g, gs[a]? = some g → ∀ v < g.size, ∀ b, x[position gs a v]? = some b →
    IsBit (v = value a) b

/-- The columns `arg` are the one-hot columns of the attributes `gs`; the row `i` has the value
`value a i` of the attribute `a`. -/
structure Encoded (gs : List Group) (table : List (List (Share n))) (schemas : List String)
    (arg : List ℤ) (value : ℕ → Fin table.length → ℕ) : Prop where
  inside : Inside schemas.length arg
  names : (arg.map fun j => schemas.getD (j - 1).toNat "") = columns gs
  one_hot : ∀ i, OneHotRow gs (cells (table.get i) arg) fun a => value a i

theorem sizes_eq {gs : List Group} (h : gs ≠ []) : sizes gs = gs.map Group.size := by
  obtain ⟨g, gs', rfl⟩ := List.exists_cons_of_ne_nil h
  rfl

theorem sizes_getElem? {gs : List Group} {a : ℕ} {g : Group} (hg : gs[a]? = some g) :
    (sizes gs)[a]? = some g.size := by
  rw [sizes_of_getElem? hg, List.getElem?_map, hg, Option.map_some]

/-- Groups of the sizes of the attributes, with the cells of a one-hot row. -/
theorem OneHotRow.oneHot {gs : List Group} {x : List (Share n)} {value : ℕ → ℕ}
    (h : OneHotRow gs x value) {groups : List (List (Share n))}
    (hsizes : groups.map List.length = sizes gs)
    (hcells : ∀ a v, v < (sizes gs)[a]?.getD 0 →
      (groups[a]?.bind fun group => group[v]?) = x[((sizes gs).take a).sum + v]?)
    {a : ℕ} {g : Group} (hg : gs[a]? = some g) :
    ∃ bits, groups[a]? = some bits ∧ bits.length = g.size ∧ OneHot bits (value a) := by
  have hsize := sizes_getElem? hg
  rw [← hsizes, List.getElem?_map] at hsize
  obtain ⟨bits, hbits, hwidth⟩ := Option.map_eq_some_iff.mp hsize
  refine ⟨bits, hbits, hwidth, hwidth ▸ h.lt a g hg, fun v b hb => ?_⟩
  have hv : v < g.size := hwidth ▸ (List.getElem?_eq_some_iff.mp hb).1
  have hcell := hcells a v (by rw [sizes_getElem? hg]; exact hv)
  rw [hbits, Option.bind_some, hb, sizes_of_getElem? hg, ← List.map_take] at hcell
  exact h.isBit a g hg v hv b hcell.symm

theorem length_of_mapM_eq_some {α β : Type} {f : α → Option β} {xs : List α} {ys : List β}
    (h : xs.mapM f = some ys) : ys.length = xs.length := by
  induction xs generalizing ys with
  | nil =>
      obtain rfl : [] = ys := Option.some.inj h
      rfl
  | cons x xs ih =>
      rw [List.mapM_cons] at h
      obtain ⟨y, -, h⟩ := Option.bind_eq_some_iff.mp h
      obtain ⟨ys', hys, h⟩ := Option.bind_eq_some_iff.mp h
      obtain rfl : y :: ys' = ys := Option.some.inj h
      rw [List.length_cons, List.length_cons, ih hys]

/-- The groups that are found have the sizes that they are cut to. -/
theorem map_length_groupsFrom {β : Type} {get : ℕ → Option β}
    {g : ℕ → List ℕ → Option (List (List β))} (hnil : ∀ start, g start [] = some [])
    (hcons : ∀ start size sizes, g start (size :: sizes) = do
      let group ← (List.range' start size).mapM get
      let rest ← g (start + size) sizes
      return group :: rest)
    {start : ℕ} {sizes : List ℕ} {groups : List (List β)} (h : g start sizes = some groups) :
    groups.map List.length = sizes := by
  induction sizes generalizing start groups with
  | nil =>
      rw [hnil] at h
      obtain rfl := Option.some.inj h
      rfl
  | cons size sizes ih =>
      rw [hcons] at h
      obtain ⟨group, hgroup, h⟩ := Option.bind_eq_some_iff.mp h
      obtain ⟨rest, hrest, h⟩ := Option.bind_eq_some_iff.mp h
      obtain rfl : group :: rest = groups := Option.some.inj h
      rw [List.map_cons, ih hrest, length_of_mapM_eq_some hgroup, List.length_range']

section Layouts

variable {gs : List Group} {table : List (List (Share n))} {schemas : List String} {arg : List ℤ}
  {value : ℕ → Fin table.length → ℕ}

theorem Encoded.length_cells (h : Encoded gs table schemas arg value) (row : List (Share n)) :
    (cells row arg).length = (sizes gs).sum := by
  rw [sum_sizes, ← h.names, List.length_map, cells, List.length_map]

theorem Encoded.mapM_nameAt (h : Encoded gs table schemas arg value) :
    arg.mapM (nameAt schemas) = .ok (columns gs) := by
  rw [← h.names]
  refine ValueTable.mapM_eq_ok fun j hj => ?_
  have hin := h.inside j hj
  rw [nameAt, if_pos hin.1, ValueTable.access_of_lt (by omega) ""]

/-- The training layout of one-hot columns. -/
theorem Encoded.exists_training (h : Encoded gs table schemas arg value) :
    ∃ S, SID3Job.getBitvector (table.map fun row => cells row arg) (sizes gs) = some S ∧
      S.map List.length = sizes gs ∧
      ∀ a g values, gs[a]? = some g → S[a]? = some values → ∀ i,
        OneHot ((values.map (overRows table.length)).map fun bits => bits i) (value a i) := by
  obtain ⟨S, hS, hentry⟩ := SID3Job.exists_getBitvectorFrom
    (table.map fun row => cells row arg) 0 (sizes gs) fun x hx => by
      obtain ⟨row, -, rfl⟩ := List.mem_map.mp hx
      rw [h.length_cells, Nat.zero_add]
  have hsizes := map_length_groupsFrom
    (g := SID3Job.getBitvectorFrom (table.map fun row => cells row arg)) (fun _ => rfl)
    (fun _ _ _ => rfl) hS
  refine ⟨S, hS, hsizes, fun a g values hg hvalues i => ?_⟩
  -- the bits of one row, by attribute
  · let groups := S.map fun values => (values.map (overRows table.length)).map fun bits => bits i
    have hlengths : groups.map List.length = sizes gs := by
      rw [← hsizes, List.map_map]
      exact List.map_congr_left fun values _ => by simp
    have hcells : ∀ a v, v < (sizes gs)[a]?.getD 0 →
        (groups[a]?.bind fun group => group[v]?)
          = (cells (table.get i) arg)[((sizes gs).take a).sum + v]? := by
      intro a v hv
      have hlt : ((sizes gs).take a).sum + v < (cells (table.get i) arg).length := by
        rw [h.length_cells]
        exact sum_take_add_lt hv
      have hrow : table[i.val]? = some (table.get i) := List.getElem?_eq_getElem i.isLt
      have hcell := hentry a v i.val hv
      rw [List.getElem?_map, hrow, Option.map_some, Option.bind_some, Nat.zero_add,
        List.getElem?_eq_getElem hlt] at hcell
      rw [List.getElem?_eq_getElem hlt]
      obtain ⟨values, hvalues, hcell⟩ := Option.bind_eq_some_iff.mp hcell
      obtain ⟨column, hcolumn, hcell⟩ := Option.bind_eq_some_iff.mp hcell
      simp [groups, hvalues, hcolumn, overRows, hcell]
    obtain ⟨bits, hbits, -, hhot⟩ := (h.one_hot i).oneHot hlengths hcells hg
    rw [List.getElem?_map, hvalues, Option.map_some] at hbits
    obtain rfl := Option.some.inj hbits
    exact hhot

/-- The prediction layout of a row of one-hot columns. -/
theorem OneHotRow.exists_groups {x : List (Share n)} {value : ℕ → ℕ} (h : OneHotRow gs x value)
    (hwidth : x.length = (sizes gs).sum) :
    ∃ groups, SID3Model.rowGroupsFrom x 0 (sizes gs) = some groups ∧
      ∀ a g, gs[a]? = some g →
        ∃ bits, groups[a]? = some bits ∧ bits.length = g.size ∧ OneHot bits (value a) := by
  obtain ⟨groups, hgroups, hcells⟩ := SID3Model.exists_rowGroupsFrom x 0 (sizes gs)
    (by rw [hwidth, Nat.zero_add])
  have hsizes := map_length_groupsFrom (g := SID3Model.rowGroupsFrom x) (fun _ => rfl)
    (fun _ _ _ => rfl) hgroups
  refine ⟨groups, hgroups, fun a g hg => h.oneHot hsizes (fun a v hv => ?_) hg⟩
  rw [hcells a v hv, Nat.zero_add]

/-! ### What the job trains with -/

/-- The training set that the job makes of one-hot columns. -/
theorem Encoded.exists_trainingSet [Config n] (h : Encoded gs table schemas arg value)
    (hgs : gs ≠ []) :
    ∃ (S : List (List (List (Share n)))) (D : TrainingSet n table.length),
      SID3Job.getBitvector (table.map fun row => cells row arg) (sizes gs) = some S ∧
      D.S = S.map (fun values => values.map (overRows table.length)) ∧
      (D.T = fun _ => getConstantShare (FixedPoint.ofInt 1)) ∧
      D.R = List.range gs.length ∧ D.value = value ∧
      D.S.map List.length = gs.map Group.size := by
  obtain ⟨S, hS, hlengths, hhot⟩ := h.exists_training
  rw [sizes_eq hgs] at hlengths
  have hlength : S.length = gs.length := by simpa using congrArg List.length hlengths
  refine ⟨S, ⟨_, fun _ => getConstantShare (FixedPoint.ofInt 1), List.range gs.length, value,
    fun a values hvalues i => ?_, fun _ => isBit_getConstantShare True, List.pairwise_lt_range, ?_⟩,
    hS, rfl, rfl, rfl, rfl, ?_⟩
  · rw [List.getElem?_map] at hvalues
    obtain ⟨columns, hcolumns, rfl⟩ := Option.map_eq_some_iff.mp hvalues
    have hlt : a < gs.length := hlength ▸ (List.getElem?_eq_some_iff.mp hcolumns).1
    exact hhot a _ columns (List.getElem?_eq_getElem hlt) hcolumns i
  · intro a ha
    rw [List.length_map, hlength]
    exact List.mem_range.mp ha
  · rw [← hlengths, List.map_map]
    exact List.map_congr_left fun values _ => List.length_map _

/-- The classes that the job makes of one-hot columns: those of the first attribute. -/
theorem Encoded.exists_classes {g : Group} {gs' : List Group}
    (h : Encoded (g :: gs') table schemas arg value) :
    ∃ (targets : List (List (List (Share n)))) (target : List (List (Share n)))
      (L : SID3.Classes n table.length),
      SID3Job.getBitvector (table.map fun row => cells row arg) (sizes (g :: gs')) = some targets ∧
      access targets 0 = .ok target ∧ L.targets = target.map (overRows table.length) ∧
      L.label = value 0 ∧ L.targets.length = g.size := by
  obtain ⟨targets, htargets, hlengths, hhot⟩ := h.exists_training
  have hsize : (targets.map List.length)[0]? = some g.size := by
    rw [hlengths]
    exact sizes_getElem? rfl
  rw [List.getElem?_map] at hsize
  obtain ⟨target, htarget, hwidth⟩ := Option.map_eq_some_iff.mp hsize
  refine ⟨targets, target, ⟨target.map (overRows table.length), value 0,
    hhot 0 g target rfl htarget, fun hnil => ?_⟩, htargets, ?_, rfl, rfl, ?_⟩
  · rw [List.map_eq_nil_iff.mp hnil] at hwidth
    exact g.size_pos.ne hwidth
  · rw [access, htarget]
  · rw [List.length_map, hwidth]

/-- The input that the model makes of a row of one-hot columns, for attributes of the sizes
that it was trained with. -/
theorem Encoded.exists_inputs {N : ℕ} {D : TrainingSet n N}
    (hwidths : D.S.map List.length = gs.map Group.size)
    (h : Encoded gs table schemas arg value) :
    ∃ data, SID3Model.getBitvector (table.map fun row => cells row arg) (sizes gs) = some data ∧
      data.length = table.length ∧ ∀ (k : Fin table.length) d, data[k.val]? = some d →
        SID3.OneHotInput D.S d fun a => value a k := by
  have hrows : ∀ k : Fin table.length, ∃ groups,
      SID3Model.rowGroupsFrom (cells (table.get k) arg) 0 (sizes gs) = some groups ∧
        ∀ a g, gs[a]? = some g →
          ∃ bits, groups[a]? = some bits ∧ bits.length = g.size ∧ OneHot bits (value a k) :=
    fun k => (h.one_hot k).exists_groups (h.length_cells _)
  have hsome : ∀ x ∈ table.map fun row => cells row arg,
      (SID3Model.rowGroupsFrom x 0 (sizes gs)).isSome := by
    intro x hx
    obtain ⟨row, hrow, rfl⟩ := List.mem_map.mp hx
    obtain ⟨k, rfl⟩ := List.get_of_mem hrow
    obtain ⟨groups, hgroups, -⟩ := hrows k
    rw [hgroups, Option.isSome_some]
  obtain ⟨data, hdata, hget⟩ := exists_mapM_eq_some hsome
  refine ⟨data, hdata, (length_of_mapM_eq_some hdata).trans (List.length_map _), fun k d hd => ?_⟩
  obtain ⟨groups, hgroups, hhot⟩ := hrows k
  have hrow : table[k.val]? = some (table.get k) := List.getElem?_eq_getElem k.isLt
  rw [hget, List.getElem?_map, hrow, Option.map_some, Option.bind_some, hgroups] at hd
  obtain rfl := Option.some.inj hd
  intro a values hvalues
  have hsize : (gs.map Group.size)[a]? = some values.length := by
    rw [← hwidths, List.getElem?_map, hvalues, Option.map_some]
  rw [List.getElem?_map] at hsize
  obtain ⟨g, hg, hwidth⟩ := Option.map_eq_some_iff.mp hsize
  rw [← hwidth]
  exact hhot a g hg

end Layouts

/-! ### From the job to the model -/

section Trained

variable [Config n] (t : ℕ → BtsTriple n) (r sent : ℕ → QuickMpc.Share.Draws n)

/-- What the job computes on one-hot columns. -/
theorem SID3Job.compute_eq [Multiprecision] {table : List (List (Share n))} {schemas : List String}
    (h : IsTable table schemas.length) {src target : List ℤ} {gs : List Group}
    {value : ℕ → Fin table.length → ℕ} (hsrc : Encoded gs table schemas src value) (hgs : gs ≠ [])
    {g : Group} {gs' : List Group} {classes : ℕ → Fin table.length → ℕ}
    (htarget : Encoded (g :: gs') table schemas target classes) (arg : List (List ℤ)) :
    ∃ (D : TrainingSet n table.length) (L : SID3.Classes n table.length),
      D.value = value ∧ D.R = List.range gs.length ∧ D.S.map List.length = gs.map Group.size ∧
      L.label = classes 0 ∧ L.targets.length = g.size ∧
      SID3Job.compute t r sent table schemas (src :: target :: arg) = .ok (do
        let tree ← SID3.createTree t (div t r sent) D.S L.targets D.T D.R
        return fun i => SID3.createTreeJson (SID3.ofParty i tree)) := by
  obtain ⟨S, D, hS, hDS, hDT, hDR, hvalue, hwidths⟩ := hsrc.exists_trainingSet hgs
  obtain ⟨targets, target', L, htargets, hfirst, hL, hlabel, hsize⟩ := htarget.exists_classes
  refine ⟨D, L, hvalue, hDR, hwidths, hlabel, hsize, ?_⟩
  rw [SID3Job.compute]
  refine (Except.bind_ok (show access (src :: target :: arg) 0 = .ok src from rfl) _).trans ?_
  refine (Except.bind_ok (show access (src :: target :: arg) 1 = .ok target from rfl) _).trans ?_
  refine (Except.bind_ok (Model.parse_table_ok h hsrc.inside) _).trans ?_
  refine (Except.bind_ok (Model.parse_table_ok h htarget.inside) _).trans ?_
  refine (Except.bind_ok hsrc.mapM_nameAt _).trans ?_
  refine (Except.bind_ok htarget.mapM_nameAt _).trans ?_
  refine (Except.bind_ok (found_eq (getAttrSizeList_columns gs)) _).trans ?_
  refine (Except.bind_ok (found_eq (getAttrSizeList_columns (g :: gs'))) _).trans ?_
  refine (Except.bind_ok (found_eq hS) _).trans ?_
  refine (Except.bind_ok (found_eq htargets) _).trans ?_
  refine (Except.bind_ok hfirst _).trans ?_
  rw [hDS, hDT, hDR, hL, sizes_eq hgs, List.length_map]
  rfl

/-- What json keeps of a tree is what it predicts with. -/
theorem predict_reread {tree : SID3 n} {P : SID3.Node n → ℕ → Prop} (h : tree.Everywhere P)
    (data : List (List (Share n))) :
    SID3.predict t data (tree.relabel SID3.Node.reread) = SID3.predict t data tree := by
  refine predict_relabel (h.mono fun cur k _ => ⟨rfl, ?_⟩)
  by_cases hk : k = 0
  · exact .inl hk
  · exact .inr (if_neg hk)

/-- What the model returns: for every row the majority class of the training rows that go the
same way. -/
def Majorities {N : ℕ} (D : TrainingSet n N) (L : SID3.Classes n N) (tree : SID3 n) {rows : ℕ}
    (value : ℕ → Fin rows → ℕ) (ret : List (Share n)) : Prop :=
  ret.length = rows ∧ ∀ (k : Fin rows) p, ret[k.val]? = some p →
    ∃ c, L.IsMajority (Cells.cellOf D SID3.Node.att_class (fun a => value a k) tree) c ∧
      recons p = FixedPoint.ofInt c

/-- What the model predicts with a tree that was read from its json. -/
theorem SID3Model.predict_returns {N : ℕ} {D : TrainingSet n N} {L : SID3.Classes n N} {R : List ℕ}
    {tree : SID3 n} (htree : SID3.Greedy D L Finset.univ R tree) {P : SID3.Node n → ℕ → Prop}
    (hwf : tree.Everywhere P) {table : List (List (Share n))} {schemas : List String}
    (h : IsTable table schemas.length) {gs : List Group}
    (hwidths : D.S.map List.length = gs.map Group.size) {arg : List ℤ}
    {value : ℕ → Fin table.length → ℕ} (harg : Encoded gs table schemas arg value) :
    ∃ ret, SID3Model.predict t (tree.relabel SID3.Node.reread) table schemas arg = .ok ret ∧
      Supply.Returns ret (Majorities D L tree value) := by
  obtain ⟨data, hdata, hlength, hinput⟩ := harg.exists_inputs hwidths
  refine ⟨data.mapM fun d => SID3.predict t d (tree.relabel SID3.Node.reread), ?_, ?_⟩
  · rw [SID3Model.predict]
    refine (Except.bind_ok (Model.parse_table_ok h harg.inside) _).trans ?_
    refine (Except.bind_ok harg.mapM_nameAt _).trans ?_
    refine (Except.bind_ok (found_eq (getAttrSizeList_columns gs)) _).trans ?_
    exact Except.bind_ok (found_eq hdata) _
  · refine (Supply.Returns.mapM (P := fun k p => ∀ i : Fin table.length, i.val = k →
      ∃ c, L.IsMajority (Cells.cellOf D SID3.Node.att_class (fun a => value a i) tree) c ∧
        recons p = FixedPoint.ofInt c) fun k d hd => ?_).mono fun ret hret =>
          ⟨hret.1.trans hlength, fun k p hp => hret.2 k p hp k rfl⟩
    have hlt : k < table.length := hlength ▸ (List.getElem?_eq_some_iff.mp hd).1
    rw [predict_reread t hwf]
    refine (htree.predict_returns (hinput ⟨k, hlt⟩ d hd)).mono fun p hp i hi => ?_
    obtain rfl : i = ⟨k, hlt⟩ := Fin.ext hi
    exact hp

/-- **A classification tree predicts what it has learnt.** On one-hot columns the job returns
the json of the greedy tree for the values and the classes of the table. Every party reads its
part of one tree from it, and with that tree the model predicts for every row of any table,
on one-hot columns of attributes of the same sizes, the majority class of the training rows
that go the same way. -/
theorem sid3_trained [Multiprecision] (t' : ℕ → BtsTriple n) {table : List (List (Share n))}
    {schemas : List String} (h : IsTable table schemas.length) {src target : List ℤ}
    {gs : List Group} {value : ℕ → Fin table.length → ℕ} (hsrc : Encoded gs table schemas src value)
    (hgs : gs ≠ []) {g : Group} {gs' : List Group} {classes : ℕ → Fin table.length → ℕ}
    (htarget : Encoded (g :: gs') table schemas target classes) (arg : List (List ℤ)) :
    ∃ ret, SID3Job.compute t r sent table schemas (src :: target :: arg) = .ok ret ∧
      Supply.Returns ret fun json =>
        ∃ (D : TrainingSet n table.length) (L : SID3.Classes n table.length) (tree tree' : SID3 n),
          D.value = value ∧ D.R = List.range gs.length ∧ L.label = classes 0 ∧
          L.targets.length = g.size ∧ SID3.Greedy D L Finset.univ D.R tree ∧
          (∀ i, json i = SID3.createTreeJson (SID3.ofParty i tree)) ∧
          (∀ i, SID3.ofJson (json i) = some (SID3.ofParty i tree')) ∧
          ∀ (table' : List (List (Share n))) (schemas' : List String) (arg' : List ℤ)
            (gs' : List Group) (value' : ℕ → Fin table'.length → ℕ),
            IsTable table' schemas'.length → gs'.map Group.size = gs.map Group.size →
            Encoded gs' table' schemas' arg' value' →
            ∃ ret', SID3Model.predict t' tree' table' schemas' arg' = .ok ret' ∧
              Supply.Returns ret' (Majorities D L tree value') := by
  obtain ⟨D, L, hvalue, hR, hwidths, hlabel, hsize, hcompute⟩ :=
    SID3Job.compute_eq t r sent h hsrc hgs htarget arg
  refine ⟨_, hcompute, ?_⟩
  refine ((SID3.createTree_greedy r sent D L t).and_ensures
    (SID3.createTree_ensures D.T D.R)).bind fun tree htree => .pure ?_
  obtain ⟨hgreedy, hwf⟩ := htree
  refine ⟨D, L, tree, tree.relabel SID3.Node.reread, hvalue, hR, hlabel, hsize, hgreedy,
    fun _ => rfl, SID3.ofJson_ofParty hwf, ?_⟩
  intro table' schemas' arg' gs' value' h' hsizes harg
  exact SID3Model.predict_returns t' hgreedy hwf h' (hwidths.trans hsizes.symm) harg

end Trained

/-- An attribute with two values; it is its own class. -/
def exampleGroup : Group := ⟨"a", 2, Nat.two_pos⟩

def exampleRow (row : List ℤ) : List (Share 3) :=
  row.map fun b => @getConstantShare 3 threeParties (FixedPoint.ofInt b)

/-- The row `0` has the value `0`, the others have the value `1`. -/
def exampleRows : List (List (Share 3)) := [exampleRow [1, 0], exampleRow [0, 1], exampleRow [0, 1]]

/-- Two rows to predict for, with the values `1` and `0`. -/
def exampleRequest : List (List (Share 3)) := [exampleRow [0, 1], exampleRow [1, 0]]

theorem encoded_example {table : List (List (Share 3))} (value : Fin table.length → ℕ)
    (hvalue : ∀ i, value i < 2)
    (hcells : ∀ (i : Fin table.length) (v : Fin 2),
      ((cells (table.get i) [1, 2])[v.val]?).map Share.secret
        = some (if v.val = value i then FixedPoint.shift else 0)) :
    Encoded [exampleGroup] table ["a#0", "a#1"] [1, 2] fun _ i => value i := by
  have honly : ∀ (a : ℕ) g, [exampleGroup][a]? = some g → a = 0 ∧ exampleGroup = g := by
    intro a g hg
    cases a with
    | zero => simpa using hg
    | succ a => simp at hg
  refine ⟨by decide, by decide +kernel, fun i => ⟨fun a g hg => ?_, fun a g hg v hv b hb => ?_⟩⟩
  · obtain ⟨-, rfl⟩ := honly a g hg
    exact hvalue i
  · obtain ⟨rfl, rfl⟩ := honly a g hg
    have hcell := hcells i ⟨v, hv⟩
    have hposition : position [exampleGroup] 0 v = v := Nat.zero_add v
    rw [hposition] at hb
    rw [hb] at hcell
    exact Option.some.inj hcell

/-- Three rows to learn from, two to predict for. -/
theorem sid3_trained_three :
    letI := threeParties
    letI := Multiprecision.plain
    let ones : ℕ → QuickMpc.Share.Draws 3 := fun _ => QuickMpc.Share.ones
    ∃ ret, SID3Job.compute Job.exampleTriples ones ones exampleRows ["a#0", "a#1"]
        [[1, 2], [1, 2]] = .ok ret ∧
      Supply.Returns ret fun json => ∃ (D : TrainingSet 3 3) (L : SID3.Classes 3 3)
        (tree tree' : SID3 3),
        (L.label = fun i => min i.val 1) ∧ SID3.Greedy D L Finset.univ D.R tree ∧
        (∀ i, SID3.ofJson (json i) = some (SID3.ofParty i tree')) ∧
        ∃ ret', SID3Model.predict Job.exampleTriples tree' exampleRequest ["a#0", "a#1"] [1, 2]
            = .ok ret' ∧
          Supply.Returns ret' (Majorities D L tree fun _ (i : Fin 2) => 1 - i.val) := by
  let _ := threeParties
  let _ := Multiprecision.plain
  have htable : IsTable exampleRows ["a#0", "a#1"].length := ⟨by decide, by decide⟩
  have hrequest : IsTable exampleRequest ["a#0", "a#1"].length := ⟨by decide, by decide⟩
  have hrows : Encoded [exampleGroup] exampleRows ["a#0", "a#1"] [1, 2] _ :=
    encoded_example (fun i => min i.val 1) (by decide) (by decide +kernel)
  obtain ⟨ret, hret, hreturns⟩ := sid3_trained Job.exampleTriples (fun _ => QuickMpc.Share.ones)
    (fun _ => QuickMpc.Share.ones) Job.exampleTriples htable hrows (by decide) hrows []
  refine ⟨ret, hret, hreturns.mono fun json h => ?_⟩
  obtain ⟨D, L, tree, tree', -, -, hlabel, -, hgreedy, -, hread, hpredict⟩ := h
  exact ⟨D, L, tree, tree', hlabel, hgreedy, hread, hpredict _ _ _ _ _ hrequest rfl
    (encoded_example (fun i => 1 - i.val) (by decide) (by decide +kernel))⟩

end QuickMpc.Gbdt
