import Mathlib.Algebra.Ring.Nat
import Mathlib.Data.List.Basic

/-!
# QuickMpc.Gbdt.AttrLayout

How the one-hot columns of a table become the attribute bits of training and of
prediction. A column is named `base#value`, and a group of columns begins where the
value begins with `0`. `SID3Job` lays the cells out by attribute, value and row,
`SID3Model` by row, attribute and value.

`layouts_agree` is the connection: both find the same groups, and both have the cell of
a row in a column of a group at the same attribute and value.
-/

namespace QuickMpc.Gbdt

variable {α β : Type}

namespace AttrLayout

/-! ### The groups of a schema -/

/-- Whether `0` is the character behind the last `#` of a name, which is scanned from its
back. Behind a `#` at the end there is none, the code reads one past the name there. -/
def zeroBehindHash (behind : Option Char) : List Char → Option Bool
  | [] => some false
  | c :: cs => if c = '#' then behind.map (· == '0') else zeroBehindHash (some c) cs

/-- One name in `getAttrSizeList`; the list and the size of the open group. The character
is not looked at in an empty group. -/
def addColumn (s : List ℕ × ℕ) (name : String) : Option (List ℕ × ℕ) := do
  let first ← if 0 < s.2 then zeroBehindHash none name.toList.reverse else some false
  return if first then (s.1 ++ [s.2], 1) else (s.1, s.2 + 1)

/-- `getAttrSizeList`, which both sides have a copy of. -/
def getAttrSizeList (schemas : List String) : Option (List ℕ) :=
  (schemas.foldlM addColumn ([], 0)).map fun s => s.1 ++ [s.2]

end AttrLayout

/-! ### The two sides -/

namespace SID3Job

/-- `getAttrSizeList`. -/
def getAttrSizeList : List String → Option (List ℕ) := AttrLayout.getAttrSizeList

/-- The groups of columns from `start` on, each by column and row. -/
def getBitvectorFrom (table : List (List α)) : ℕ → List ℕ → Option (List (List (List α)))
  | _, [] => some []
  | start, size :: sizes => do
    let group ← (List.range' start size).mapM fun i => table.mapM fun row => row[i]?
    let S ← getBitvectorFrom table (start + size) sizes
    return group :: S

/-- `getBitvector`. -/
def getBitvector (table : List (List α)) (attrSizeList : List ℕ) :
    Option (List (List (List α))) :=
  getBitvectorFrom table 0 attrSizeList

end SID3Job

namespace SID3Model

/-- `getAttrSizeList`. -/
def getAttrSizeList : List String → Option (List ℕ) := AttrLayout.getAttrSizeList

/-- The cells of a row from `start` on, by group. -/
def rowGroupsFrom (row : List α) : ℕ → List ℕ → Option (List (List α))
  | _, [] => some []
  | start, size :: sizes => do
    let tmp ← (List.range' start size).mapM fun i => row[i]?
    let tmp_row ← rowGroupsFrom row (start + size) sizes
    return tmp :: tmp_row

/-- `getBitvector`. -/
def getBitvector (table : List (List α)) (attr_size_list : List ℕ) :
    Option (List (List (List α))) :=
  table.mapM fun row => rowGroupsFrom row 0 attr_size_list

end SID3Model

namespace AttrLayout

/-! ### Schemas of one-hot groups -/

/-- An attribute before its one-hot encoding. -/
structure Group where
  base : String
  size : ℕ
  size_pos : 0 < size

/-- The name of a column. -/
def columnName (base : String) (v : ℕ) : String := base ++ "#" ++ toString v

/-- The columns of an attribute. -/
def Group.columns (g : Group) : List String := (List.range g.size).map (columnName g.base)

/-- The columns of all attributes. -/
def columns (gs : List Group) : List String := gs.flatMap Group.columns

/-- The sizes of the attributes. Without an attribute there is a group nevertheless, it has
no columns. -/
def sizes : List Group → List ℕ
  | [] => [0]
  | g :: gs => (g :: gs).map Group.size

/-- Where the column of a value of an attribute is. -/
def position (gs : List Group) (a v : ℕ) : ℕ := ((gs.take a).map Group.size).sum + v

/-- An entry of a layout. -/
def entry (xs : List (List (List α))) (i j k : ℕ) : Option α := do
  (← (← xs[i]?)[j]?)[k]?

/-! ### Where a group begins -/

theorem zeroBehindHash_append {digits : List Char} (hdigits : '#' ∉ digits)
    (behind : Option Char) (base : List Char) :
    zeroBehindHash behind (digits ++ '#' :: base)
      = (digits.getLast?.or behind).map (· == '0') := by
  induction digits generalizing behind with
  | nil => simp [zeroBehindHash]
  | cons d digits ih =>
      have hd : d ≠ '#' := (List.ne_of_not_mem_cons hdigits).symm
      rw [List.cons_append, zeroBehindHash, if_neg hd, ih (List.not_mem_of_not_mem_cons hdigits)]
      cases digits with
      | nil => rfl
      | cons => rw [List.getLast?_cons_cons, List.getLast?_cons, Option.some_or, Option.some_or]

/-- A decimal begins with `0` when it is `0`. -/
theorem head?_toDigits_eq_zero (v : ℕ) : (Nat.toDigits 10 v).head? = some '0' ↔ v = 0 := by
  induction v using Nat.strongRecOn with
  | ind v ih =>
    rcases Nat.lt_or_ge v 10 with hv | hv
    · simp [Nat.toDigits_of_lt_base hv]
    · have hquot : v / 10 ≠ 0 := by omega
      rw [Nat.toDigits_of_base_le (by decide) hv,
        List.head?_append_of_ne_nil _ Nat.toDigits_ne_nil, ih (v / 10) (by omega)]
      omega

theorem zeroBehindHash_columnName (base : String) (v : ℕ) :
    zeroBehindHash none (columnName base v).toList.reverse = some (decide (v = 0)) := by
  have hdigits : '#' ∉ (Nat.toDigits 10 v).reverse := by
    intro hmem
    have := Nat.isDigit_of_mem_toDigits (by decide) (by decide) (List.mem_reverse.mp hmem)
    exact absurd this (by decide)
  have hlist : (columnName base v).toList.reverse
      = (Nat.toDigits 10 v).reverse ++ '#' :: base.toList.reverse := by
    simp [columnName, Nat.toString_eq_repr, Nat.toList_repr]
  rw [hlist, zeroBehindHash_append hdigits, List.getLast?_reverse, Option.or_none]
  obtain ⟨c, hc⟩ := Option.ne_none_iff_exists'.mp
    (mt List.head?_eq_none_iff.mp (@Nat.toDigits_ne_nil v 10))
  have hzero := head?_toDigits_eq_zero v
  rw [hc, Option.some.injEq] at hzero
  rw [hc, Option.map_some, Option.some.injEq, Bool.eq_iff_iff, beq_iff_eq, hzero,
    decide_eq_true_iff]

/-! ### The sizes that are found -/

/-- The first column of a group closes the group before it. -/
theorem addColumn_zero {size : ℕ} (hsize : 0 < size) (l : List ℕ) (base : String) :
    addColumn (l, size) (columnName base 0) = some (l ++ [size], 1) := by
  rw [addColumn, if_pos hsize, zeroBehindHash_columnName]
  rfl

theorem addColumn_succ {size v : ℕ} (l : List ℕ) (base : String) (hv : v ≠ 0) :
    addColumn (l, size) (columnName base v) = some (l, size + 1) := by
  rw [addColumn, zeroBehindHash_columnName, decide_eq_false hv, ite_self]
  rfl

/-- The columns of a group after its first. -/
theorem foldlM_addColumn_succ (l : List ℕ) (base : String) (size start count : ℕ)
    (hstart : start ≠ 0) :
    ((List.range' start count).map (columnName base)).foldlM addColumn (l, size)
      = some (l, size + count) := by
  induction count generalizing size start with
  | zero => rfl
  | succ count ih =>
      rw [List.range'_succ, List.map_cons, List.foldlM_cons, addColumn_succ l base hstart]
      rw [Option.bind_eq_bind, Option.bind_some, ih _ _ (Nat.succ_ne_zero start)]
      rw [Nat.add_assoc, Nat.add_comm 1]

/-- A group is open with all its columns when its first column opened it. -/
theorem foldlM_addColumn_group {s : List ℕ × ℕ} {l : List ℕ} {g : Group}
    (hfirst : addColumn s (columnName g.base 0) = some (l, 1)) :
    g.columns.foldlM addColumn s = some (l, g.size) := by
  have hcount : g.size = g.size - 1 + 1 := (Nat.sub_add_cancel g.size_pos).symm
  rw [Group.columns, List.range_eq_range', hcount, List.range'_succ, List.map_cons,
    List.foldlM_cons, hfirst, Option.bind_eq_bind, Option.bind_some]
  rw [foldlM_addColumn_succ _ _ _ _ _ (by decide), Nat.add_comm 1]

/-- The groups after an open one. -/
theorem foldlM_addColumn_columns (gs : List Group) (l : List ℕ) {size : ℕ} (hsize : 0 < size) :
    ((columns gs).foldlM addColumn (l, size)).map (fun s => s.1 ++ [s.2])
      = some (l ++ size :: gs.map Group.size) := by
  induction gs generalizing l size with
  | nil => rfl
  | cons g gs ih =>
      rw [columns, List.flatMap_cons, List.foldlM_append,
        foldlM_addColumn_group (addColumn_zero hsize l g.base)]
      rw [Option.bind_eq_bind, Option.bind_some]
      exact (ih (l ++ [size]) g.size_pos).trans (by simp)

/-- The sizes of the groups are found, whatever the attributes are called. -/
theorem getAttrSizeList_columns (gs : List Group) :
    getAttrSizeList (columns gs) = some (sizes gs) := by
  cases gs with
  | nil => rfl
  | cons g gs =>
      -- no group is open before the first column
      have hfirst : addColumn ([], 0) (columnName g.base 0) = some ([], 1) := rfl
      rw [getAttrSizeList, columns, List.flatMap_cons, List.foldlM_append,
        foldlM_addColumn_group hfirst, Option.bind_eq_bind, Option.bind_some]
      exact foldlM_addColumn_columns gs [] g.size_pos

/-! ### The cells of the layouts -/

/-- `mapM` where no call fails. -/
theorem exists_mapM_eq_some {f : α → Option β} {xs : List α} (h : ∀ x ∈ xs, (f x).isSome) :
    ∃ ys, xs.mapM f = some ys ∧ ∀ i : ℕ, ys[i]? = xs[i]?.bind f := by
  induction xs with
  | nil => exact ⟨[], rfl, fun i => rfl⟩
  | cons x xs ih =>
      obtain ⟨y, hy⟩ := Option.isSome_iff_exists.mp (h x List.mem_cons_self)
      obtain ⟨ys, hys, hget⟩ := ih fun x hx => h x (List.mem_cons_of_mem _ hx)
      refine ⟨y :: ys, by rw [List.mapM_cons, hy, hys]; rfl, fun i => ?_⟩
      cases i with
      | zero => exact hy.symm
      | succ i => exact hget i

/-- A place of a group is one of all places. -/
theorem sum_take_add_lt {sizes : List ℕ} {a v : ℕ} (hv : v < sizes[a]?.getD 0) :
    (sizes.take a).sum + v < sizes.sum := by
  induction sizes generalizing a with
  | nil => simp at hv
  | cons size sizes ih =>
      rw [List.sum_cons]
      cases a with
      | zero =>
          have hv' : v < size := by simpa using hv
          rw [List.take_zero, List.sum_nil]
          omega
      | succ a =>
          have hlt := ih (a := a) (by simpa using hv)
          rw [List.take_succ_cons, List.sum_cons]
          omega

/-- A recursion that cuts indices into groups, from `start` on, finds at each place of a group
what stands at that index. -/
theorem exists_groupsFrom {get : ℕ → Option β} {g : ℕ → List ℕ → Option (List (List β))}
    (hnil : ∀ start, g start [] = some [])
    (hcons : ∀ start size sizes, g start (size :: sizes) = do
      let group ← (List.range' start size).mapM get
      let rest ← g (start + size) sizes
      return group :: rest)
    (start : ℕ) (sizes : List ℕ) (hget : ∀ i < start + sizes.sum, (get i).isSome) :
    ∃ found, g start sizes = some found ∧ ∀ a v, v < sizes[a]?.getD 0 →
      (found[a]?.bind fun group => group[v]?) = get (start + (sizes.take a).sum + v) := by
  induction sizes generalizing start with
  | nil => exact ⟨[], hnil start, fun a v hv => by simp at hv⟩
  | cons size sizes ih =>
      rw [List.sum_cons] at hget
      have hcell : ∀ i ∈ List.range' start size, (get i).isSome := by
        intro i hi
        have hlt := (List.mem_range'_1.mp hi).2
        exact hget i (by omega)
      obtain ⟨group, hgroup, hplace⟩ := exists_mapM_eq_some hcell
      obtain ⟨rest, hrest, hentry⟩ := ih (start + size) fun i hi => hget i (by omega)
      refine ⟨group :: rest, by rw [hcons, hgroup, hrest]; rfl, fun a v hv => ?_⟩
      cases a with
      | zero =>
          have hv' : v < size := by simpa using hv
          simp [hplace, List.getElem?_range' hv']
      | succ a =>
          have hnext := hentry a v (by simpa using hv)
          simpa [Nat.add_assoc] using hnext

end AttrLayout

namespace SID3Job

open AttrLayout

/-- The cells of the training layout, in a table that is wide enough. -/
theorem exists_getBitvectorFrom (table : List (List α)) (start : ℕ) (sizes : List ℕ)
    (hwidth : ∀ row ∈ table, start + sizes.sum ≤ row.length) :
    ∃ S, getBitvectorFrom table start sizes = some S ∧ ∀ a v i, v < sizes[a]?.getD 0 →
      entry S a v i = table[i]?.bind fun row => row[start + (sizes.take a).sum + v]? := by
  have hcolumn : ∀ i < start + sizes.sum, ∃ column, (table.mapM fun row => row[i]?) = some column ∧
      ∀ k : ℕ, column[k]? = table[k]?.bind fun row => row[i]? := by
    intro i hi
    refine exists_mapM_eq_some fun row hrow => ?_
    have hrow := hwidth row hrow
    rw [List.getElem?_eq_getElem (by omega), Option.isSome_some]
  obtain ⟨S, hS, hentry⟩ := exists_groupsFrom (g := getBitvectorFrom table) (fun _ => rfl)
    (fun _ _ _ => rfl) start sizes fun i hi => by
      obtain ⟨column, hcol, -⟩ := hcolumn i hi
      rw [hcol, Option.isSome_some]
  refine ⟨S, hS, fun a v i hv => ?_⟩
  have hcell := hentry a v hv
  have hlt := sum_take_add_lt hv
  obtain ⟨column, hcol, hrows⟩ := hcolumn (start + (sizes.take a).sum + v) (by omega)
  have hjoin : entry S a v i = (S[a]?.bind fun group => group[v]?).bind fun column => column[i]? :=
    (Option.bind_assoc _ _ _).symm
  rw [hjoin, hcell, hcol, Option.bind_some, hrows]

end SID3Job

namespace SID3Model

open AttrLayout

/-- The cells of a row of the prediction layout, when the row is wide enough. -/
theorem exists_rowGroupsFrom (row : List α) (start : ℕ) (sizes : List ℕ)
    (hwidth : start + sizes.sum ≤ row.length) :
    ∃ groups, rowGroupsFrom row start sizes = some groups ∧ ∀ a v, v < sizes[a]?.getD 0 →
      (groups[a]?.bind fun group => group[v]?) = row[start + (sizes.take a).sum + v]? := by
  refine exists_groupsFrom (fun _ => rfl) (fun _ _ _ => rfl) start sizes fun i hi => ?_
  rw [List.getElem?_eq_getElem (by omega), Option.isSome_some]

/-- The cells of the prediction layout, in a table that is wide enough. -/
theorem exists_getBitvector (table : List (List α)) (sizes : List ℕ)
    (hwidth : ∀ row ∈ table, sizes.sum ≤ row.length) :
    ∃ data, getBitvector table sizes = some data ∧ ∀ i a v, v < sizes[a]?.getD 0 →
      entry data i a v = table[i]?.bind fun row => row[(sizes.take a).sum + v]? := by
  have hrow : ∀ row ∈ table, (rowGroupsFrom row 0 sizes).isSome := by
    intro row hrow
    obtain ⟨groups, hgroups, -⟩ := exists_rowGroupsFrom row 0 sizes (by simpa using hwidth row hrow)
    rw [hgroups, Option.isSome_some]
  obtain ⟨data, hdata, hget⟩ := exists_mapM_eq_some hrow
  refine ⟨data, hdata, fun i a v hv => ?_⟩
  cases hi : table[i]? with
  | none => simp [entry, hget, hi]
  | some row =>
      obtain ⟨groups, hgroups, hentry⟩ := exists_rowGroupsFrom row 0 sizes
        (by simpa using hwidth row (List.mem_of_getElem? hi))
      have hcell := hentry a v hv
      rw [Nat.zero_add] at hcell
      simpa [entry, hget, hi, hgroups] using hcell

end SID3Model

namespace AttrLayout

/-! ### The layouts of a schema -/

theorem sizes_of_getElem? {gs : List Group} {a : ℕ} {g : Group} (hg : gs[a]? = some g) :
    sizes gs = gs.map Group.size := by
  cases gs with
  | nil => simp at hg
  | cons => rfl

theorem sum_sizes (gs : List Group) : (sizes gs).sum = (columns gs).length := by
  cases gs with
  | nil => rfl
  | cons g gs => simp [sizes, columns, Group.columns, List.length_flatMap]

/-- The name of the column at a position. -/
theorem columns_position {gs : List Group} {a v : ℕ} {g : Group} (hg : gs[a]? = some g)
    (hv : v < g.size) : (columns gs)[position gs a v]? = some (columnName g.base v) := by
  induction gs generalizing a with
  | nil => simp at hg
  | cons g' gs ih =>
      have hlength : g'.columns.length = g'.size := by simp [Group.columns]
      cases a with
      | zero =>
          obtain rfl : g' = g := by simpa using hg
          have hlt : v < g'.columns.length := hlength ▸ hv
          rw [columns, List.flatMap_cons, position, List.take_zero, List.map_nil, List.sum_nil,
            Nat.zero_add, List.getElem?_append_left hlt, Group.columns, List.getElem?_map,
            List.getElem?_range hv, Option.map_some]
      | succ a =>
          have hnext := ih (by simpa using hg)
          have hposition : position (g' :: gs) (a + 1) v = g'.columns.length + position gs a v := by
            simp [position, hlength, Nat.add_assoc]
          rw [columns, List.flatMap_cons, hposition, List.getElem?_append_right (by omega),
            Nat.add_sub_cancel_left]
          exact hnext

/-- No group is open after a schema without columns, and it is closed nevertheless. -/
theorem getAttrSizeList_nil : ¬ ∀ gs : List Group,
    SID3Job.getAttrSizeList (columns gs) = some (gs.map Group.size) := by
  intro h
  exact absurd (h []) (by decide)

/-- **Training and prediction agree on the columns.** For any list of attributes both sides find
the same sizes by the names of the columns, and both take for the `v`-th value of the `a`-th
attribute the cells of the column with its name. -/
theorem layouts_agree (gs : List Group) (table : List (List α))
    (hwidth : ∀ row ∈ table, row.length = (columns gs).length) :
    SID3Job.getAttrSizeList (columns gs) = some (sizes gs) ∧
    SID3Model.getAttrSizeList (columns gs) = some (sizes gs) ∧
    ∃ S data, SID3Job.getBitvector table (sizes gs) = some S ∧
      SID3Model.getBitvector table (sizes gs) = some data ∧
      ∀ a g, gs[a]? = some g → ∀ v < g.size, ∀ i row, table[i]? = some row →
        (columns gs)[position gs a v]? = some (columnName g.base v) ∧
        ∃ cell, row[position gs a v]? = some cell ∧
          entry S a v i = some cell ∧ entry data i a v = some cell := by
  have hle : ∀ row ∈ table, (sizes gs).sum ≤ row.length := by
    intro row hrow
    exact Nat.le_of_eq (by rw [sum_sizes, hwidth row hrow])
  obtain ⟨S, hS, hentry⟩ := SID3Job.exists_getBitvectorFrom table 0 (sizes gs) (by simpa using hle)
  obtain ⟨data, hdata, hentry'⟩ := SID3Model.exists_getBitvector table (sizes gs) hle
  refine ⟨getAttrSizeList_columns gs, getAttrSizeList_columns gs, S, data, hS, hdata, ?_⟩
  intro a g hg v hv i row hrow
  have hname := columns_position hg hv
  have hlt : position gs a v < row.length := by
    rw [hwidth row (List.mem_of_getElem? hrow)]
    exact (List.getElem?_eq_some_iff.mp hname).1
  have hcell := List.getElem?_eq_getElem hlt
  simp only [sizes_of_getElem? hg, List.getElem?_map, ← List.map_take, Nat.zero_add]
    at hentry hentry'
  have hv' : v < (gs[a]?.map Group.size).getD 0 := by rwa [hg]
  refine ⟨hname, _, hcell, ?_, ?_⟩
  · rw [hentry a v i hv', hrow]
    exact hcell
  · rw [hentry' i a v hv', hrow]
    exact hcell

/-- Two attributes, one of them with a `#` in its name. -/
theorem layouts_agree_sample :
    (∀ row ∈ [[5, 6, 7]],
        row.length = (columns [⟨"a#0", 2, by decide⟩, ⟨"b", 1, by decide⟩]).length) ∧
      ∃ S data, SID3Job.getBitvector [[5, 6, 7]] [2, 1] = some S ∧
        SID3Model.getBitvector [[5, 6, 7]] [2, 1] = some data ∧
        entry S 0 1 0 = some 6 ∧ entry data 0 0 1 = some 6 := by
  have hwidth : ∀ row ∈ [[5, 6, 7]],
      row.length = (columns [⟨"a#0", 2, by decide⟩, ⟨"b", 1, by decide⟩]).length := by
    decide
  obtain ⟨-, -, S, data, hS, hdata, hcells⟩ := layouts_agree _ _ hwidth
  obtain ⟨-, cell, hcell, htrain, hpredict⟩ := hcells 0 _ rfl 1 (by decide) 0 _ rfl
  obtain rfl : cell = 6 := by simpa [position] using hcell.symm
  exact ⟨hwidth, S, data, hS, hdata, htrain, hpredict⟩

end AttrLayout

end QuickMpc.Gbdt
