import Mathlib.Data.String.Basic
import QuickMpc.ValueTable

/-!
# QuickMpc.ValueTable.NamedRows

What the joins on open keys compute, on rows whose cells carry the names of their
columns.

`hjoin` is the inner join: every left row whose key occurs on the right, followed by the
cells of the first right row with that key under the names that are new (`hjoin_named`).
`vjoin` keeps the left rows and appends the right rows with new keys, all projected by
name onto the common columns (`vjoin_named`).

Both match columns by name and rows by key with the same two index lists, so each list is
used at rows of cells and at rows of names here.
-/

namespace QuickMpc.ValueTable

open KeyJoin (innerJoin newRows)
open Share (recons)

variable {n : ℕ}

/-! ### Rows with names -/

/-- The rows of a table, each cell with the name of its column. -/
def named (t : ValueTable n) : List (List (String × Cell n)) := t.table.map t.schemas.zip

/-- The cells under `names`, in this order; of several cells under a name the first one. -/
def project (names : List String) (row : List (String × Cell n)) : List (String × Cell n) :=
  names.filterMap fun name => row.find? fun e => e.1 = name

/-- The key of a row, in units of `10^-8`. -/
def rowKey (parse : String → FixedPoint) (idx : ℕ) (row : List (Cell n)) : ℤ :=
  (recons (⟨fun i => parse (row.getD (idx - 1) (fun _ => "") i)⟩ : Share n FixedPoint)).value

/-- The comparator of the map of names is their order. -/
theorem decides_lessString (names : List String) : KeyJoin.Decides lessString id names :=
  fun _ _ _ _ => rfl

/-! ### Projections -/

theorem exists_find?_eq_some {name : String} {row : List (String × Cell n)}
    (hname : name ∈ row.map Prod.fst) :
    ∃ e ∈ row, row.find? (fun e => e.1 = name) = some e ∧ e.1 = name := by
  cases hfind : row.find? fun e => e.1 = name with
  | none =>
      obtain ⟨e, he, rfl⟩ := List.mem_map.mp hname
      exact absurd (List.find?_eq_none.mp hfind e he) (by simp)
  | some e =>
      have heq := List.find?_some hfind
      exact ⟨e, List.mem_of_find?_eq_some hfind, rfl, of_decide_eq_true heq⟩

/-- A projection has the names that it asks for. -/
theorem project_map_fst {names : List String} {row : List (String × Cell n)}
    (hnames : ∀ name ∈ names, name ∈ row.map Prod.fst) :
    (project names row).map Prod.fst = names := by
  rw [project, List.map_filterMap]
  calc names.filterMap (fun name => (row.find? fun e => e.1 = name).map Prod.fst)
      = names.filterMap some := by
        refine List.filterMap_congr fun name hname => ?_
        obtain ⟨e, -, hfind, heq⟩ := exists_find?_eq_some (hnames name hname)
        rw [hfind, Option.map_some, heq]
    _ = names := List.filterMap_some

/-- On a row without repeated names a projection onto some of them keeps their cells. -/
theorem project_filter {row : List (String × Cell n)} (hnodup : (row.map Prod.fst).Nodup)
    (p : String → Bool) :
    project ((row.map Prod.fst).filter p) row = row.filter fun e => p e.1 := by
  have hself : ∀ e ∈ row, row.find? (fun e' => e'.1 = e.1) = some e := by
    intro e he
    obtain ⟨e', he', hfind, heq⟩ := exists_find?_eq_some (List.mem_map_of_mem he)
    rw [hfind, List.inj_on_of_nodup_map hnodup he' he heq]
  rw [project, List.filter_map, List.filterMap_map, List.filterMap_filter,
    ← List.filterMap_eq_filter]
  refine List.filterMap_congr fun e he => ?_
  simp only [Function.comp_apply, hself e he]
  rfl

section Columns

variable {t join_table : ValueTable n} {row row' : List (Cell n)}

theorem zip_map_fst (hrow : row ∈ t.table) : (t.schemas.zip row).map Prod.fst = t.schemas :=
  List.map_fst_zip (t.rectangular row hrow).ge

/-- A cell of a named row at the index of its name. -/
theorem getD_of_getElem?_zip {i : ℕ} {e : String × Cell n} (h : (t.schemas.zip row)[i]? = some e) :
    t.schemas.getD i "" = e.1 ∧ (row.getD i fun _ => "") = e.2 := by
  obtain ⟨hname, hcell⟩ := List.getElem?_zip_eq_some.mp h
  simp [List.getD_eq_getElem?_getD, hname, hcell]

/-! ### New names -/

/-- The indices of the new names, at the names and at the cells of a row. -/
theorem schemas_join_it_map {γ : Type} (hrow' : row' ∈ join_table.table) (g : ℕ → γ)
    (g' : String × Cell n → γ)
    (hg : ∀ e i, (join_table.schemas.zip row')[i]? = some e → g i = g' e) :
    (t.schemas_join_it join_table).map g
      = ((join_table.schemas.zip row').filter fun e => e.1 ∉ t.schemas).map g' := by
  have hnew := KeyJoin.filter_find_eq_newRows id Prod.fst t.schemas
    (join_table.schemas.zip row') (decides_lessString _) g g' fun e i => hg e i
  rw [zip_map_fst hrow', List.map_id] at hnew
  simp only [schemas_join_it, unionValueIndex, List.map_map, Function.comp_def]
  rw [hnew, newRows]
  simp

theorem schemas_join_it_names (t join_table : ValueTable n) :
    (t.schemas_join_it join_table).map (join_table.schemas.getD · "")
      = join_table.schemas.filter fun name => name ∉ t.schemas := by
  have hnew := KeyJoin.filter_find_eq_newRows id id t.schemas join_table.schemas
    (decides_lessString _) (join_table.schemas.getD · "") id (by simp +contextual)
  simp only [List.map_id, newRows] at hnew
  simp only [schemas_join_it, unionValueIndex, List.map_map, Function.comp_def]
  rw [hnew]
  simp

/-- A joined row, with the names of its columns. -/
theorem zip_joined (hrow : row ∈ t.table) (hrow' : row' ∈ join_table.table) {i j : ℕ}
    (hi : t.table[i]? = some row) (hj : join_table.table[j]? = some row') :
    (t.schemas ++ (t.schemas_join_it join_table).map (join_table.schemas.getD · "")).zip
        ((List.range t.schemas.length).map (t.cell i) ++ t.joinedCells join_table j)
      = t.schemas.zip row
        ++ (join_table.schemas.zip row').filter fun e => e.1 ∉ t.schemas := by
  have hleft : (List.range t.schemas.length).map (t.cell i) = row := by
    have hlength := t.rectangular row hrow
    refine List.ext_getElem (by simp [hlength]) fun k h₁ h₂ => ?_
    simp [cell, List.getD_eq_getElem?_getD, hi, List.getElem?_eq_getElem h₂]
  have hcells : t.joinedCells join_table j
      = ((join_table.schemas.zip row').filter fun e => e.1 ∉ t.schemas).map Prod.snd := by
    refine schemas_join_it_map hrow' _ _ fun e k h => ?_
    simp only [cell, List.getD_eq_getElem?_getD (l := join_table.table), hj, Option.getD_some]
    exact (getD_of_getElem?_zip h).2
  have hnames : (t.schemas_join_it join_table).map (join_table.schemas.getD · "")
      = ((join_table.schemas.zip row').filter fun e => e.1 ∉ t.schemas).map Prod.fst :=
    schemas_join_it_map hrow' _ _ fun e k h => (getD_of_getElem?_zip h).1
  rw [hleft, hcells, hnames, List.zip_append (t.rectangular row hrow).symm]
  congr 1
  exact (List.zip_of_prod rfl rfl).symm

/-! ### Common names -/

/-- The left indices of the common names, at what stands under them. -/
theorem common_map_left {ρ γ : Type} {names : List String} (names' : List String)
    {key : ρ → String} {cells : List ρ} (hcells : cells.map key = names) (g : ℕ → γ)
    (g' : ρ → γ) (hg : ∀ e i, cells[i]? = some e → g i = g' e) :
    (intersectionValueIndex lessString names names').1.map g
      = (cells.filter fun e => key e ∈ names').map g' := by
  subst hcells
  have hcommon := KeyJoin.lookup_eq_innerJoin key id cells names' (decides_lessString _)
    (fun it => g it.1) (g' ∘ Prod.fst) fun i j e name hi _ => hg e i hi
  rw [← List.map_map, KeyJoin.innerJoin_map_fst] at hcommon
  simp only [intersectionValueIndex, List.map_filterMap, Option.map_map]
  simpa [Function.comp_def] using hcommon

/-- The right indices of the common names, at the cells of a right row. -/
theorem common_map_right {γ : Type} (names : List String) {names' : List String}
    {cells : List (String × Cell n)} (hcells : cells.map Prod.fst = names') (g : ℕ → γ)
    (g' : String × Cell n → γ) (hg : ∀ e i, cells[i]? = some e → g i = g' e) :
    (intersectionValueIndex lessString names names').2.map g
      = (project (names.filter fun name => name ∈ names') cells).map g' := by
  subst hcells
  have hcommon := KeyJoin.lookup_eq_innerJoin id Prod.fst names cells (decides_lessString _)
    (fun it => g it.2) (g' ∘ Prod.snd) fun i j name e _ hj => hg e j hj
  have hproject : (innerJoin id Prod.fst names cells).map Prod.snd
      = project (names.filter fun name => name ∈ cells.map Prod.fst) cells := by
    rw [innerJoin, List.map_filterMap, project, List.filterMap_filter]
    refine List.filterMap_congr fun name _ => ?_
    by_cases hname : name ∈ cells.map Prod.fst
    · simp [hname]
    · have hnone : cells.find? (fun e => e.1 = name) = none := by
        refine List.find?_eq_none.mpr fun e he => ?_
        simpa using ne_of_mem_of_not_mem (List.mem_map_of_mem he) hname
      simp [hname, hnone]
  rw [← hproject, List.map_map]
  simp only [intersectionValueIndex, List.map_filterMap, Option.map_map]
  simpa using hcommon

end Columns

/-! ### The inner join -/

section Joins

variable (parse : String → FixedPoint) (t join_table : ValueTable n) (idx idx_tgt : ℕ)
  (hkeys : Apart (t.keyColumn parse idx ++ join_table.keyColumn parse idx_tgt))

include hkeys in
theorem decides_keys : KeyJoin.Decides lessFloat FixedPoint.value
    (t.table.map (fun row => recons ⟨fun i => parse (row.getD (idx - 1) (fun _ => "") i)⟩)
      ++ join_table.table.map
        (fun row => recons ⟨fun i => parse (row.getD (idx_tgt - 1) (fun _ => "") i)⟩)) := by
  refine decides_lessFloat ?_
  simpa [keyColumn, getColumn, Function.comp_def] using hkeys

include hkeys in
/-- **`hjoin` is the inner join.** Its columns are the left columns and the right columns
with new names; its rows are the left rows whose key occurs on the right, in order, each
with the cells of the first right row of its key under the new names. -/
theorem hjoin_named :
    (t.hjoin parse join_table idx idx_tgt).schemas
        = t.schemas ++ join_table.schemas.filter (fun name => name ∉ t.schemas)
      ∧ (t.hjoin parse join_table idx idx_tgt).named
        = (innerJoin (rowKey parse idx) (rowKey parse idx_tgt) t.table join_table.table).map
          fun rows => t.schemas.zip rows.1
            ++ (join_table.schemas.zip rows.2).filter fun e => e.1 ∉ t.schemas := by
  constructor
  · exact congrArg (t.schemas ++ ·) (schemas_join_it_names t join_table)
  · simp only [named, hjoin, joinRows, zip_intersectionValueIndex, getColumn, List.map_map,
      List.map_filterMap, Option.map_map]
    refine KeyJoin.lookup_eq_innerJoin _ _ t.table join_table.table
      (decides_keys parse t join_table idx idx_tgt hkeys)
      (fun it => (t.schemas
        ++ (t.schemas_join_it join_table).map (join_table.schemas.getD · "")).zip
          ((List.range t.schemas.length).map (t.cell it.1) ++ t.joinedCells join_table it.2)) _ ?_
    intro i j row row' hrow hrow'
    exact zip_joined (List.mem_of_getElem? hrow) (List.mem_of_getElem? hrow') hrow hrow'

/-! ### The vertical join -/

/-- The names of the columns that a vertical join keeps. -/
def commonNames (t join_table : ValueTable n) : List String :=
  t.schemas.filter fun name => name ∈ join_table.schemas

theorem commonNames_subset_right {name : String} (hname : name ∈ t.commonNames join_table) :
    name ∈ join_table.schemas :=
  of_decide_eq_true (List.mem_filter.mp hname).2

theorem vjoin_table : (t.vjoin parse join_table idx idx_tgt).table
    = (t.table.map fun row => (intersectionValueIndex lessString t.schemas
        join_table.schemas).1.map fun it_w => row.getD it_w fun _ => "")
      ++ (unionValueIndex lessFloat ((t.getColumn parse (idx - 1)).map recons)
        ((join_table.getColumn parse (idx_tgt - 1)).map recons)).2.map fun it_h =>
          (intersectionValueIndex lessString t.schemas join_table.schemas).2.map
            (join_table.cell it_h) := rfl

theorem vjoin_schemas :
    (t.vjoin parse join_table idx idx_tgt).schemas = t.commonNames join_table := by
  have hnames := common_map_left join_table.schemas (List.map_id t.schemas)
    (t.schemas.getD · "") id fun name i h => by
      rw [List.getD_eq_getElem?_getD, h]
      rfl
  exact hnames.trans (List.map_id _)

/-- A left row of a vertical join. -/
theorem zip_left {row : List (Cell n)} (hnodup : t.schemas.Nodup) (hrow : row ∈ t.table) :
    (t.commonNames join_table).zip ((intersectionValueIndex lessString t.schemas
        join_table.schemas).1.map fun it_w => row.getD it_w fun _ => "")
      = project (t.commonNames join_table) (t.schemas.zip row) := by
  have hfst := zip_map_fst hrow
  have hcells := common_map_left join_table.schemas hfst _ Prod.snd
    fun e i h => (getD_of_getElem?_zip h).2
  have hproject : project (t.commonNames join_table) (t.schemas.zip row)
      = (t.schemas.zip row).filter fun e => e.1 ∈ join_table.schemas := by
    rw [← project_filter (by rwa [hfst]) fun name => name ∈ join_table.schemas, hfst]
    rfl
  have hnames : (project (t.commonNames join_table) (t.schemas.zip row)).map Prod.fst
      = t.commonNames join_table := by
    refine project_map_fst fun name hname => ?_
    rw [hfst]
    exact List.mem_of_mem_filter hname
  rw [hcells, ← hproject]
  exact (List.zip_of_prod hnames rfl).symm

/-- A right row of a vertical join. -/
theorem zip_right {row' : List (Cell n)} {j : ℕ} (hj : join_table.table[j]? = some row') :
    (t.commonNames join_table).zip ((intersectionValueIndex lessString t.schemas
        join_table.schemas).2.map (join_table.cell j))
      = project (t.commonNames join_table) (join_table.schemas.zip row') := by
  have hfst := zip_map_fst (List.mem_of_getElem? hj)
  have hcells := common_map_right t.schemas hfst (join_table.cell j) Prod.snd
    fun e i h => by
      simp only [cell, List.getD_eq_getElem?_getD (l := join_table.table), hj, Option.getD_some]
      exact (getD_of_getElem?_zip h).2
  have hnames : (project (t.commonNames join_table) (join_table.schemas.zip row')).map Prod.fst
      = t.commonNames join_table := by
    refine project_map_fst fun name hname => ?_
    rw [hfst]
    exact commonNames_subset_right t join_table hname
  rw [hcells]
  exact (List.zip_of_prod hnames rfl).symm

/-- A key that both tables hold twice. -/
theorem hjoin_named_sample :
    let t := sample "x" [("1", "5"), ("2", "6"), ("1", "7")]
    let join_table := sample "y" [("1", "8"), ("1", "9")]
    (t.hjoin parseSample join_table 1 1).schemas
        = t.schemas ++ join_table.schemas.filter (fun name => name ∉ t.schemas)
      ∧ (t.hjoin parseSample join_table 1 1).named
        = (innerJoin (rowKey parseSample 1) (rowKey parseSample 1) t.table
          join_table.table).map fun rows => t.schemas.zip rows.1
            ++ (join_table.schemas.zip rows.2).filter fun e => e.1 ∉ t.schemas := by
  intro t join_table
  exact hjoin_named parseSample t join_table 1 1 (by decide +kernel)

include hkeys in
/-- **`vjoin` is the deduplicating vertical join.** Its columns are the left columns whose
names also occur on the right; its rows are the left rows and then the right rows whose
key does not occur on the left, each projected by name. -/
theorem vjoin_named (hnodup : t.schemas.Nodup) :
    (t.vjoin parse join_table idx idx_tgt).schemas
        = t.schemas.filter (fun name => name ∈ join_table.schemas)
      ∧ (t.vjoin parse join_table idx idx_tgt).named
        = (t.named ++ (newRows (rowKey parse idx) (rowKey parse idx_tgt) t.table
            join_table.table).map join_table.schemas.zip).map
          (project (t.schemas.filter fun name => name ∈ join_table.schemas)) := by
  constructor
  · exact vjoin_schemas parse t join_table idx idx_tgt
  · have hnew := KeyJoin.filter_find_eq_newRows _ _ t.table join_table.table
      (decides_keys parse t join_table idx idx_tgt hkeys)
      (fun j => (t.commonNames join_table).zip ((intersectionValueIndex lessString t.schemas
        join_table.schemas).2.map (join_table.cell j))) _
      fun row' j hj => zip_right t join_table hj
    rw [named, vjoin_schemas, vjoin_table, List.map_append, List.map_append]
    congr 1
    · rw [named, List.map_map, List.map_map]
      exact List.map_congr_left fun row hrow => zip_left t join_table hnodup hrow
    · simp only [unionValueIndex, getColumn, List.map_map]
      exact hnew

end Joins

/-- One new key, twice. -/
theorem vjoin_named_sample :
    let t := sample "x" [("1", "5"), ("1", "7")]
    let join_table := sample "x" [("2", "8"), ("1", "9"), ("2", "6")]
    (t.vjoin parseSample join_table 1 1).schemas
        = t.schemas.filter (fun name => name ∈ join_table.schemas)
      ∧ (t.vjoin parseSample join_table 1 1).named
        = (t.named ++ (newRows (rowKey parseSample 1) (rowKey parseSample 1) t.table
            join_table.table).map join_table.schemas.zip).map
          (project (t.schemas.filter fun name => name ∈ join_table.schemas)) := by
  intro t join_table
  exact vjoin_named parseSample t join_table 1 1 (by decide +kernel) (by decide)

end QuickMpc.ValueTable
