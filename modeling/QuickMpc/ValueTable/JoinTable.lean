import QuickMpc.ValueText
import QuickMpc.ValueTable.NamedRows
import QuickMpc.ValueTable.ReadDb

/-!
# QuickMpc.ValueTable.JoinTable

`JoinTableJob`: the joined table, without the id column and the column of the keys.

A request may join any number of tables. A chain of `hjoin`s is one lookup: every row of the
first table is kept that has its key in all of the others, and gets the cells of the first
row with the key in each of them (`hjoinAll_table`). This takes keys that are equal or more than
`10 ^ -5` apart: `hjoin` takes closer ones for the same. The job prints the shares of this table
and returns them; a chain without such a row has no first row to read the width from
(`joinTableJob_rows`).
-/

namespace QuickMpc.ValueTable

open KeyJoin (innerJoin)
open Share (recons)

variable {n : ℕ}

/-! ### The code -/

section Code

variable (parse : String → FixedPoint)
  (equals less : Share n FixedPoint → Share n FixedPoint → Run Bool)

/-- What `removeIdColumn` leaves of a row, or of the schema. `match_row` is huge for a column
that is not counted from 1. -/
def removeIdColumn {α : Type} (match_row : ℤ) (row : List α) : List α :=
  (row.zipIdx.filter fun e => e.2 ≠ 0 ∧ (e.2 : ℤ) ≠ match_row).map Prod.fst

/-- `JoinTableJob::compute`, at all parties. -/
def JoinTableJob.compute [Multiprecision] (table : List (List (Share n FixedPoint)))
    (schemas : List String) (src : List ℤ) : Access (RawTable n) := do
  let id_column ← access src 0
  let match_row := id_column - 1
  let table_string := table.map fun row => row.map fun s =>
    (fun i => (s.value i).getStrVal : Cell n)
  return ⟨table_string.map (removeIdColumn match_row), removeIdColumn match_row schemas⟩

/-- `JoinTableJob::run` on the tables that are read. -/
def joinTableJob [Multiprecision] (values : List (RawTable n)) (join : List ℤ) (index : List ℕ)
    (src : List ℤ) : Access (RawTable n) := do
  let share_table ← RawTable.readDb parse equals less values join index
  let joinTable ← RawTable.parseRead parse equals less values join index
  JoinTableJob.compute share_table joinTable.schemas src

end Code

/-! ### Removed columns -/

/-- Without the first column and the one that `idx` counts from 1. -/
def withoutIds {α : Type} (idx : ℕ) (row : List α) : List α :=
  if idx = 1 then row.tail else (row.eraseIdx (idx - 1)).tail

theorem filter_zipIdx_of_lt {α : Type} (row : List α) (p : α × ℕ → Bool) {i : ℕ}
    (h : ∀ e ∈ row.zipIdx i, p e = true) : ((row.zipIdx i).filter p).map Prod.fst = row := by
  rw [List.filter_eq_self.mpr h]
  exact List.zipIdx_map_fst _ _

theorem filter_zipIdx_eq_eraseIdx {α : Type} (row : List α) (i k : ℕ) :
    ((row.zipIdx i).filter fun e => e.2 ≠ i + k).map Prod.fst = row.eraseIdx k := by
  induction row generalizing i k with
  | nil => rfl
  | cons x row ih =>
      rw [List.zipIdx_cons, List.filter_cons]
      cases k with
      | zero =>
          rw [if_neg (by simp), List.eraseIdx_cons_zero]
          refine filter_zipIdx_of_lt row _ fun e he => ?_
          have hlt := List.le_snd_of_mem_zipIdx he
          simp
          omega
      | succ k =>
          have hshift : i + (k + 1) = i + 1 + k := by omega
          rw [if_pos (by simp), List.map_cons, List.eraseIdx_cons_succ, hshift, ih]

theorem removeIdColumn_eq {α : Type} {idx : ℕ} (hidx : 0 < idx) (row : List α) :
    removeIdColumn ((idx : ℤ) - 1) row = withoutIds idx row := by
  cases row with
  | nil => simp [removeIdColumn, withoutIds]
  | cons x row =>
      rw [removeIdColumn, withoutIds, List.zipIdx_cons, List.filter_cons_of_neg (by simp)]
      split
      next hone =>
          subst hone
          refine filter_zipIdx_of_lt row _ fun e he => ?_
          have hlt := List.le_snd_of_mem_zipIdx he
          simp
          omega
      next hne =>
          obtain ⟨k, rfl⟩ : ∃ k, idx = k + 2 := ⟨idx - 2, by omega⟩
          rw [show k + 2 - 1 = k + 1 by omega, List.eraseIdx_cons_succ, List.tail_cons,
            ← filter_zipIdx_eq_eraseIdx row (0 + 1) k]
          refine congrArg _ (List.filter_congr fun e he => ?_)
          have hlt := List.le_snd_of_mem_zipIdx he
          rw [decide_eq_decide]
          omega

theorem removeIdColumn_map {α β : Type} (f : α → β) (match_row : ℤ) (row : List α) :
    removeIdColumn match_row (row.map f) = (removeIdColumn match_row row).map f := by
  simp only [removeIdColumn, List.zipIdx_map, List.filter_map, List.map_map]
  rfl

/-! ### A chain of horizontal joins -/

/-- The names of a table that are new. -/
def newNames (schemas : List String) (t : ValueTable n) : List String :=
  t.schemas.filter fun name => name ∉ schemas

/-- The cells of a row under the new names. -/
def newCells (schemas : List String) (t : ValueTable n) (row : List (Cell n)) : List (Cell n) :=
  ((t.schemas.zip row).filter fun e => e.1 ∉ schemas).map Prod.snd

section Chain

variable (parse : String → FixedPoint)

/-- The new cells of the first rows with a key, one row for each table. -/
def lookup (key : ℤ) : List String → List (ValueTable n × ℕ) → Option (List (Cell n))
  | _, [] => some []
  | schemas, (t, idx) :: rest => do
    let row ← t.table.find? fun row => rowKey parse idx row = key
    let cells ← lookup key (schemas ++ newNames schemas t) rest
    return newCells schemas t row ++ cells

/-- All names of a chain. -/
def allNames : List String → List (ValueTable n × ℕ) → List String
  | schemas, [] => schemas
  | schemas, (t, _) :: rest => allNames (schemas ++ newNames schemas t) rest

/-- `hjoin` with one table after the other. -/
def hjoinAll (idx : ℕ) : ValueTable n → List (ValueTable n × ℕ) → ValueTable n
  | t, [] => t
  | t, (join_table, idx_tgt) :: rest => hjoinAll idx (t.hjoin parse join_table idx idx_tgt) rest

theorem hjoin_schemas (t join_table : ValueTable n) (idx idx_tgt : ℕ) :
    (t.hjoin parse join_table idx idx_tgt).schemas
      = t.schemas ++ newNames t.schemas join_table :=
  congrArg (t.schemas ++ ·) (schemas_join_it_names t join_table)

/-- The rows of a join: each left row that has a match, with the new cells of the first one. -/
theorem hjoin_table (t join_table : ValueTable n) (idx idx_tgt : ℕ)
    (hkeys : Apart (t.keyColumn parse idx ++ join_table.keyColumn parse idx_tgt)) :
    (t.hjoin parse join_table idx idx_tgt).table
      = t.table.filterMap fun row =>
          (join_table.table.find? fun row' => rowKey parse idx_tgt row' = rowKey parse idx row).map
            fun row' => row ++ newCells t.schemas join_table row' := by
  have hrows := KeyJoin.lookup_eq_innerJoin _ _ t.table join_table.table
    (decides_keys parse t join_table idx idx_tgt hkeys)
    (fun it => (List.range t.schemas.length).map (t.cell it.1) ++ t.joinedCells join_table it.2)
    (fun rows => rows.1 ++ newCells t.schemas join_table rows.2) ?_
  · simp only [hjoin, joinRows, zip_intersectionValueIndex, getColumn, List.map_map,
      List.map_filterMap, Option.map_map]
    refine hrows.trans ?_
    rw [innerJoin, List.map_filterMap]
    refine List.filterMap_congr fun row _ => ?_
    rw [Option.map_map]
    rfl
  · intro i j row row' hrow hrow'
    have hleft : (List.range t.schemas.length).map (t.cell i) = row := by
      have hlength := t.rectangular row (List.mem_of_getElem? hrow)
      refine List.ext_getElem (by simp [hlength]) fun k h₁ h₂ => ?_
      simp [cell, List.getD_eq_getElem?_getD, hrow, List.getElem?_eq_getElem h₂]
    have hcells : t.joinedCells join_table j = newCells t.schemas join_table row' := by
      refine schemas_join_it_map (List.mem_of_getElem? hrow') _ _ fun e k h => ?_
      simp only [cell, List.getD_eq_getElem?_getD (l := join_table.table), hrow', Option.getD_some]
      exact (getD_of_getElem?_zip h).2
    rw [hleft, hcells]

/-- A joined row has the key of its left row. -/
theorem rowKey_append {idx : ℕ} {row : List (Cell n)} (h : idx - 1 < row.length)
    (cells : List (Cell n)) : rowKey parse idx (row ++ cells) = rowKey parse idx row := by
  simp only [rowKey, List.getD_eq_getElem?_getD, List.getElem?_append_left h]

theorem keyColumn_eq_map (t : ValueTable n) (idx : ℕ) :
    t.keyColumn parse idx = t.table.map (rowKey parse idx) := by
  rw [keyColumn, getColumn, List.map_map]
  rfl

theorem Apart.mono {keys keys' : List ℤ} (h : Apart keys) (hsub : ∀ x ∈ keys', x ∈ keys) :
    Apart keys' :=
  fun x hx y hy => h x (hsub x hx) y (hsub y hy)

theorem hjoinAll_schemas (idx : ℕ) (t : ValueTable n) (rights : List (ValueTable n × ℕ)) :
    (hjoinAll parse idx t rights).schemas = allNames t.schemas rights := by
  induction rights generalizing t with
  | nil => rfl
  | cons e rights ih =>
      rw [hjoinAll, ih, hjoin_schemas]
      rfl

/-- **A chain of horizontal joins is one lookup.** -/
theorem hjoinAll_table {idx : ℕ} {t : ValueTable n} {rights : List (ValueTable n × ℕ)}
    (hidx : idx - 1 < t.schemas.length)
    (hkeys : ∀ e ∈ rights, Apart (t.keyColumn parse idx ++ e.1.keyColumn parse e.2)) :
    (hjoinAll parse idx t rights).table
      = t.table.filterMap fun row =>
          (lookup parse (rowKey parse idx row) t.schemas rights).map fun cells => row ++ cells := by
  induction rights generalizing t with
  | nil => simp [hjoinAll, lookup]
  | cons e rights ih =>
      obtain ⟨join_table, idx_tgt⟩ := e
      have htable := hjoin_table parse t join_table idx idx_tgt (hkeys _ List.mem_cons_self)
      have hwidth : ∀ row ∈ t.table, idx - 1 < row.length := fun row hrow => by
        rwa [t.rectangular row hrow]
      have hschemas := hjoin_schemas parse t join_table idx idx_tgt
      have hsub : ∀ x ∈ (t.hjoin parse join_table idx idx_tgt).keyColumn parse idx,
          x ∈ t.keyColumn parse idx := by
        intro x hx
        rw [keyColumn_eq_map, htable] at hx
        obtain ⟨joined, hjoined, rfl⟩ := List.mem_map.mp hx
        obtain ⟨row, hrow, hmap⟩ := List.mem_filterMap.mp hjoined
        obtain ⟨row', -, rfl⟩ := Option.map_eq_some_iff.mp hmap
        rw [rowKey_append parse (hwidth row hrow), keyColumn_eq_map]
        exact List.mem_map_of_mem hrow
      rw [hjoinAll, ih]
      · rw [htable, List.filterMap_filterMap, hschemas]
        refine List.filterMap_congr fun row hrow => ?_
        rw [lookup]
        cases hfind : join_table.table.find? fun row' =>
            rowKey parse idx_tgt row' = rowKey parse idx row with
        | none => rfl
        | some row' =>
            simp only [Option.map_some, Option.bind_some, rowKey_append parse (hwidth row hrow)]
            cases lookup parse (rowKey parse idx row) (t.schemas ++ newNames t.schemas join_table)
                rights with
            | none => rfl
            | some cells => simp
      · rw [hschemas, List.length_append]
        omega
      · intro e he
        refine (hkeys e (List.mem_cons_of_mem _ he)).mono fun x hx => ?_
        rcases List.mem_append.mp hx with hx | hx
        · exact List.mem_append_left _ (hsub x hx)
        · exact List.mem_append_right _ hx

end Chain

/-! ### The request -/

section Request

variable (parse : String → FixedPoint)
  (equals less : Share n FixedPoint → Share n FixedPoint → Run Bool)
  (left : ValueTable n) (rights : List (ValueTable n × ℕ)) (idx : ℕ)

/-- The tables, kinds and indexes of a request for horizontal joins on open keys. -/
def chainValues : List (ValueTable n) := left :: rights.map Prod.fst

def chainJoin : List ℤ := List.replicate rights.length 0

def chainIndex : List ℕ := idx :: rights.map Prod.snd

/-- A request on stored tables. -/
structure StoredChain : Prop where
  left_rows : left.table ≠ []
  left_column : 0 < idx ∧ idx ≤ left.schemas.length
  rows : ∀ e ∈ rights, e.1.table ≠ []
  columns : ∀ e ∈ rights, 0 < e.2 ∧ e.2 ≤ e.1.schemas.length

variable {left rights idx}

theorem StoredChain.stored (h : StoredChain left rights idx) :
    Stored (chainValues left rights) (chainJoin rights) (chainIndex rights idx) where
  values_length := by simp [chainValues, chainJoin]
  index_length := by simp [chainIndex, chainJoin]
  rows t ht := by
    rcases List.mem_cons.mp ht with rfl | ht
    · exact h.left_rows
    · obtain ⟨e, he, rfl⟩ := List.mem_map.mp ht
      exact h.rows e he
  columns e he := by
    rw [chainValues, chainIndex, List.zip_cons_cons] at he
    rcases List.mem_cons.mp he with rfl | he
    · exact h.left_column
    · obtain ⟨i, hi, rfl⟩ := List.mem_iff_getElem.mp he
      rw [List.getElem_zip, List.getElem_map, List.getElem_map]
      exact h.columns _ (List.getElem_mem _)

theorem chainJoin_getD (it : ℕ) : (chainJoin rights).getD it 0 = 0 := by
  rw [chainJoin, List.getD_eq_getElem?_getD, List.getElem?_replicate]
  split <;> rfl

variable (left rights idx)

theorem joinFunc_chain (t : ValueTable n) {it : ℕ} (hit : it ≤ rights.length) :
    joinFunc parse equals less (chainValues left rights) (chainJoin rights)
        (chainIndex rights idx) t it
      = .ok (hjoinAll parse idx t (rights.drop it)) := by
  induction hleft : rights.length - it generalizing t it with
  | zero =>
      have hge : ¬it < (chainJoin rights).length := by
        rw [chainJoin, List.length_replicate]
        omega
      rw [joinFunc, if_neg hge, List.drop_of_length_le (by omega)]
      rfl
  | succ k ih =>
      have hlt : it < rights.length := by omega
      have hvalue : (chainValues left rights).getD (it + 1) default = rights[it].1 := by
        simp [chainValues, List.getD_eq_getElem?_getD, hlt]
      have hindex : (chainIndex rights idx).getD (it + 1) 0 = rights[it].2 := by
        simp [chainIndex, List.getD_eq_getElem?_getD, hlt]
      have hmore : it < (chainJoin rights).length := by rwa [chainJoin, List.length_replicate]
      rw [joinFunc, if_pos hmore, chainJoin_getD, hvalue, hindex, joinOnce, if_pos rfl,
        Except.bind_ok rfl, ih _ hlt (by omega), List.drop_eq_getElem_cons hlt]
      rfl

theorem parseRead_chain :
    parseRead parse equals less (chainValues left rights) (chainJoin rights)
        (chainIndex rights idx)
      = .ok (hjoinAll parse idx left rights) :=
  joinFunc_chain parse equals less left rights idx left (Nat.zero_le _)

variable {left rights idx}

/-- The column of the left keys stays. -/
theorem accumulated_chain {it : ℕ} {t : ValueTable n}
    (h : Accumulated parse equals less (chainValues left rights) (chainJoin rights)
      (chainIndex rights idx) it t) : left.schemas.length ≤ t.schemas.length := by
  induction h with
  | start => exact le_rfl
  | @step it t joined _ hit hjoin ih =>
      rw [chainJoin_getD, joinOnce, if_pos rfl] at hjoin
      obtain rfl := Except.ok.inj hjoin
      rw [hjoin_schemas, List.length_append]
      omega

theorem StoredChain.raw_parseRead (h : StoredChain left rights idx) :
    RawTable.parseRead parse equals less ((chainValues left rights).map raw) (chainJoin rights)
        (chainIndex rights idx)
      = .ok (hjoinAll parse idx left rights).raw := by
  have hcolumn := h.left_column
  rw [RawTable.parseRead, Except.bind_ok (h.stored.access_value (Nat.zero_le _)),
    h.stored.raw_joinFunc_eq (fun it t ht _ => .inr ?_) .start (Nat.zero_le _)]
  · have hread := parseRead_chain parse equals less left rights idx
    rw [parseRead] at hread
    rw [hread]
    rfl
  · have hle := accumulated_chain parse equals less ht
    simp only [chainIndex, List.getD_cons_zero]
    omega

/-! ### What the job returns -/

/-- What a client reconstructs from the texts of a cell. -/
def openCell (cell : Cell n) : FixedPoint := recons ⟨fun i => parse (cell i)⟩

/-- What a client reconstructs from a result. -/
def RawTable.opened (t : RawTable n) : List (List FixedPoint) :=
  t.table.map fun row => row.map (openCell parse)

/-- The rows of the first table that have their key in all of the others, with the new
cells. -/
def joinedRows (left : ValueTable n) (rights : List (ValueTable n × ℕ)) (idx : ℕ) :
    List (List (Cell n)) :=
  left.table.filterMap fun row =>
    (lookup parse (rowKey parse idx row) left.schemas rights).map fun cells => row ++ cells

omit parse in
theorem map_range_cells {γ : Type} (t : ValueTable n) (f : Cell n → γ) :
    ((List.range t.table.length).map fun i =>
        (List.range t.schemas.length).map fun j => f (t.cell i j))
      = t.table.map fun row => row.map f := by
  refine List.ext_getElem (by simp) fun i hi hi' => ?_
  have hlt : i < t.table.length := by simpa using hi
  have hrow := t.rectangular _ (List.getElem_mem hlt)
  rw [List.getElem_map, List.getElem_map, List.getElem_range, ← hrow]
  refine List.ext_getElem (by simp) fun j hj hj' => ?_
  have hlt' : j < t.table[i].length := by simpa using hj
  simp [cell, List.getD_eq_getElem?_getD, hlt, hlt']

/-- The pieces of a cell have at most fifty digits. -/
def Printable (cell : Cell n) : Prop := ∀ party, |(parse (cell party)).value| < 10 ^ 50

/-- A table comes back as its shares were printed. -/
theorem compute_opened [Multiprecision]
    (hparse : ∀ v : FixedPoint, |v.value| < 10 ^ 50 → parse v.getStrVal = v) (t : ValueTable n)
    (schemas : List String) {k : ℕ} (hk : 0 < k)
    (hcells : ∀ row ∈ t.table, ∀ cell ∈ withoutIds k row, Printable parse cell) (src : List ℤ) :
    ∃ result, JoinTableJob.compute ((List.range t.table.length).map fun i =>
        (List.range t.schemas.length).map fun j => ⟨fun party => parse (t.cell i j party)⟩)
        schemas ((k : ℤ) :: src) = .ok result ∧
      result.schemas = withoutIds k schemas ∧
      result.opened parse = t.table.map fun row => (withoutIds k row).map (openCell parse) := by
  have htable := map_range_cells t fun cell : Cell n =>
    (⟨fun party => parse (cell party)⟩ : Share n FixedPoint)
  rw [htable]
  refine ⟨_, rfl, removeIdColumn_eq hk schemas, ?_⟩
  simp only [RawTable.opened, List.map_map]
  refine List.map_congr_left fun row hrow => ?_
  simp only [Function.comp_apply, removeIdColumn_map, List.map_map]
  rw [removeIdColumn_eq hk]
  refine List.map_congr_left fun cell hcell => ?_
  simp only [Function.comp_apply, openCell, hparse _ (hcells row hrow cell hcell _)]

/-- **`JoinTableJob` returns the inner join of any number of tables**, when their keys are equal
or apart and the joined pieces have at most fifty digits: the rows of the first table whose key
all other tables have, each with the new cells of their first rows with this key, without the
first column and the one that the request names. When there is no such row, the job reads a row
that does not exist. -/
theorem joinTableJob_rows [Multiprecision]
    (hparse : ∀ v : FixedPoint, |v.value| < 10 ^ 50 → parse v.getStrVal = v)
    (h : StoredChain left rights idx)
    (hkeys : ∀ e ∈ rights, Apart (left.keyColumn parse idx ++ e.1.keyColumn parse e.2))
    {k : ℕ} (hk : 0 < k) (hcells : ∀ row ∈ joinedRows parse left rights idx,
      ∀ cell ∈ withoutIds k row, Printable parse cell) (src : List ℤ) :
    if joinedRows parse left rights idx = [] then
      joinTableJob parse equals less ((chainValues left rights).map raw) (chainJoin rights)
        (chainIndex rights idx) ((k : ℤ) :: src) = .error .outOfRange
    else
      ∃ result, joinTableJob parse equals less ((chainValues left rights).map raw)
          (chainJoin rights) (chainIndex rights idx) ((k : ℤ) :: src) = .ok result ∧
        result.schemas = withoutIds k (allNames left.schemas rights) ∧
        result.opened parse = (joinedRows parse left rights idx).map fun row =>
          (withoutIds k row).map (openCell parse) := by
  have hcolumn := h.left_column
  have htable : (hjoinAll parse idx left rights).table = joinedRows parse left rights idx :=
    hjoinAll_table parse (by omega) hkeys
  have hread := raw_readDb (h.raw_parseRead parse equals less)
  rw [joinTableJob, hread, htable, h.raw_parseRead parse equals less]
  split
  · rfl
  · obtain ⟨result, hresult, hschemas, hopened⟩ := compute_opened parse hparse
      (hjoinAll parse idx left rights) (allNames left.schemas rights) hk (htable ▸ hcells) src
    rw [htable] at hresult hopened
    rw [← hjoinAll_schemas parse idx] at hresult hschemas
    refine ⟨result, hresult, ?_, hopened⟩
    rw [hschemas, hjoinAll_schemas]

end Request

/-- Three tables; the key 2 is in all of them, the key 1 is not in the second. -/
theorem joinTableJob_rows_three :
    letI := Multiprecision.plain
    let left := sample "x" [("1", "5"), ("2", "6")]
    let rights := [(sample "y" [("2", "8"), ("2", "3")], 1),
      (sample "z" [("1", "9"), ("2", "4")], 1)]
    if joinedRows FixedPoint.ofText left rights 1 = [] then
      joinTableJob FixedPoint.ofText equalsSample lessSample ((chainValues left rights).map raw)
        (chainJoin rights) (chainIndex rights 1) [((1 : ℕ) : ℤ)] = .error .outOfRange
    else
      ∃ result, joinTableJob FixedPoint.ofText equalsSample lessSample
          ((chainValues left rights).map raw) (chainJoin rights) (chainIndex rights 1)
          [((1 : ℕ) : ℤ)] = .ok result ∧
        result.schemas = withoutIds 1 (allNames left.schemas rights) ∧
        result.opened FixedPoint.ofText
          = (joinedRows FixedPoint.ofText left rights 1).map fun row =>
            (withoutIds 1 row).map (openCell FixedPoint.ofText) := by
  let _ := Multiprecision.plain
  intro left rights
  have hstored : StoredChain left rights 1 := ⟨by decide, by decide, by decide, by decide⟩
  have hcells : ∀ row ∈ joinedRows FixedPoint.ofText left rights 1,
      ∀ cell ∈ withoutIds 1 row, ∀ party : Fin 3,
        |(FixedPoint.ofText (cell party)).value| < 10 ^ 50 := by
    decide +kernel
  exact joinTableJob_rows FixedPoint.ofText equalsSample lessSample
    (fun _ => FixedPoint.ofText_getStrVal) hstored (by decide +kernel) Nat.one_pos hcells []

end QuickMpc.ValueTable
