import QuickMpc.JobRun
import QuickMpc.ValueTable.ParseRead

/-!
# QuickMpc.ValueTable.ReadDb

`readDb` of a job and of a prediction, with every access to a row or a column.

The joins here are those of `QuickMpc.ValueTable` on tables of any shape, where an
access may be out of range; where none is, they return the same table. `readDb` goes
wrong in two places: `getColumn` asks for column `index[0]`, which a `vjoin` may have
left no room for, and the width is read off the first row of a joined table that may
have none (`readDb_inRange_iff`). What is read is rectangular in any case, as a run takes
its joined table to be (`Stored.exists_joinTable`).
-/

namespace QuickMpc.ValueTable

open KeyJoin (find emplaceFrom)
open Share (recons)

variable {n : ℕ}

/-! ### Accesses -/

/-- How a reader ends other than by returning. -/
inductive Fault
  /-- A row or column is accessed that does not exist. The accesses are unchecked ones, so
  this is undefined in C++, and no exception. -/
  | outOfRange
  | aborted (e : Abort)
  deriving DecidableEq, Repr

abbrev Access (α : Type) := Except Fault α

section Access

variable {α β : Type}

/-- `xs[i]`. -/
def access (xs : List α) (i : ℕ) : Access α :=
  match xs[i]? with
  | some x => .ok x
  | none => .error .outOfRange

/-- A call that accesses nothing. -/
def run : Run α → Access α
  | .ok a => .ok a
  | .error e => .error (.aborted e)

theorem access_of_lt {xs : List α} {i : ℕ} (h : i < xs.length) (d : α) :
    access xs i = .ok (xs.getD i d) := by
  simp [access, List.getD_eq_getElem?_getD, h]

theorem access_of_le {xs : List α} {i : ℕ} (h : xs.length ≤ i) :
    access xs i = .error .outOfRange := by
  simp [access, h]

theorem mapM_eq_ok {f : α → Access β} {g : α → β} {xs : List α}
    (h : ∀ x ∈ xs, f x = .ok (g x)) : xs.mapM f = .ok (xs.map g) := by
  induction xs with
  | nil => rfl
  | cons x xs ih =>
      rw [List.mapM_cons, Except.bind_ok (h x List.mem_cons_self),
        Except.bind_ok (ih fun y hy => h y (List.mem_cons_of_mem _ hy))]
      rfl

/-- A loop whose rounds return or end in one way, and do not all return. -/
theorem mapM_eq_error {f : α → Access β} {e : Fault} {xs : List α}
    (h : ∀ x ∈ xs, (∃ b, f x = .ok b) ∨ f x = .error e) (hbad : ∃ x ∈ xs, f x = .error e) :
    xs.mapM f = .error e := by
  induction xs with
  | nil =>
      obtain ⟨x, hx, -⟩ := hbad
      cases hx
  | cons x xs ih =>
      rw [List.mapM_cons]
      rcases h x List.mem_cons_self with ⟨b, hb⟩ | herror
      · have htail : ∃ y ∈ xs, f y = .error e := by
          obtain ⟨y, hy, herror⟩ := hbad
          rcases List.mem_cons.mp hy with rfl | hy
          · rw [hb] at herror
            cases herror
          · exact ⟨y, hy, herror⟩
        rw [Except.bind_ok hb, Except.bind_error (ih (fun y hy => h y (List.mem_cons_of_mem _ hy))
          htail)]
      · exact Except.bind_error herror _

end Access

/-- A table of any shape. -/
structure RawTable (n : ℕ) where
  table : List (List (Cell n))
  schemas : List String
  deriving DecidableEq

def raw (t : ValueTable n) : RawTable n := ⟨t.table, t.schemas⟩

namespace RawTable

variable (parse : String → FixedPoint)
  (equals less : Share n FixedPoint → Share n FixedPoint → Run Bool)

/-- `getColumn`. -/
def getColumn (t : RawTable n) (idx : ℕ) : Access (List (Share n FixedPoint)) :=
  t.table.mapM fun row => do
    let cell ← access row idx
    return ⟨fun i => parse (cell i)⟩

/-- `table[it_h][it_w]`. -/
def cell (t : RawTable n) (it_h it_w : ℕ) : Access (Cell n) := do
  let row ← access t.table it_h
  access row it_w

/-- The table of a horizontal join from its matched rows. -/
def joinRows (t join_table : RawTable n) (its : List (ℕ × ℕ)) : Access (RawTable n) := do
  let its_w := unionValueIndex lessString t.schemas join_table.schemas
  let new_schemas ← its_w.2.mapM (access join_table.schemas)
  let new_table ← its.mapM fun it => do
    let left ← its_w.1.mapM (t.cell it.1)
    let right ← its_w.2.mapM (join_table.cell it.2)
    return left ++ right
  return ⟨new_table, t.schemas ++ new_schemas⟩

/-- `hjoin`. -/
def hjoin (t join_table : RawTable n) (idx idx_tgt : ℕ) : Access (RawTable n) := do
  let ids_share ← t.getColumn parse (idx - 1)
  let ids_tgt_share ← join_table.getColumn parse (idx_tgt - 1)
  let its := intersectionValueIndex lessFloat (ids_share.map recons) (ids_tgt_share.map recons)
  t.joinRows join_table (its.1.zip its.2)

/-- `vjoin`. -/
def vjoin (t join_table : RawTable n) (idx idx_tgt : ℕ) : Access (RawTable n) := do
  let its := intersectionValueIndex lessString t.schemas join_table.schemas
  let new_schemas ← its.1.mapM (access t.schemas)
  let ids_share ← t.getColumn parse (idx - 1)
  let ids_tgt_share ← join_table.getColumn parse (idx_tgt - 1)
  let ids_join_it :=
    (unionValueIndex lessFloat (ids_share.map recons) (ids_tgt_share.map recons)).2
  let rows ← t.table.mapM fun row => its.1.mapM (access row)
  let rows_tgt ← ids_join_it.mapM fun it_h => its.2.mapM (join_table.cell it_h)
  return ⟨rows ++ rows_tgt, new_schemas⟩

/-- `hjoinShare`. -/
def hjoinShare (t join_table : RawTable n) (idx idx_tgt : ℕ) : Access (RawTable n) := do
  let ids_share ← t.getColumn parse (idx - 1)
  let ids_tgt_share ← join_table.getColumn parse (idx_tgt - 1)
  let ids_it_list ← run (intersectionSortedValueIndex equals less ids_share ids_tgt_share)
  t.joinRows join_table ids_it_list

/-- One join of `joinFunc`. -/
def joinOnce (t join_table : RawTable n) (kind : ℤ) (idx idx_tgt : ℕ) : Access (RawTable n) :=
  if kind = 0 then t.hjoin parse join_table idx idx_tgt
  else if kind = 1 then t.vjoin parse join_table idx idx_tgt
  else t.hjoinShare parse equals less join_table idx idx_tgt

variable (values : List (RawTable n)) (join : List ℤ) (index : List ℕ)

/-- `joinFunc` of `parseRead`. -/
def joinFunc (t : RawTable n) (it : ℕ) : Access (RawTable n) :=
  if it < join.length then do
    let kind ← access join it
    let join_table ← access values (it + 1)
    let idx ← access index 0
    let idx_tgt ← access index (it + 1)
    let joined ← joinOnce parse equals less t join_table kind idx idx_tgt
    joinFunc joined (it + 1)
  else return t
termination_by join.length - it

def parseRead : Access (RawTable n) := do
  let first ← access values 0
  joinFunc parse equals less values join index first 0

/-- `JobBase::readDb` and `ModelBase::readDb`: the share table. -/
def readDb : Access (List (List (Share n FixedPoint))) := do
  let joinTable ← parseRead parse equals less values join index
  let values := joinTable.table
  let h := values.length
  let first ← access values 0
  let w := first.length
  (List.range h).mapM fun i => (List.range w).mapM fun j => do
    let cell ← joinTable.cell i j
    return ⟨fun i => parse (cell i)⟩

end RawTable

/-! ### Index lists in range -/

theorem unionValueIndex_lt {T : Type} {less : T → T → Bool} {v1 v2 : List T} {j : ℕ}
    (hj : j ∈ (unionValueIndex less v1 v2).2) : j < v2.length := by
  obtain ⟨e, he, rfl⟩ := List.mem_map.mp hj
  simpa using List.snd_lt_of_mem_zipIdx (List.mem_of_mem_filter he)

theorem intersectionValueIndex_lt {T : Type} (less : T → T → Bool) (v1 v2 : List T) :
    (∀ i ∈ (intersectionValueIndex less v1 v2).1, i < v1.length)
      ∧ ∀ j ∈ (intersectionValueIndex less v1 v2).2, j < v2.length := by
  constructor
  · intro i hi
    obtain ⟨it, hit, rfl⟩ := List.mem_map.mp hi
    obtain ⟨e, he, hmap⟩ := List.mem_filterMap.mp hit
    obtain ⟨j, -, rfl⟩ := Option.map_eq_some_iff.mp hmap
    simpa using List.snd_lt_of_mem_zipIdx he
  · intro j hj
    obtain ⟨it, hit, rfl⟩ := List.mem_map.mp hj
    obtain ⟨e, -, hmap⟩ := List.mem_filterMap.mp hit
    obtain ⟨j', hj', rfl⟩ := Option.map_eq_some_iff.mp hmap
    exact KeyJoin.lt_of_find_emplaceFrom hj'

theorem intersectionSortedFrom_lt {T : Type} {equals less : T → T → Run Bool} (v1 v2 : List T)
    (i1 i2 : ℕ) {its : List (ℕ × ℕ)}
    (h : intersectionSortedFrom equals less v1 v2 i1 i2 = .ok its) :
    ∀ it ∈ its, it.1 < i1 + v1.length ∧ it.2 < i2 + v2.length := by
  induction v1, v2, i1, i2 using intersectionSortedFrom.induct generalizing its with
  | case1 x xs y ys i1 i2 ih₁ ih₂ ih₃ =>
      rw [intersectionSortedFrom] at h
      obtain ⟨b, -, h⟩ := Except.bind_eq_ok h
      cases b with
      | true =>
          obtain ⟨it_list, hit_list, h⟩ := Except.bind_eq_ok h
          obtain rfl := Except.ok.inj h
          intro it hit
          simp only [List.length_cons]
          rcases List.mem_cons.mp hit with rfl | hit
          · simp
          · have := ih₁ hit_list it hit
            omega
      | false =>
          obtain ⟨c, -, h⟩ := Except.bind_eq_ok h
          intro it hit
          cases c with
          | true =>
              have := ih₂ h it hit
              simp only [List.length_cons] at this ⊢
              omega
          | false =>
              have := ih₃ h it hit
              simp only [List.length_cons] at this ⊢
              omega
  | case2 v2 i1 i2 =>
      rw [intersectionSortedFrom] at h
      obtain rfl := Except.ok.inj h
      simp
  | case3 x xs i1 i2 =>
      rw [intersectionSortedFrom] at h
      obtain rfl := Except.ok.inj h
      simp

/-! ### Joins in range -/

/-- Every row has the column that `index` counts from 1, if there is a row. -/
def HasColumn (t : ValueTable n) (idx : ℕ) : Prop := t.table = [] ∨ idx - 1 < t.schemas.length

@[simp] theorem raw_table (t : ValueTable n) : t.raw.table = t.table := rfl

@[simp] theorem raw_schemas (t : ValueTable n) : t.raw.schemas = t.schemas := rfl

section Joins

variable (parse : String → FixedPoint)
  (equals less : Share n FixedPoint → Share n FixedPoint → Run Bool)

theorem raw_getColumn {t : ValueTable n} {idx : ℕ} (h : HasColumn t idx) :
    t.raw.getColumn parse (idx - 1) = .ok (t.getColumn parse (idx - 1)) := by
  refine mapM_eq_ok fun row hrow => ?_
  have hlt : idx - 1 < row.length := by
    rcases h with hempty | hlt
    · rw [raw_table, hempty] at hrow
      exact absurd hrow List.not_mem_nil
    · rwa [t.rectangular row hrow]
  rw [Except.bind_ok (access_of_lt hlt fun _ => "")]
  rfl

/-- The first row has no such column. -/
theorem raw_getColumn_outOfRange {t : ValueTable n} {idx : ℕ} (h : ¬HasColumn t idx) :
    t.raw.getColumn parse (idx - 1) = .error .outOfRange := by
  obtain ⟨hne, hle⟩ := not_or.mp h
  obtain ⟨row, rows, htable⟩ := List.exists_cons_of_ne_nil hne
  have hrow : row.length = t.schemas.length :=
    t.rectangular row (by rw [htable]; exact List.mem_cons_self)
  have hcell : access row (idx - 1) = .error .outOfRange := access_of_le (by omega)
  simp only [RawTable.getColumn, raw_table, htable, List.mapM_cons, hcell]
  rfl

theorem raw_cell (t : ValueTable n) {it_h it_w : ℕ} (hit_h : it_h < t.table.length)
    (hit_w : it_w < t.schemas.length) : t.raw.cell it_h it_w = .ok (t.cell it_h it_w) := by
  have hrow : (t.table.getD it_h []).length = t.schemas.length := by
    rw [List.getD_eq_getElem?_getD, List.getElem?_eq_getElem hit_h]
    exact t.rectangular _ (List.getElem_mem hit_h)
  rw [RawTable.cell, raw_table, Except.bind_ok (access_of_lt hit_h [])]
  exact access_of_lt (by omega) _

theorem raw_joinRows (t join_table : ValueTable n) {its : List (ℕ × ℕ)}
    (hits : ∀ it ∈ its, it.1 < t.table.length ∧ it.2 < join_table.table.length) :
    t.raw.joinRows join_table.raw its = .ok (t.joinRows join_table its).raw := by
  have hschemas : (unionValueIndex lessString t.schemas join_table.schemas).2.mapM
      (access join_table.schemas)
        = .ok ((t.schemas_join_it join_table).map (join_table.schemas.getD · "")) :=
    mapM_eq_ok fun it_w hit_w => access_of_lt (unionValueIndex_lt hit_w) ""
  have htable : (its.mapM fun it => do
      let left ← (List.range t.schemas.length).mapM (t.raw.cell it.1)
      let right ← (unionValueIndex lessString t.schemas join_table.schemas).2.mapM
        (join_table.raw.cell it.2)
      return left ++ right) = .ok (t.joinRows join_table its).table := by
    refine mapM_eq_ok fun it hit => ?_
    have hleft : (List.range t.schemas.length).mapM (t.raw.cell it.1)
        = .ok ((List.range t.schemas.length).map (t.cell it.1)) :=
      mapM_eq_ok fun it_w hit_w => t.raw_cell (hits it hit).1 (List.mem_range.mp hit_w)
    have hright : (unionValueIndex lessString t.schemas join_table.schemas).2.mapM
        (join_table.raw.cell it.2) = .ok (t.joinedCells join_table it.2) :=
      mapM_eq_ok fun it_w hit_w => join_table.raw_cell (hits it hit).2 (unionValueIndex_lt hit_w)
    rw [Except.bind_ok hleft, Except.bind_ok hright]
    rfl
  simp only [RawTable.joinRows, raw_schemas]
  rw [Except.bind_ok hschemas]
  exact Except.bind_ok htable _

variable {t join_table : ValueTable n} {idx idx_tgt : ℕ}

theorem length_keys (t : ValueTable n) (idx : ℕ) :
    ((t.getColumn parse (idx - 1)).map recons).length = t.table.length := by
  simp [getColumn]

theorem raw_hjoin (h : HasColumn t idx) (htgt : HasColumn join_table idx_tgt) :
    t.raw.hjoin parse join_table.raw idx idx_tgt
      = .ok (t.hjoin parse join_table idx idx_tgt).raw := by
  rw [RawTable.hjoin, Except.bind_ok (raw_getColumn parse h),
    Except.bind_ok (raw_getColumn parse htgt)]
  refine raw_joinRows t join_table fun it hit => ?_
  obtain ⟨hleft, hright⟩ := List.of_mem_zip hit
  have hlt := intersectionValueIndex_lt lessFloat ((t.getColumn parse (idx - 1)).map recons)
    ((join_table.getColumn parse (idx_tgt - 1)).map recons)
  rw [length_keys, length_keys] at hlt
  exact ⟨hlt.1 _ hleft, hlt.2 _ hright⟩

theorem raw_hjoinShare (h : HasColumn t idx) (htgt : HasColumn join_table idx_tgt) :
    t.raw.hjoinShare parse equals less join_table.raw idx idx_tgt
      = (run (t.hjoinShare parse equals less join_table idx idx_tgt)).map raw := by
  rw [RawTable.hjoinShare, Except.bind_ok (raw_getColumn parse h),
    Except.bind_ok (raw_getColumn parse htgt), hjoinShare]
  cases hits : intersectionSortedValueIndex equals less (t.getColumn parse (idx - 1))
      (join_table.getColumn parse (idx_tgt - 1)) with
  | error e => rfl
  | ok its =>
      have hlt := intersectionSortedFrom_lt _ _ 0 0 hits
      refine raw_joinRows t join_table fun it hit => ?_
      simpa [getColumn] using hlt it hit

theorem raw_vjoin (h : HasColumn t idx) (htgt : HasColumn join_table idx_tgt) :
    t.raw.vjoin parse join_table.raw idx idx_tgt
      = .ok (t.vjoin parse join_table idx idx_tgt).raw := by
  obtain ⟨hleft, hright⟩ := intersectionValueIndex_lt lessString t.schemas join_table.schemas
  rw [vjoin, RawTable.vjoin]
  simp only [raw_schemas, raw_table]
  set its := intersectionValueIndex lessString t.schemas join_table.schemas
  have hschemas : its.1.mapM (access t.schemas) = .ok (its.1.map (t.schemas.getD · "")) :=
    mapM_eq_ok fun it_w hit_w => access_of_lt (hleft it_w hit_w) ""
  have hrows : (t.table.mapM fun row => its.1.mapM (access row))
      = .ok (t.table.map fun row => its.1.map fun it_w => row.getD it_w fun _ => "") := by
    refine mapM_eq_ok fun row hrow => mapM_eq_ok fun it_w hit_w => access_of_lt ?_ _
    rw [t.rectangular row hrow]
    exact hleft it_w hit_w
  have hrows_tgt : ((unionValueIndex lessFloat ((t.getColumn parse (idx - 1)).map recons)
      ((join_table.getColumn parse (idx_tgt - 1)).map recons)).2.mapM fun it_h =>
        its.2.mapM (join_table.raw.cell it_h))
      = .ok ((unionValueIndex lessFloat ((t.getColumn parse (idx - 1)).map recons)
        ((join_table.getColumn parse (idx_tgt - 1)).map recons)).2.map fun it_h =>
          its.2.map (join_table.cell it_h)) := by
    refine mapM_eq_ok fun it_h hit_h => mapM_eq_ok fun it_w hit_w => ?_
    have hlt := unionValueIndex_lt hit_h
    rw [length_keys] at hlt
    exact join_table.raw_cell hlt (hright it_w hit_w)
  rw [Except.bind_ok hschemas, Except.bind_ok (raw_getColumn parse h),
    Except.bind_ok (raw_getColumn parse htgt), Except.bind_ok hrows, Except.bind_ok hrows_tgt]
  rfl

/-- A join on columns that are there accesses nothing else. -/
theorem raw_joinOnce (h : HasColumn t idx) (htgt : HasColumn join_table idx_tgt) (kind : ℤ) :
    RawTable.joinOnce parse equals less t.raw join_table.raw kind idx idx_tgt
      = (run (joinOnce parse equals less t join_table kind idx idx_tgt)).map raw := by
  unfold RawTable.joinOnce joinOnce
  split
  · exact raw_hjoin parse h htgt
  · split
    · exact raw_vjoin parse h htgt
    · exact raw_hjoinShare parse equals less h htgt

theorem raw_joinOnce_outOfRange (h : ¬HasColumn t idx) (kind : ℤ) :
    RawTable.joinOnce parse equals less t.raw join_table.raw kind idx idx_tgt
      = .error .outOfRange := by
  have hcolumn := raw_getColumn_outOfRange parse h
  have hschemas : (intersectionValueIndex lessString t.schemas join_table.schemas).1.mapM
      (access t.schemas) = .ok _ :=
    mapM_eq_ok fun it_w hit_w =>
      access_of_lt ((intersectionValueIndex_lt _ _ _).1 it_w hit_w) ""
  unfold RawTable.joinOnce
  split
  · exact Except.bind_error hcolumn _
  · split
    · rw [RawTable.vjoin]
      simp only [raw_schemas]
      rw [Except.bind_ok hschemas]
      exact Except.bind_error hcolumn _
    · exact Except.bind_error hcolumn _

end Joins

/-! ### Chains in range -/

section Chains

variable (parse : String → FixedPoint)
  (equals less : Share n FixedPoint → Share n FixedPoint → Run Bool)
  (values : List (ValueTable n)) (join : List ℤ) (index : List ℕ)

/-- A request on tables that have a row, with indexes of their columns. -/
structure Stored : Prop where
  values_length : values.length = join.length + 1
  index_length : index.length = join.length + 1
  rows : ∀ t ∈ values, t.table ≠ []
  columns : ∀ e ∈ values.zip index, 0 < e.2 ∧ e.2 ≤ e.1.schemas.length

/-- A horizontal join matches some rows. -/
def Matches (t join_table : ValueTable n) (kind : ℤ) (idx idx_tgt : ℕ) : Prop :=
  if kind = 0 then
    ∃ id ∈ (t.getColumn parse (idx - 1)).map recons,
      find lessFloat id (emplaceFrom lessFloat 0
        ((join_table.getColumn parse (idx_tgt - 1)).map recons) []) ≠ none
  else
    intersectionSortedValueIndex equals less (t.getColumn parse (idx - 1))
      (join_table.getColumn parse (idx_tgt - 1)) ≠ .ok []

/-- A chain whose tables have the column that they are joined on, and whose last join, if
it is a horizontal one, matches some rows. -/
def Readable : Prop :=
  ∀ (it : ℕ) (t : ValueTable n), Accumulated parse equals less values join index it t →
    it < join.length →
      HasColumn t (index.getD 0 0)
        ∧ (it + 1 = join.length → join.getD it 0 ≠ 1 →
          Matches parse equals less t (values.getD (it + 1) default) (join.getD it 0)
            (index.getD 0 0) (index.getD (it + 1) 0))

/-- `readDb` accesses what exists only, and has the shape of the joined table. -/
def ReadsInRange : Prop :=
  RawTable.readDb parse equals less (values.map raw) join index ≠ .error .outOfRange
    ∧ ∀ t, parseRead parse equals less values join index = .ok t →
      ∃ share_table,
        RawTable.readDb parse equals less (values.map raw) join index = .ok share_table
        ∧ share_table.length = t.table.length
        ∧ ∀ row ∈ share_table, row.length = t.schemas.length

variable {parse equals less values join index}

theorem joinRows_table_eq_nil (t join_table : ValueTable n) (its : List (ℕ × ℕ)) :
    (t.joinRows join_table its).table = [] ↔ its = [] := by
  simp [joinRows]

theorem hjoin_table_eq_nil (t join_table : ValueTable n) (idx idx_tgt : ℕ) :
    (t.hjoin parse join_table idx idx_tgt).table = []
      ↔ ¬Matches parse equals less t join_table 0 idx idx_tgt := by
  rw [hjoin, joinRows_table_eq_nil, zip_intersectionValueIndex, List.filterMap_eq_nil_iff,
    Matches, if_pos rfl]
  simp only [not_exists, not_and, not_not]
  constructor
  · intro h id hid
    obtain ⟨i, hi⟩ := List.mem_iff_getElem?.mp hid
    exact Option.map_eq_none_iff.mp (h (id, i) (List.mem_zipIdx_iff_getElem?.mpr hi))
  · intro h e he
    rw [h e.1 (List.fst_mem_of_mem_zipIdx he)]
    rfl

/-- A `vjoin` with a table that has rows has rows. -/
theorem vjoin_table_ne_nil (t : ValueTable n) {join_table : ValueTable n}
    (h : join_table.table ≠ []) (idx idx_tgt : ℕ) :
    (t.vjoin parse join_table idx idx_tgt).table ≠ [] := by
  intro hnil
  obtain ⟨hleft, hright⟩ := List.append_eq_nil_iff.mp hnil
  have ht : t.table = [] := List.map_eq_nil_iff.mp hleft
  have hnew := List.map_eq_nil_iff.mp hright
  -- without a left row every right row is new
  obtain ⟨row, rows, htable⟩ := List.exists_cons_of_ne_nil h
  simp [unionValueIndex, getColumn, ht, htable, find] at hnew

/-- When a join leaves no row. -/
theorem joinOnce_table_eq_nil {t join_table joined : ValueTable n} {kind : ℤ} {idx idx_tgt : ℕ}
    (hrows : join_table.table ≠ [])
    (h : joinOnce parse equals less t join_table kind idx idx_tgt = .ok joined) :
    joined.table = []
      ↔ ¬(kind ≠ 1 → Matches parse equals less t join_table kind idx idx_tgt) := by
  unfold joinOnce at h
  by_cases h₀ : kind = 0
  · subst h₀
    obtain rfl := Except.ok.inj h
    simpa using hjoin_table_eq_nil t join_table idx idx_tgt
  · by_cases h₁ : kind = 1
    · subst h₁
      obtain rfl := Except.ok.inj h
      simpa using vjoin_table_ne_nil t hrows idx idx_tgt
    · rw [if_neg h₀, if_neg h₁] at h
      obtain ⟨its, hits, h⟩ := Except.bind_eq_ok h
      obtain rfl := Except.ok.inj h
      rw [joinRows_table_eq_nil, Matches, if_neg h₀, hits]
      simp [h₁]

namespace Stored

variable (h : Stored values join index)

include h

theorem access_value {it : ℕ} (hit : it ≤ join.length) :
    access (values.map raw) it = .ok (values.getD it default).raw := by
  have hlt : it < values.length := by
    rw [h.values_length]
    omega
  rw [access_of_lt (by simpa using hlt) (default : ValueTable n).raw]
  simp [List.getD_eq_getElem?_getD, hlt]

theorem value_mem {it : ℕ} (hit : it ≤ join.length) : values.getD it default ∈ values := by
  have hlt : it < values.length := by
    rw [h.values_length]
    omega
  exact getD_mem hlt default

/-- A stored table has the column of its own index. -/
theorem hasColumn {it : ℕ} (hit : it ≤ join.length) :
    HasColumn (values.getD it default) (index.getD it 0) := by
  have hlt : it < values.length := by
    rw [h.values_length]
    omega
  have hlt' : it < index.length := by
    rw [h.index_length]
    omega
  have hcolumns : 0 < index.getD it 0 ∧ index.getD it 0 ≤ (values.getD it default).schemas.length :=
    h.columns _ (getD_mem_zip hlt hlt' default 0)
  exact .inr (by omega)

theorem raw_joinFunc {it : ℕ} (hit : it < join.length) (t : RawTable n) :
    RawTable.joinFunc parse equals less (values.map raw) join index t it
      = (do
        let joined ← RawTable.joinOnce parse equals less t (values.getD (it + 1) default).raw
          (join.getD it 0) (index.getD 0 0) (index.getD (it + 1) 0)
        RawTable.joinFunc parse equals less (values.map raw) join index joined (it + 1)) := by
  have hindex := h.index_length
  rw [RawTable.joinFunc, if_pos hit, Except.bind_ok (access_of_lt hit 0),
    Except.bind_ok (h.access_value hit), Except.bind_ok (access_of_lt (by omega) 0),
    Except.bind_ok (access_of_lt (by omega) 0)]

/-- With the columns in place the chain is that of `parseRead`. -/
theorem raw_joinFunc_eq (hcolumns : ∀ it t, Accumulated parse equals less values join index it t →
      it < join.length → HasColumn t (index.getD 0 0)) {it : ℕ} {t : ValueTable n}
    (ht : Accumulated parse equals less values join index it t) (hit : it ≤ join.length) :
    RawTable.joinFunc parse equals less (values.map raw) join index t.raw it
      = (run (joinFunc parse equals less values join index t it)).map raw := by
  induction hleft : join.length - it generalizing t it with
  | zero =>
      have hge : ¬it < join.length := by omega
      rw [RawTable.joinFunc, if_neg hge, joinFunc, if_neg hge]
      rfl
  | succ left ih =>
      have hlt : it < join.length := by omega
      rw [h.raw_joinFunc hlt, raw_joinOnce parse equals less (hcolumns it t ht hlt)
        (h.hasColumn hlt), joinFunc, if_pos hlt]
      cases hjoin : joinOnce parse equals less t (values.getD (it + 1) default) (join.getD it 0)
          (index.getD 0 0) (index.getD (it + 1) 0) with
      | error e => rfl
      | ok joined => exact ih (ht.step hlt hjoin) hlt (by omega)

/-- Up to each accumulated table the columns were in place, or an access has failed. -/
theorem raw_parseRead_of_accumulated {it : ℕ} {t : ValueTable n}
    (ht : Accumulated parse equals less values join index it t) :
    RawTable.parseRead parse equals less (values.map raw) join index
        = RawTable.joinFunc parse equals less (values.map raw) join index t.raw it
      ∨ RawTable.parseRead parse equals less (values.map raw) join index
        = .error .outOfRange := by
  induction ht with
  | start => exact .inl (Except.bind_ok (h.access_value (Nat.zero_le _)) _)
  | @step it t joined _ hit hjoin ih =>
      rcases ih with hrun | hfault
      · rw [h.raw_joinFunc hit] at hrun
        by_cases hcolumn : HasColumn t (index.getD 0 0)
        · rw [raw_joinOnce parse equals less hcolumn (h.hasColumn hit), hjoin] at hrun
          exact .inl hrun
        · rw [raw_joinOnce_outOfRange parse equals less hcolumn] at hrun
          exact .inr hrun
      · exact .inr hfault

theorem raw_parseRead_outOfRange {it : ℕ} {t : ValueTable n}
    (ht : Accumulated parse equals less values join index it t) (hit : it < join.length)
    (hcolumn : ¬HasColumn t (index.getD 0 0)) :
    RawTable.parseRead parse equals less (values.map raw) join index = .error .outOfRange := by
  rcases h.raw_parseRead_of_accumulated ht with hrun | hfault
  · rw [hrun, h.raw_joinFunc hit, raw_joinOnce_outOfRange parse equals less hcolumn]
    rfl
  · exact hfault

end Stored

/-- What a chain of joins returns is the table of `parseRead`. -/
theorem Stored.exists_joinFunc (h : Stored values join index) {it : ℕ} {t : ValueTable n}
    {r : RawTable n} (hit : it ≤ join.length)
    (hr : RawTable.joinFunc parse equals less (values.map raw) join index t.raw it = .ok r) :
    ∃ t', joinFunc parse equals less values join index t it = .ok t' ∧ t'.raw = r := by
  induction hleft : join.length - it generalizing t it with
  | zero =>
      have hge : ¬it < join.length := by omega
      rw [RawTable.joinFunc, if_neg hge] at hr
      exact ⟨t, by rw [joinFunc, if_neg hge]; rfl, Except.ok.inj hr⟩
  | succ left ih =>
      have hlt : it < join.length := by omega
      rw [h.raw_joinFunc hlt] at hr
      by_cases hcolumn : HasColumn t (index.getD 0 0)
      · rw [raw_joinOnce parse equals less hcolumn (h.hasColumn hlt)] at hr
        rw [joinFunc, if_pos hlt]
        cases hjoin : joinOnce parse equals less t (values.getD (it + 1) default) (join.getD it 0)
            (index.getD 0 0) (index.getD (it + 1) 0) with
        | error e =>
            rw [hjoin] at hr
            cases hr
        | ok joined =>
            rw [hjoin] at hr
            exact ih hlt hr (by omega)
      · rw [raw_joinOnce_outOfRange parse equals less hcolumn] at hr
        cases hr

/-- The part of a table that a party reads. -/
def joinTable (t : ValueTable n) (i : Fin n) : JobRun.JoinTable where
  table := t.table.map fun row => row.map fun cell => cell i
  schemas := t.schemas
  rectangular := by
    intro row hrow
    obtain ⟨row, hmem, rfl⟩ := List.mem_map.mp hrow
    rw [List.length_map, t.rectangular row hmem]

/-- What is read of stored tables, a run at a party may take for its joined table. -/
theorem Stored.exists_joinTable (h : Stored values join index) {r : RawTable n}
    (hr : RawTable.parseRead parse equals less (values.map raw) join index = .ok r) (i : Fin n) :
    ∃ table : JobRun.JoinTable,
      table.table = (r.table.map fun row => row.map fun cell => cell i) ∧
        table.schemas = r.schemas := by
  rw [RawTable.parseRead, Except.bind_ok (h.access_value (Nat.zero_le _))] at hr
  obtain ⟨t, -, rfl⟩ := h.exists_joinFunc (Nat.zero_le _) hr
  exact ⟨joinTable t i, rfl, rfl⟩

/-- The share table of a table that has a row. -/
theorem raw_readDb {t : ValueTable n}
    (ht : RawTable.parseRead parse equals less (values.map raw) join index = .ok t.raw) :
    RawTable.readDb parse equals less (values.map raw) join index
      = if t.table = [] then .error .outOfRange
        else .ok ((List.range t.table.length).map fun i =>
          (List.range t.schemas.length).map fun j => ⟨fun k => parse (t.cell i j k)⟩) := by
  rw [RawTable.readDb, Except.bind_ok ht]
  split
  next hnil =>
    simp only [raw_table, hnil]
    rfl
  next hne =>
    obtain ⟨row, rows, htable⟩ := List.exists_cons_of_ne_nil hne
    have hfirst : access t.raw.table 0 = .ok row := by
      rw [raw_table, htable]
      rfl
    have hrow : row.length = t.schemas.length :=
      t.rectangular row (by rw [htable]; exact List.mem_cons_self)
    simp only
    rw [Except.bind_ok hfirst, hrow]
    refine mapM_eq_ok fun i hi => mapM_eq_ok fun j hj => ?_
    rw [Except.bind_ok (t.raw_cell (List.mem_range.mp hi) (List.mem_range.mp hj))]
    rfl

/-- A joined table without rows has no first row. -/
theorem Stored.raw_readDb_outOfRange (h : Stored values join index) {it : ℕ} {t : ValueTable n}
    (ht : Accumulated parse equals less values join index it t) (hit : it = join.length)
    (hnil : t.table = []) :
    RawTable.readDb parse equals less (values.map raw) join index = .error .outOfRange := by
  rcases h.raw_parseRead_of_accumulated ht with hrun | hfault
  · have hge : ¬it < join.length := by omega
    rw [RawTable.joinFunc, if_neg hge] at hrun
    rw [raw_readDb hrun, if_pos hnil]
  · exact Except.bind_error hfault _

/-- A join without a match returns a table. -/
theorem joinOnce_of_not_matches {t join_table : ValueTable n} {kind : ℤ} {idx idx_tgt : ℕ}
    (hkind : kind ≠ 1) (h : ¬Matches parse equals less t join_table kind idx idx_tgt) :
    ∃ joined, joinOnce parse equals less t join_table kind idx idx_tgt = .ok joined := by
  unfold joinOnce
  by_cases h₀ : kind = 0
  · exact ⟨_, if_pos h₀⟩
  · rw [Matches, if_neg h₀, not_not] at h
    rw [if_neg h₀, if_neg hkind]
    exact ⟨_, Except.bind_ok h _⟩

theorem Readable.table_ne_nil (hreadable : Readable parse equals less values join index)
    (h : Stored values join index) {it : ℕ} {t : ValueTable n}
    (ht : Accumulated parse equals less values join index it t) (hit : it = join.length) :
    t.table ≠ [] := by
  cases ht with
  | start => exact h.rows _ (h.value_mem (Nat.zero_le _))
  | @step it t joined ht hlt hjoin =>
      intro hnil
      have hrows := h.rows _ (h.value_mem hlt)
      exact (joinOnce_table_eq_nil hrows hjoin).mp hnil ((hreadable it t ht hlt).2 hit)

theorem Readable.raw_parseRead (hreadable : Readable parse equals less values join index)
    (h : Stored values join index) :
    RawTable.parseRead parse equals less (values.map raw) join index
      = (run (parseRead parse equals less values join index)).map raw := by
  rw [RawTable.parseRead, Except.bind_ok (h.access_value (Nat.zero_le _))]
  exact h.raw_joinFunc_eq (fun it t ht hit => (hreadable it t ht hit).1) .start (Nat.zero_le _)

/-- **When `readDb` stays in range.** On stored tables it accesses what exists only, and
has the shape of the joined table, exactly when in every step the accumulated table has
column `index[0]`, or no rows, and the last join leaves a row. -/
theorem readDb_inRange_iff (h : Stored values join index) :
    ReadsInRange parse equals less values join index
      ↔ Readable parse equals less values join index := by
  constructor
  · intro hreads it t ht hit
    have hcolumn : HasColumn t (index.getD 0 0) := by
      by_contra hno
      exact hreads.1 (Except.bind_error (h.raw_parseRead_outOfRange ht hit hno) _)
    refine ⟨hcolumn, fun hlast hkind => ?_⟩
    by_contra hmatch
    -- the last join leaves a table without a first row
    obtain ⟨joined, hjoin⟩ := joinOnce_of_not_matches hkind hmatch
    have hnil : joined.table = [] := by
      rw [joinOnce_table_eq_nil (h.rows _ (h.value_mem hit)) hjoin]
      exact fun himp => hmatch (himp hkind)
    exact hreads.1 (h.raw_readDb_outOfRange (ht.step hit hjoin) hlast hnil)
  · intro hreadable
    have hparse := hreadable.raw_parseRead h
    cases hr : parseRead parse equals less values join index with
    | error e =>
        rw [hr] at hparse
        have hread : RawTable.readDb parse equals less (values.map raw) join index
            = .error (.aborted e) := Except.bind_error hparse _
        constructor
        · rw [hread]
          simp
        · intro t ht
          rw [hr] at ht
          cases ht
    | ok r =>
        rw [hr] at hparse
        have hne := hreadable.table_ne_nil h (parseRead_eq_ok hr) rfl
        have hread := raw_readDb hparse
        rw [if_neg hne] at hread
        constructor
        · rw [hread]
          simp
        · intro t ht
          rw [hr] at ht
          obtain rfl := Except.ok.inj ht
          refine ⟨_, hread, by simp, fun row hrow => ?_⟩
          obtain ⟨i, -, rfl⟩ := List.mem_map.mp hrow
          simp

end Chains

/-! ### Two requests that are read -/

/-- Three tables: a vertical join, which makes a third row, and a horizontal one, which
matches two of them. -/
theorem readDb_inRange_iff_match :
    let values := [sample "x" [("1", "5"), ("2", "6")], sample "x" [("2", "7"), ("0", "8")],
      sample "y" [("2", "9"), ("1", "4")]]
    (∃ t, Accumulated parseSample equalsSample lessSample values [1, 0] [1, 1, 1] 1 t ∧
      t.table.length = 3) ∧
    (∃ t, Accumulated parseSample equalsSample lessSample values [1, 0] [1, 1, 1] 2 t ∧
      t.table.length = 2) ∧
    (ReadsInRange parseSample equalsSample lessSample values [1, 0] [1, 1, 1]
      ↔ Readable parseSample equalsSample lessSample values [1, 0] [1, 1, 1]) := by
  intro values
  have hfirst : Accumulated parseSample equalsSample lessSample values [1, 0] [1, 1, 1] 1 _ :=
    .step .start (by decide) rfl
  have hsecond : Accumulated parseSample equalsSample lessSample values [1, 0] [1, 1, 1] 2 _ :=
    .step hfirst (by decide) rfl
  exact ⟨⟨_, hfirst, by decide +kernel⟩, ⟨_, hsecond, by decide +kernel⟩,
    readDb_inRange_iff ⟨rfl, rfl, by decide, by decide⟩⟩

/-- Two tables with no key in common: the joined table has no first row. -/
theorem readDb_outOfRange :
    let values := [oneRow ("id", "1") ("x", "5"), oneRow ("id", "2") ("y", "6")]
    Stored values [0] [1, 1]
      ∧ ¬ReadsInRange parseSample equalsSample lessSample values [0] [1, 1]
      ∧ RawTable.readDb parseSample equalsSample lessSample (values.map raw) [0] [1, 1]
        = .error .outOfRange := by
  intro values
  have hstored : Stored values [0] [1, 1] := ⟨rfl, rfl, by decide, by decide⟩
  have hjoined : Accumulated parseSample equalsSample lessSample values [0] [1, 1] 1 _ :=
    .step .start (by decide) rfl
  have hread := hstored.raw_readDb_outOfRange hjoined rfl (by decide +kernel)
  exact ⟨hstored, fun h => h.1 hread, hread⟩

end QuickMpc.ValueTable
