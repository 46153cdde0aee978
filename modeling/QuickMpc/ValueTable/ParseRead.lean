import QuickMpc.ValueTable.NamedRows

/-!
# QuickMpc.ValueTable.ParseRead

A chain of joins, as `parseRead` folds it over the tables of a request.

Every step joins the accumulated table on its column `index[0]`, which was chosen in the
schema of the first table. Horizontal joins append columns and leave it in place;
`vjoin` drops the columns that the other table does not have. `key_column_iff` says when
the column stays the one of the key.
-/

namespace QuickMpc.ValueTable

variable {n : ℕ} (parse : String → FixedPoint)
  (equals less : Share n FixedPoint → Share n FixedPoint → Run Bool)

instance : Inhabited (ValueTable n) := ⟨⟨[], [], by simp⟩⟩

/-- One join of `joinFunc`: 0 is `hjoin`, 1 is `vjoin`, any other kind is `hjoinShare`. -/
def joinOnce (t join_table : ValueTable n) (kind : ℤ) (idx idx_tgt : ℕ) : Run (ValueTable n) :=
  if kind = 0 then .ok (t.hjoin parse join_table idx idx_tgt)
  else if kind = 1 then .ok (t.vjoin parse join_table idx idx_tgt)
  else t.hjoinShare parse equals less join_table idx idx_tgt

variable (values : List (ValueTable n)) (join : List ℤ) (index : List ℕ)

/-- `joinFunc` of `parseRead`. -/
def joinFunc (t : ValueTable n) (it : ℕ) : Run (ValueTable n) :=
  if it < join.length then do
    let joined ← joinOnce parse equals less t (values.getD (it + 1) default) (join.getD it 0)
      (index.getD 0 0) (index.getD (it + 1) 0)
    joinFunc joined (it + 1)
  else return t
termination_by join.length - it

def parseRead : Run (ValueTable n) :=
  joinFunc parse equals less values join index (values.getD 0 default) 0

/-- The tables that `joinFunc` is called with. -/
inductive Accumulated : ℕ → ValueTable n → Prop
  | start : Accumulated 0 (values.getD 0 default)
  | step {it : ℕ} {t joined : ValueTable n} : Accumulated it t → it < join.length →
      joinOnce parse equals less t (values.getD (it + 1) default) (join.getD it 0)
        (index.getD 0 0) (index.getD (it + 1) 0) = .ok joined →
      Accumulated (it + 1) joined

/-- A request whose indexes all point at the column `key`. -/
structure Keyed (key : String) : Prop where
  values_length : values.length = join.length + 1
  index_length : index.length = join.length + 1
  nodup : ∀ t ∈ values, t.schemas.Nodup
  key_at : ∀ e ∈ values.zip index, 0 < e.2 ∧ e.1.schemas[e.2 - 1]? = some key

/-- In every table that is joined on, column `index[0]` is the one of `key`. -/
def KeepsKey (key : String) : Prop :=
  ∀ (it : ℕ) (t : ValueTable n), Accumulated parse equals less values join index it t → it < join.length →
    t.schemas[index.getD 0 0 - 1]? = some key

/-- Before its last join, a request has no `vjoin` that drops a column of the first table
that stands before the key. -/
def KeepsLeft : Prop :=
  ∀ it, it + 1 < join.length → join.getD it 0 = 1 →
    ∀ name ∈ (values.getD 0 default).schemas.take (index.getD 0 0 - 1),
      name ∈ (values.getD (it + 1) default).schemas

variable {parse equals less values join index}

/-! ### Runs -/

/-- What `joinFunc` returns is the last accumulated table. -/
theorem joinFunc_eq_ok {t r : ValueTable n} {it : ℕ}
    (ht : Accumulated parse equals less values join index it t) (hit : it ≤ join.length)
    (hr : joinFunc parse equals less values join index t it = .ok r) :
    Accumulated parse equals less values join index join.length r := by
  induction hleft : join.length - it generalizing t it with
  | zero =>
      have hge : ¬it < join.length := by omega
      rw [joinFunc, if_neg hge] at hr
      obtain rfl : t = r := Except.ok.inj hr
      obtain rfl : it = join.length := by omega
      exact ht
  | succ left ih =>
      have hlt : it < join.length := by omega
      rw [joinFunc, if_pos hlt] at hr
      cases hjoin : joinOnce parse equals less t (values.getD (it + 1) default) (join.getD it 0)
          (index.getD 0 0) (index.getD (it + 1) 0) with
      | error e =>
          rw [hjoin] at hr
          cases hr
      | ok joined =>
          rw [hjoin] at hr
          exact ih (ht.step hlt hjoin) hlt hr (by omega)

theorem parseRead_eq_ok {r : ValueTable n}
    (hr : parseRead parse equals less values join index = .ok r) :
    Accumulated parse equals less values join index join.length r :=
  joinFunc_eq_ok .start (Nat.zero_le _) hr

/-! ### Schemas -/

theorem joinRows_schemas (t join_table : ValueTable n) (its : List (ℕ × ℕ)) :
    (t.joinRows join_table its).schemas
      = t.schemas ++ join_table.schemas.filter fun name => name ∉ t.schemas :=
  congrArg (t.schemas ++ ·) (schemas_join_it_names t join_table)

/-- The schema after one join. -/
def joinedSchemas (kind : ℤ) (schemas schemas_tgt : List String) : List String :=
  if kind = 1 then schemas.filter fun name => name ∈ schemas_tgt
  else schemas ++ schemas_tgt.filter fun name => name ∉ schemas

theorem joinOnce_schemas {t join_table joined : ValueTable n} {kind : ℤ} {idx idx_tgt : ℕ}
    (h : joinOnce parse equals less t join_table kind idx idx_tgt = .ok joined) :
    joined.schemas = joinedSchemas kind t.schemas join_table.schemas := by
  unfold joinOnce at h
  unfold joinedSchemas
  by_cases h₀ : kind = 0
  · subst h₀
    obtain rfl := Except.ok.inj h
    exact joinRows_schemas t join_table _
  · by_cases h₁ : kind = 1
    · subst h₁
      obtain rfl := Except.ok.inj h
      exact vjoin_schemas parse t join_table idx idx_tgt
    · rw [if_neg h₀, if_neg h₁] at h
      rw [if_neg h₁]
      simp only [hjoinShare, bind, Except.bind] at h
      split at h
      · cases h
      · obtain rfl := Except.ok.inj h
        exact joinRows_schemas t join_table _

theorem joinedSchemas_nodup {kind : ℤ} {schemas schemas_tgt : List String} (h : schemas.Nodup)
    (h' : schemas_tgt.Nodup) : (joinedSchemas kind schemas schemas_tgt).Nodup := by
  unfold joinedSchemas
  split
  · exact h.filter _
  · refine List.nodup_append'.mpr ⟨h, h'.filter _, fun name hname hname' => ?_⟩
    exact of_decide_eq_true (List.mem_filter.mp hname').2 hname

/-- The columns of a schema up to the key. -/
def Leads (left : List String) (key : String) (schemas : List String) : Prop :=
  ∃ rest, schemas = left ++ key :: rest

/-- A join keeps the columns up to the key in place if it keeps those before it. -/
theorem Leads.joined {left : List String} {key : String} {schemas schemas_tgt : List String}
    {kind : ℤ} (h : Leads left key schemas) (hkey : key ∈ schemas_tgt)
    (hleft : kind = 1 → ∀ name ∈ left, name ∈ schemas_tgt) :
    Leads left key (joinedSchemas kind schemas schemas_tgt) := by
  obtain ⟨rest, rfl⟩ := h
  unfold joinedSchemas
  by_cases hkind : kind = 1
  · have hkeep : (left.filter fun name => name ∈ schemas_tgt) = left :=
      List.filter_eq_self.mpr fun name hname => decide_eq_true (hleft hkind name hname)
    rw [if_pos hkind, List.filter_append, hkeep, List.filter_cons_of_pos (by simpa using hkey)]
    exact ⟨_, rfl⟩
  · rw [if_neg hkind, List.append_assoc]
    exact ⟨_, rfl⟩

/-- A `vjoin` that leaves the key at its index keeps the columns before it. -/
theorem Leads.kept {left : List String} {key : String} {schemas schemas_tgt : List String}
    (h : Leads left key schemas) (hnodup : schemas.Nodup) (hkey : key ∈ schemas_tgt)
    (hat : (joinedSchemas 1 schemas schemas_tgt)[left.length]? = some key) :
    ∀ name ∈ left, name ∈ schemas_tgt := by
  obtain ⟨rest, rfl⟩ := h
  rw [joinedSchemas, if_pos rfl, List.filter_append, List.filter_cons_of_pos (by simpa using hkey)]
    at hat
  have hle := List.length_filter_le (fun name => decide (name ∈ schemas_tgt)) left
  rcases hle.eq_or_lt with heq | hlt
  · intro name hname
    have hall := List.length_filter_eq_length_iff.mp heq name hname
    exact of_decide_eq_true hall
  · -- the key would stand after itself
    obtain ⟨k, hk⟩ := Nat.exists_eq_add_of_lt hlt
    have hk' : left.length - (left.filter fun name => name ∈ schemas_tgt).length = k + 1 := by
      omega
    rw [List.getElem?_append_right hle, hk', List.getElem?_cons_succ] at hat
    have hmem : key ∈ rest := List.mem_of_mem_filter (List.mem_of_getElem? hat)
    have hrest := (List.nodup_append'.mp hnodup).2.1
    exact absurd hmem (List.nodup_cons.mp hrest).1

/-! ### Returning joins -/

section Returns

variable (hequals : ∀ x y, ∃ b, equals x y = .ok b) (hless : ∀ x y, ∃ b, less x y = .ok b)

include hequals hless

theorem intersectionSortedFrom_returns (v1 v2 : List (Share n FixedPoint)) (i1 i2 : ℕ) :
    ∃ its, intersectionSortedFrom equals less v1 v2 i1 i2 = .ok its := by
  induction v1, v2, i1, i2 using intersectionSortedFrom.induct with
  | case1 x xs y ys i1 i2 ih₁ ih₂ ih₃ =>
      obtain ⟨b, hb⟩ := hequals x y
      obtain ⟨c, hc⟩ := hless x y
      obtain ⟨its₁, h₁⟩ := ih₁
      rw [intersectionSortedFrom, hb, hc]
      simp only [bind, Except.bind, h₁]
      cases b with
      | true => exact ⟨_, rfl⟩
      | false =>
          cases c with
          | true => exact ih₂
          | false => exact ih₃
  | case2 v2 i1 i2 => exact ⟨[], by rw [intersectionSortedFrom]; rfl⟩
  | case3 x xs i1 i2 => exact ⟨[], by rw [intersectionSortedFrom]; rfl⟩

theorem joinOnce_returns (t join_table : ValueTable n) (kind : ℤ) (idx idx_tgt : ℕ) :
    ∃ joined, joinOnce parse equals less t join_table kind idx idx_tgt = .ok joined := by
  unfold joinOnce
  split
  · exact ⟨_, rfl⟩
  · split
    · exact ⟨_, rfl⟩
    · obtain ⟨its, hits⟩ := intersectionSortedFrom_returns hequals hless
        (t.getColumn parse (idx - 1)) (join_table.getColumn parse (idx_tgt - 1)) 0 0
      simp only [hjoinShare, intersectionSortedValueIndex, hits]
      exact ⟨_, rfl⟩

/-- Every step of the chain is reached. -/
theorem exists_accumulated {it : ℕ} (hit : it ≤ join.length) :
    ∃ t, Accumulated parse equals less values join index it t := by
  induction it with
  | zero => exact ⟨_, .start⟩
  | succ it ih =>
      obtain ⟨t, ht⟩ := ih (by omega)
      obtain ⟨joined, hjoined⟩ := joinOnce_returns hequals hless t (values.getD (it + 1) default)
        (join.getD it 0) (index.getD 0 0) (index.getD (it + 1) 0)
      exact ⟨joined, ht.step hit hjoined⟩

end Returns

/-! ### The key column -/

theorem getD_mem {α : Type} {l : List α} {i : ℕ} (h : i < l.length) (d : α) : l.getD i d ∈ l := by
  rw [← List.getElem_eq_getD (h := h) d]
  exact List.getElem_mem h

theorem getD_mem_zip {α β : Type} {l : List α} {l' : List β} {i : ℕ} (h : i < l.length)
    (h' : i < l'.length) (d : α) (d' : β) : (l.getD i d, l'.getD i d') ∈ l.zip l' := by
  rw [← List.getElem_eq_getD (h := h) d, ← List.getElem_eq_getD (h := h') d']
  exact List.mem_of_getElem? (List.getElem?_zip_eq_some.mpr
    ⟨List.getElem?_eq_getElem h, List.getElem?_eq_getElem h'⟩)

namespace Keyed

variable {key : String} (h : Keyed values join index key)

include h

theorem table_nodup {it : ℕ} (hit : it ≤ join.length) :
    (values.getD it default).schemas.Nodup := by
  have hlt : it < values.length := by
    rw [h.values_length]
    omega
  exact h.nodup _ (getD_mem hlt default)

theorem table_key {it : ℕ} (hit : it ≤ join.length) :
    (values.getD it default).schemas[index.getD it 0 - 1]? = some key := by
  have hlt : it < values.length := by
    rw [h.values_length]
    omega
  have hlt' : it < index.length := by
    rw [h.index_length]
    omega
  exact (h.key_at _ (getD_mem_zip hlt hlt' default 0)).2

/-- The columns before the key in the first table. -/
theorem length_left :
    ((values.getD 0 default).schemas.take (index.getD 0 0 - 1)).length = index.getD 0 0 - 1 := by
  obtain ⟨hlt, -⟩ := List.getElem?_eq_some_iff.mp (h.table_key (Nat.zero_le _))
  rw [List.length_take]
  omega

theorem leads_start :
    Leads ((values.getD 0 default).schemas.take (index.getD 0 0 - 1)) key
      (values.getD 0 default).schemas := by
  obtain ⟨hlt, hkey⟩ := List.getElem?_eq_some_iff.mp (h.table_key (Nat.zero_le _))
  refine ⟨(values.getD 0 default).schemas.drop (index.getD 0 0 - 1 + 1), ?_⟩
  rw [← hkey, ← List.drop_eq_getElem_cons hlt, List.take_append_drop]

theorem accumulated_nodup {it : ℕ} {t : ValueTable n}
    (ht : Accumulated parse equals less values join index it t) : t.schemas.Nodup := by
  induction ht with
  | start => exact h.table_nodup (Nat.zero_le _)
  | step _ hit hjoin ih =>
      rw [joinOnce_schemas hjoin]
      exact joinedSchemas_nodup ih (h.table_nodup hit)

theorem leads_getElem? {schemas : List String}
    (hleads : Leads ((values.getD 0 default).schemas.take (index.getD 0 0 - 1)) key schemas) :
    schemas[index.getD 0 0 - 1]? = some key := by
  obtain ⟨rest, rfl⟩ := hleads
  rw [List.getElem?_append_right h.length_left.le, h.length_left, Nat.sub_self,
    List.getElem?_cons_zero]

theorem mem_table_key {it : ℕ} (hit : it ≤ join.length) :
    key ∈ (values.getD it default).schemas := List.mem_of_getElem? (h.table_key hit)

/-- Without a `vjoin` that drops a column before the key, the key stays in place. -/
theorem accumulated_leads (hkeeps : KeepsLeft values join index) {it : ℕ} {t : ValueTable n}
    (ht : Accumulated parse equals less values join index it t) (hit : it < join.length) :
    Leads ((values.getD 0 default).schemas.take (index.getD 0 0 - 1)) key t.schemas := by
  induction ht with
  | start => exact h.leads_start
  | step _ hit' hjoin ih =>
      rw [joinOnce_schemas hjoin]
      exact (ih hit').joined (h.mem_table_key hit') (hkeeps _ hit)

/-- As long as the key is in place, no `vjoin` has dropped a column before it. -/
theorem leads_of_keepsKey (hkeeps : KeepsKey parse equals less values join index key) {it : ℕ}
    {t : ValueTable n} (ht : Accumulated parse equals less values join index it t)
    (hit : it < join.length) :
    Leads ((values.getD 0 default).schemas.take (index.getD 0 0 - 1)) key t.schemas := by
  induction ht with
  | start => exact h.leads_start
  | @step it t joined ht hit' hjoin ih =>
      have hat := hkeeps _ joined (ht.step hit' hjoin) hit
      rw [joinOnce_schemas hjoin] at hat ⊢
      refine (ih hit').joined (h.mem_table_key hit') fun hkind => ?_
      rw [hkind, ← h.length_left] at hat
      exact (ih hit').kept (h.accumulated_nodup ht) (h.mem_table_key hit') hat

end Keyed

/-- **When every step of a chain matches rows by the key.** Column `index[0]` is the one of
the key in every table that is joined on if no `vjoin` before the last join drops a column
of the first table that stands before the key, and, with comparisons that return, only
then. -/
theorem key_column_iff {key : String} (h : Keyed values join index key) :
    (KeepsLeft values join index → KeepsKey parse equals less values join index key)
      ∧ ((∀ x y, ∃ b, equals x y = .ok b) → (∀ x y, ∃ b, less x y = .ok b) →
        KeepsKey parse equals less values join index key → KeepsLeft values join index) := by
  constructor
  · intro hkeeps it t ht hit
    exact h.leads_getElem? (h.accumulated_leads hkeeps ht hit)
  · intro hequals hless hkeeps it hit hkind
    obtain ⟨t, ht⟩ : ∃ t, Accumulated parse equals less values join index it t :=
      exists_accumulated hequals hless (by omega)
    obtain ⟨joined, hjoin⟩ : ∃ joined, joinOnce parse equals less t
        (values.getD (it + 1) default) (join.getD it 0) (index.getD 0 0)
        (index.getD (it + 1) 0) = .ok joined := joinOnce_returns hequals hless _ _ _ _ _
    have hat := hkeeps _ joined (ht.step (by omega) hjoin) hit
    rw [joinOnce_schemas hjoin, hkind, ← h.length_left] at hat
    exact (h.leads_of_keepsKey hkeeps ht (by omega)).kept (h.accumulated_nodup ht)
      (h.mem_table_key (by omega)) hat

/-! ### Two requests -/

/-- A table of one row, whose texts the first of three parties holds. -/
def oneRow (column column' : String × String) : ValueTable 3 where
  table := [[![column.2, "0", "0"], ![column'.2, "0", "0"]]]
  schemas := [column.1, column'.1]
  rectangular := by simp

def equalsSample (x y : Share 3 FixedPoint) : Run Bool := .ok (decide (x.recons = y.recons))

def lessSample (x y : Share 3 FixedPoint) : Run Bool := .ok (decide (x.recons < y.recons))

/-- With the key first nothing stands before it. -/
theorem key_column_iff_first :
    let values := [oneRow ("id", "1") ("x", "5"), oneRow ("id", "2") ("y", "6"),
      oneRow ("z", "7") ("id", "1")]
    (KeepsLeft values [1, 0] [1, 1, 2] →
        KeepsKey parseSample equalsSample lessSample values [1, 0] [1, 1, 2] "id")
      ∧ ((∀ x y, ∃ b, equalsSample x y = .ok b) → (∀ x y, ∃ b, lessSample x y = .ok b) →
        KeepsKey parseSample equalsSample lessSample values [1, 0] [1, 1, 2] "id" →
          KeepsLeft values [1, 0] [1, 1, 2]) := by
  intro values
  exact key_column_iff ⟨rfl, rfl, by decide, by decide⟩

/-- A `vjoin` drops the column before the key, and the next join asks for a column that is
not there. -/
theorem vjoin_moves_key :
    let values := [oneRow ("x", "5") ("id", "1"), oneRow ("id", "2") ("y", "6"),
      oneRow ("id", "1") ("z", "7")]
    Keyed values [1, 0] [2, 1, 1] "id"
      ∧ ¬KeepsKey parseSample equalsSample lessSample values [1, 0] [2, 1, 1] "id"
      ∧ ∃ t, Accumulated parseSample equalsSample lessSample values [1, 0] [2, 1, 1] 1 t
        ∧ t.schemas = ["id"] := by
  intro values
  have hjoined : Accumulated parseSample equalsSample lessSample values [1, 0] [2, 1, 1] 1 _ :=
    .step .start (by decide) rfl
  have hschemas : ((values.getD 0 default).vjoin parseSample (values.getD 1 default) 2 1).schemas
      = ["id"] := by
    decide +kernel
  refine ⟨⟨rfl, rfl, by decide, by decide⟩, fun h => ?_, _, hjoined, hschemas⟩
  have hat := h 1 _ hjoined (by decide)
  rw [show ([2, 1, 1] : List ℕ).getD 0 0 = 2 from rfl] at hat
  exact absurd hat (by decide +kernel)

end QuickMpc.ValueTable
