import Mathlib.Tactic.Linarith
import QuickMpc.Lib.KeyJoin
import QuickMpc.Share

/-!
# QuickMpc.ValueTable

The tables of a computation and their joins on a key column.

Every party holds a table of the same shape with its own shares; a cell here is
the text of the share at each party, as a `Share` is its value at each party.
`hjoin` opens the two key columns and looks every left key up in a map of the
right keys; `vjoin` appends the rows with new keys, on the common columns.
`hjoinShare` keeps the keys secret and merges the two columns with the comparisons
of shares, which are parameters here (`equals` and `less`), as is the reading of a
decimal text (`parse`).

`hjoinShare_eq_hjoin_iff` says when the two joins return the same table.
-/

namespace QuickMpc

open KeyJoin (find emplace emplaceFrom merge ranked nthMatch)
open Share (recons)

variable {n : ℕ}

/-- A cell, as the text that each party holds. -/
abbrev Cell (n : ℕ) := Fin n → String

/-- A table whose rows have one cell for each column. -/
structure ValueTable (n : ℕ) where
  table : List (List (Cell n))
  schemas : List String
  rectangular : ∀ row ∈ table, row.length = schemas.length

namespace ValueTable

/-- Equality of tables is that of their rows and schemas. -/
theorem eq_iff {t t' : ValueTable n} : t = t' ↔ t.table = t'.table ∧ t.schemas = t'.schemas := by
  cases t
  cases t'
  simp

/-! ### Index lists -/

/-- `LessFloat` on fixed-point numbers: smaller by more than `eps = 1e-5`. -/
def lessFloat (x y : FixedPoint) : Bool := decide (x < y - FixedPoint.ofDouble (1 / 100000))

/-- `LessFloat` on strings. -/
def lessString (x y : String) : Bool := decide (x < y)

variable {T : Type}

/-- `intersectionValueIndex`: each row of `v1` whose value occurs in `v2`, with
the row that the map holds for it. -/
def intersectionValueIndex (less : T → T → Bool) (v1 v2 : List T) : List ℕ × List ℕ :=
  let v2_mp := emplaceFrom less 0 v2 []
  let its := v1.zipIdx.filterMap fun e => (find less e.1 v2_mp).map fun j => (e.2, j)
  (its.map Prod.fst, its.map Prod.snd)

/-- The matched rows as pairs. -/
theorem zip_intersectionValueIndex (less : T → T → Bool) (v1 v2 : List T) :
    (intersectionValueIndex less v1 v2).1.zip (intersectionValueIndex less v1 v2).2
      = v1.zipIdx.filterMap fun e =>
        (find less e.1 (emplaceFrom less 0 v2 [])).map fun j => (e.2, j) :=
  (List.zip_of_prod rfl rfl).symm

/-- `unionValueIndex`: all of `v1`, and what of `v2` does not occur in it. -/
def unionValueIndex (less : T → T → Bool) (v1 v2 : List T) : List ℕ × List ℕ :=
  let v1_st := v1.foldl (fun st x => emplace less x () st) []
  (List.range v1.length, (v2.zipIdx.filter fun e => (find less e.1 v1_st).isNone).map Prod.snd)

/-- The loop of `intersectionSortedValueIndex` from the rows `i1` and `i2` on. -/
def intersectionSortedFrom (equals less : T → T → Run Bool) :
    List T → List T → ℕ → ℕ → Run (List (ℕ × ℕ))
  | x :: xs, y :: ys, i1, i2 => do
    if ← equals x y then
      let it_list ← intersectionSortedFrom equals less xs ys (i1 + 1) (i2 + 1)
      return (i1, i2) :: it_list
    else if ← less x y then
      intersectionSortedFrom equals less xs (y :: ys) (i1 + 1) i2
    else
      intersectionSortedFrom equals less (x :: xs) ys i1 (i2 + 1)
  | [], _, _, _ => return []
  | _ :: _, [], _, _ => return []
termination_by v1 v2 => v1.length + v2.length

def intersectionSortedValueIndex (equals less : T → T → Run Bool) (sorted_v1 sorted_v2 : List T) :
    Run (List (ℕ × ℕ)) :=
  intersectionSortedFrom equals less sorted_v1 sorted_v2 0 0

/-! ### The joins -/

/-- `table[it_h][it_w]`. -/
def cell (t : ValueTable n) (it_h it_w : ℕ) : Cell n :=
  (t.table.getD it_h []).getD it_w fun _ => ""

/-- The columns of `join_table` that a horizontal join adds. -/
def schemas_join_it (t join_table : ValueTable n) : List ℕ :=
  (unionValueIndex lessString t.schemas join_table.schemas).2

/-- What row `it_join_h` of `join_table` adds to a joined row. -/
def joinedCells (t join_table : ValueTable n) (it_join_h : ℕ) : List (Cell n) :=
  (t.schemas_join_it join_table).map (join_table.cell it_join_h)

/-- The table of a horizontal join from its matched rows. -/
def joinRows (t join_table : ValueTable n) (its : List (ℕ × ℕ)) : ValueTable n where
  table := its.map fun it =>
    (List.range t.schemas.length).map (t.cell it.1) ++ t.joinedCells join_table it.2
  schemas := t.schemas ++ (t.schemas_join_it join_table).map (join_table.schemas.getD · "")
  rectangular := by
    intro row hrow
    obtain ⟨it, -, rfl⟩ := List.mem_map.mp hrow
    simp [joinedCells]

section Joins

variable (parse : String → FixedPoint)

/-- `getColumn`, at all parties. -/
def getColumn (t : ValueTable n) (idx : ℕ) : List (Share n FixedPoint) :=
  t.table.map fun row => ⟨fun i => parse (row.getD idx (fun _ => "") i)⟩

/-- `hjoin`; columns are counted from 1. -/
def hjoin (t join_table : ValueTable n) (idx idx_tgt : ℕ) : ValueTable n :=
  let ids := (t.getColumn parse (idx - 1)).map recons
  let ids_tgt := (join_table.getColumn parse (idx_tgt - 1)).map recons
  let its := intersectionValueIndex lessFloat ids ids_tgt
  t.joinRows join_table (its.1.zip its.2)

/-- `vjoin`; columns are counted from 1. -/
def vjoin (t join_table : ValueTable n) (idx idx_tgt : ℕ) : ValueTable n :=
  let its := intersectionValueIndex lessString t.schemas join_table.schemas
  let ids := (t.getColumn parse (idx - 1)).map recons
  let ids_tgt := (join_table.getColumn parse (idx_tgt - 1)).map recons
  let ids_join_it := (unionValueIndex lessFloat ids ids_tgt).2
  { table := (t.table.map fun row => its.1.map fun it_w => row.getD it_w fun _ => "")
      ++ ids_join_it.map fun it_h => its.2.map (join_table.cell it_h)
    schemas := its.1.map (t.schemas.getD · "")
    rectangular := by
      intro row hrow
      rcases List.mem_append.mp hrow with hrow | hrow
      · obtain ⟨row, -, rfl⟩ := List.mem_map.mp hrow
        simp
      · obtain ⟨it_h, -, rfl⟩ := List.mem_map.mp hrow
        simp [its, intersectionValueIndex] }

/-- `hjoinShare`. -/
def hjoinShare (equals less : Share n FixedPoint → Share n FixedPoint → Run Bool)
    (t join_table : ValueTable n) (idx idx_tgt : ℕ) : Run (ValueTable n) := do
  let ids_share := t.getColumn parse (idx - 1)
  let ids_tgt_share := join_table.getColumn parse (idx_tgt - 1)
  let ids_it_list ← intersectionSortedValueIndex equals less ids_share ids_tgt_share
  return t.joinRows join_table ids_it_list

/-- The reconstructed keys of a column, in units of `10^-8`. -/
def keyColumn (t : ValueTable n) (idx : ℕ) : List ℤ :=
  (t.getColumn parse (idx - 1)).map fun id => (recons id).value

end Joins

/-- Keys are equal or at least `2^-16` apart. -/
def Separated (keys : List ℤ) : Prop :=
  ∀ x ∈ keys, ∀ y ∈ keys, x = y ∨ (1 / 2 ^ 16 : ℚ) ≤ |((x - y : ℤ) : ℚ) / FixedPoint.shift|

instance (keys : List ℤ) : Decidable (Separated keys) :=
  inferInstanceAs (Decidable (∀ x ∈ keys, ∀ y ∈ keys, _ ∨ _))

/-- Keys are equal or more than `10^-5` apart. -/
def Apart (keys : List ℤ) : Prop :=
  ∀ x ∈ keys, ∀ y ∈ keys, x = y ∨ (1 / 10 ^ 5 : ℚ) < |((x - y : ℤ) : ℚ) / FixedPoint.shift|

instance (keys : List ℤ) : Decidable (Apart keys) :=
  inferInstanceAs (Decidable (∀ x ∈ keys, ∀ y ∈ keys, _ ∨ _))

theorem Separated.apart {keys : List ℤ} (h : Separated keys) : Apart keys := by
  intro x hx y hy
  rcases h x hx y hy with heq | hfar
  · exact .inl heq
  · exact .inr (lt_of_lt_of_le (by norm_num) hfar)

/-! ### The lookup join -/

/-- The comparator of the map, in units. -/
theorem lessFloat_eq (x y : FixedPoint) : lessFloat x y = decide (x.value + 1000 < y.value) := by
  have heps : (FixedPoint.ofDouble (1 / 100000)).value = 1000 := by
    decide +kernel
  unfold lessFloat
  rw [decide_eq_decide, FixedPoint.lt_iff, FixedPoint.sub_value, heps]
  omega

/-- On keys that are apart the comparator of the map is their order. -/
theorem decides_lessFloat {keys : List FixedPoint} (h : Apart (keys.map FixedPoint.value)) :
    KeyJoin.Decides lessFloat FixedPoint.value keys := by
  intro x hx y hy
  rw [lessFloat_eq, decide_eq_decide]
  rcases h x.value (List.mem_map_of_mem hx) y.value (List.mem_map_of_mem hy) with heq | hfar
  · omega
  · -- 10^-5 are 1000 units
    have hunits : (1000 : ℚ) < |((x.value - y.value : ℤ) : ℚ)| := by
      rw [abs_div, show |(FixedPoint.shift : ℚ)| = 100000000 by norm_num [FixedPoint.shift],
        lt_div_iff₀ (by norm_num)] at hfar
      linarith
    have hunits' : (1000 : ℤ) < |x.value - y.value| := by exact_mod_cast hunits
    rcases lt_abs.mp hunits' with hlt | hlt <;> omega

/-- Lookups take no notice of ranks. -/
theorem filterMap_ranked_eq {γ : Type} (g : ℤ → ℕ → Option γ) (ids : List FixedPoint) :
    ∀ (i : ℕ) (seen : List ℤ),
      (ids.zipIdx i).filterMap (fun e => g e.1.value e.2)
        = (ranked seen i (ids.map FixedPoint.value)).filterMap fun e => g e.1 e.2.1 := by
  induction ids with
  | nil =>
      intro i seen
      rfl
  | cons id ids ih =>
      intro i seen
      rw [List.zipIdx_cons, List.map_cons, ranked, List.filterMap_cons, List.filterMap_cons,
        ih (i + 1) (id.value :: seen)]

/-- The matched rows of `hjoin`: each left row with the first right row of its
key. -/
theorem intersectionValueIndex_eq (ids ids_tgt : List FixedPoint)
    (h : Separated (ids.map FixedPoint.value ++ ids_tgt.map FixedPoint.value)) :
    (intersectionValueIndex lessFloat ids ids_tgt).1.zip
        (intersectionValueIndex lessFloat ids ids_tgt).2
      = (ranked [] 0 (ids.map FixedPoint.value)).filterMap fun e =>
        if e.1 ∈ ids_tgt.map FixedPoint.value then
          some (e.2.1, (ids_tgt.map FixedPoint.value).idxOf e.1)
        else none := by
  have hdecides : KeyJoin.Decides lessFloat FixedPoint.value (ids ++ ids_tgt) :=
    decides_lessFloat (by rw [List.map_append]; exact h.apart)
  have hfind : ∀ id ∈ ids, find lessFloat id (emplaceFrom lessFloat 0 ids_tgt [])
      = if id.value ∈ ids_tgt.map FixedPoint.value then
          some ((ids_tgt.map FixedPoint.value).idxOf id.value)
        else none := by
    intro id hid
    rw [KeyJoin.find_emplaceFrom hdecides ids_tgt (List.mem_append_left _ hid)
      (fun k hk => List.mem_append_right _ hk) 0 (by simp)]
    simp [find]
  rw [zip_intersectionValueIndex, ← filterMap_ranked_eq fun x i =>
    if x ∈ ids_tgt.map FixedPoint.value then
      some (i, (ids_tgt.map FixedPoint.value).idxOf x) else none]
  refine List.filterMap_congr fun e he => ?_
  rw [hfind e.1 (List.fst_mem_of_mem_zipIdx he)]
  split <;> rfl

/-! ### The merge join -/

/-- The row that the merge finds for a left row, against the first one of its
key. -/
theorem nthMatch_row_iff (t join_table : ValueTable n) (b : List ℤ) (key : ℤ) (i rank : ℕ) :
    (nthMatch b 0 (key, i, rank)).map (fun it =>
        (List.range t.schemas.length).map (t.cell it.1) ++ t.joinedCells join_table it.2)
      = (if key ∈ b then some (i, b.idxOf key) else none).map (fun it =>
        (List.range t.schemas.length).map (t.cell it.1) ++ t.joinedCells join_table it.2) ↔
    (key ∈ b → rank < b.count key
      ∧ t.joinedCells join_table (b.idxOf key + rank)
        = t.joinedCells join_table (b.idxOf key)) := by
  unfold nthMatch
  by_cases hkey : key ∈ b
  · by_cases hrank : rank < b.count key
    · simp [hkey, hrank]
    · simp [hkey, hrank]
  · simp [hkey, List.count_eq_zero_of_not_mem hkey]

/-- When the two ways to match the rows give the same table. -/
theorem joinRows_eq_iff (t join_table : ValueTable n) (a b : List ℤ) :
    t.joinRows join_table ((ranked [] 0 a).filterMap (nthMatch b 0))
        = t.joinRows join_table ((ranked [] 0 a).filterMap fun e =>
          if e.1 ∈ b then some (e.2.1, b.idxOf e.1) else none) ↔
      ∀ i key, a[i]? = some key → key ∈ b →
        (a.take i).count key < b.count key
        ∧ t.joinedCells join_table (b.idxOf key + (a.take i).count key)
          = t.joinedCells join_table (b.idxOf key) := by
  rw [eq_iff]
  simp only [joinRows, and_true, List.map_filterMap]
  rw [KeyJoin.filterMap_eq_filterMap_iff]
  · constructor
    · intro h i key hget hkey
      have hmem : (key, i, (a.take i).count key) ∈ ranked [] 0 a :=
        (KeyJoin.mem_ranked a [] 0).mpr ⟨Nat.zero_le i, hget, rfl⟩
      exact (nthMatch_row_iff t join_table b key i _).mp (h _ hmem) hkey
    · rintro h ⟨key, i, rank⟩ hmem
      obtain ⟨-, hget, hrank⟩ := (KeyJoin.mem_ranked a [] 0).mp hmem
      obtain rfl : rank = (a.take i).count key := hrank
      exact (nthMatch_row_iff t join_table b key i _).mpr (h i key hget)
  · -- a left row without a match has no match of its rank
    rintro ⟨key, i, rank⟩ - hnone
    have hkey : key ∉ b := by
      intro hkey
      rw [if_pos hkey] at hnone
      exact absurd hnone (by simp)
    simp [nthMatch, List.count_eq_zero_of_not_mem hkey]

section Secret

variable {equals less : Share n FixedPoint → Share n FixedPoint → Run Bool}
  (hequals : ∀ x y, equals x y = .ok (decide (recons x = recons y)))
  (hless : ∀ x y, less x y = .ok (decide (recons x < recons y)))

include hequals hless in
/-- With comparisons that decide the reconstructed keys, the secret merge is the
merge of the keys. -/
theorem intersectionSortedFrom_eq (v1 v2 : List (Share n FixedPoint)) (i1 i2 : ℕ) :
    intersectionSortedFrom equals less v1 v2 i1 i2
      = .ok (merge (v1.map fun id => (recons id).value) (v2.map fun id => (recons id).value)
        i1 i2) := by
  induction v1, v2, i1, i2 using intersectionSortedFrom.induct with
  | case1 x xs y ys i1 i2 ih₁ ih₂ ih₃ =>
      rw [intersectionSortedFrom, hequals, hless, List.map_cons, List.map_cons, merge]
      by_cases heq : (recons x).value = (recons y).value
      · have hrec : recons x = recons y := FixedPoint.ext heq
        rw [List.map_cons] at ih₂
        simp only [bind, Except.bind, hrec, decide_true, if_true, ih₁]
        rfl
      · have hrec : recons x ≠ recons y := fun h => heq (congrArg FixedPoint.value h)
        simp only [bind, Except.bind, hrec, decide_false, if_neg heq, FixedPoint.lt_iff]
        by_cases hlt : (recons x).value < (recons y).value
        · simp only [hlt, decide_true, if_true, ih₂, List.map_cons]
          rfl
        · simp only [hlt, decide_false, if_false, ih₃, List.map_cons]
          rfl
  | case2 v2 i1 i2 =>
      rw [intersectionSortedFrom, List.map_nil, merge]
      rfl
  | case3 x xs i1 i2 =>
      rw [intersectionSortedFrom, List.map_nil, List.map_cons, merge]
      rfl

variable (parse : String → FixedPoint)

include hequals hless in
/-- **When the secret join equals the open join.** On sorted columns with
separated keys the two return the same table exactly when every left row whose
key occurs on the right has a right row of its own for it (the `t`-th one with
the key, for the `t`-th left row), with the same joined cells as the first one
with the key. -/
theorem hjoinShare_eq_hjoin_iff (t join_table : ValueTable n) (idx idx_tgt : ℕ)
    (hsorted : (t.keyColumn parse idx).Pairwise (· ≤ ·))
    (hsorted_tgt : (join_table.keyColumn parse idx_tgt).Pairwise (· ≤ ·))
    (hseparated : Separated (t.keyColumn parse idx ++ join_table.keyColumn parse idx_tgt)) :
    t.hjoinShare parse equals less join_table idx idx_tgt
        = .ok (t.hjoin parse join_table idx idx_tgt) ↔
      ∀ i key, (t.keyColumn parse idx)[i]? = some key →
        key ∈ join_table.keyColumn parse idx_tgt →
          ((t.keyColumn parse idx).take i).count key
            < (join_table.keyColumn parse idx_tgt).count key
          ∧ t.joinedCells join_table ((join_table.keyColumn parse idx_tgt).idxOf key
              + ((t.keyColumn parse idx).take i).count key)
            = t.joinedCells join_table ((join_table.keyColumn parse idx_tgt).idxOf key) := by
  have hvalues : ∀ (t : ValueTable n) (idx : ℕ),
      ((t.getColumn parse (idx - 1)).map recons).map FixedPoint.value = t.keyColumn parse idx :=
    fun t idx => List.map_map
  -- the matched rows of both joins, as selections from the ranked left keys
  have hopen := intersectionValueIndex_eq ((t.getColumn parse (idx - 1)).map recons)
    ((join_table.getColumn parse (idx_tgt - 1)).map recons)
    (by rw [hvalues, hvalues]; exact hseparated)
  rw [hvalues, hvalues] at hopen
  have hsecret : t.hjoinShare parse equals less join_table idx idx_tgt
      = .ok (t.joinRows join_table ((ranked [] 0 (t.keyColumn parse idx)).filterMap
        (nthMatch (join_table.keyColumn parse idx_tgt) 0))) := by
    rw [← KeyJoin.merge_eq _ _ 0 0 hsorted hsorted_tgt]
    simp only [hjoinShare, intersectionSortedValueIndex, intersectionSortedFrom_eq hequals hless]
    rfl
  have hselect := joinRows_eq_iff t join_table (t.keyColumn parse idx)
    (join_table.keyColumn parse idx_tgt)
  rw [hsecret, Except.ok.injEq, hjoin, hopen, hselect]

end Secret

/-! ### Two pairs of tables -/

/-- A table of two columns, whose texts the first of three parties holds. -/
def sample (attr : String) (rows : List (String × String)) : ValueTable 3 where
  table := rows.map fun row => [![row.1, "0", "0"], ![row.2, "0", "0"]]
  schemas := ["id", attr]
  rectangular := by
    intro row hrow
    obtain ⟨row, -, rfl⟩ := List.mem_map.mp hrow
    rfl

/-- The reading of the texts of the samples' keys. -/
def parseSample (s : String) : FixedPoint :=
  if s = "1" then FixedPoint.ofInt 1 else if s = "2" then FixedPoint.ofInt 2 else 0

/-- A key that both tables hold twice, with the same cells on the right. -/
theorem hjoinShare_eq_hjoin_iff_sample :
    let t := sample "x" [("1", "5"), ("1", "6"), ("2", "7")]
    let join_table := sample "y" [("1", "8"), ("1", "8"), ("2", "9")]
    t.hjoinShare parseSample (fun x y => .ok (decide (recons x = recons y)))
          (fun x y => .ok (decide (recons x < recons y))) join_table 1 1
        = .ok (t.hjoin parseSample join_table 1 1) ↔
      ∀ i key, (t.keyColumn parseSample 1)[i]? = some key →
        key ∈ join_table.keyColumn parseSample 1 →
          ((t.keyColumn parseSample 1).take i).count key
            < (join_table.keyColumn parseSample 1).count key
          ∧ t.joinedCells join_table ((join_table.keyColumn parseSample 1).idxOf key
              + ((t.keyColumn parseSample 1).take i).count key)
            = t.joinedCells join_table ((join_table.keyColumn parseSample 1).idxOf key) := by
  intro t join_table
  exact hjoinShare_eq_hjoin_iff (fun _ _ => rfl) (fun _ _ => rfl) parseSample t join_table 1 1
    (by decide) (by decide) (by decide +kernel)

/-- A key that the left table holds twice and the right one once: the open join
has two rows, the secret one has one. -/
theorem hjoinShare_drops_equal_key :
    let t := sample "x" [("1", "5"), ("1", "6")]
    let join_table := sample "y" [("1", "8")]
    (t.keyColumn parseSample 1).Pairwise (· ≤ ·)
      ∧ (join_table.keyColumn parseSample 1).Pairwise (· ≤ ·)
      ∧ Separated (t.keyColumn parseSample 1 ++ join_table.keyColumn parseSample 1)
      ∧ t.hjoinShare parseSample (fun x y => .ok (decide (recons x = recons y)))
          (fun x y => .ok (decide (recons x < recons y))) join_table 1 1
        ≠ .ok (t.hjoin parseSample join_table 1 1) := by
  intro t join_table
  refine ⟨by decide, by decide, by decide +kernel, fun heq => ?_⟩
  have hrows : (t.hjoinShare parseSample (fun x y => .ok (decide (recons x = recons y)))
      (fun x y => .ok (decide (recons x < recons y))) join_table 1 1).toOption.map
        (fun t => t.table.length) = some 1 := by
    decide +kernel
  rw [heq] at hrows
  exact absurd hrows (by decide +kernel)

end ValueTable

end QuickMpc
