import Mathlib.Data.List.Basic
import Mathlib.Data.List.Count
import Mathlib.Order.Lattice

/-!
# Joins on a key column

Two ways to match the rows of two tables by their keys, as lists of pairs of row
indices.

* A *lookup join* puts the right keys into an ordered map (`emplace`, `find`)
  that keeps the first row of each key, and looks every left key up. The map
  works with a comparator; `Decides` says that the comparator is the order of
  the keys at hand, and the lookup then finds the first right row with an equal
  key (`find_emplaceFrom`).
* A *merge join* walks through two sorted columns and steps on both sides when
  the keys are equal. It matches the `t`-th left row with a key to the `t`-th
  right row with it (`merge_eq`).
-/

namespace KeyJoin

variable {κ ν β γ : Type*}

/-! ### Ordered maps -/

/-- `find` of an ordered map, kept as the list of its entries in their order. -/
def find (less : κ → κ → Bool) (key : κ) : List (κ × ν) → Option ν
  | [] => none
  | e :: rest =>
    if less e.1 key then find less key rest
    else if less key e.1 then none
    else some e.2

/-- `emplace`: an entry with an equivalent key is kept. -/
def emplace (less : κ → κ → Bool) (key : κ) (value : ν) : List (κ × ν) → List (κ × ν)
  | [] => [(key, value)]
  | e :: rest =>
    if less e.1 key then e :: emplace less key value rest
    else if less key e.1 then (key, value) :: e :: rest
    else e :: rest

/-- Emplace the keys of a column with their row indices, from `it` on. -/
def emplaceFrom (less : κ → κ → Bool) : ℕ → List κ → List (κ × ℕ) → List (κ × ℕ)
  | _, [], m => m
  | it, key :: keys, m => emplaceFrom less (it + 1) keys (emplace less key it m)

theorem mem_emplace {less : κ → κ → Bool} {key : κ} {value : ν} {e : κ × ν} {m : List (κ × ν)}
    (he : e ∈ emplace less key value m) : e = (key, value) ∨ e ∈ m := by
  induction m with
  | nil => exact .inl (List.mem_singleton.mp he)
  | cons e' rest ih =>
      rw [emplace] at he
      split at he
      · rcases List.mem_cons.mp he with rfl | he
        · exact .inr List.mem_cons_self
        · exact (ih he).imp_right (List.mem_cons_of_mem _)
      · split at he
        · exact List.mem_cons.mp he
        · exact .inr he

theorem mem_emplace_keys {less : κ → κ → Bool} {S : List κ} {key : κ} {value : ν}
    {m : List (κ × ν)} (hm : ∀ e ∈ m, e.1 ∈ S) (hkey : key ∈ S) :
    ∀ e ∈ emplace less key value m, e.1 ∈ S := by
  intro e he
  rcases mem_emplace he with rfl | he
  · exact hkey
  · exact hm e he

theorem mem_of_find {less : κ → κ → Bool} {key : κ} {value : ν} {m : List (κ × ν)}
    (h : find less key m = some value) : ∃ e ∈ m, e.2 = value := by
  induction m with
  | nil => cases h
  | cons e rest ih =>
      rw [find] at h
      split at h
      · obtain ⟨e', he', hvalue⟩ := ih h
        exact ⟨e', List.mem_cons_of_mem _ he', hvalue⟩
      · split at h
        · cases h
        · exact ⟨e, List.mem_cons_self, Option.some.inj h⟩

/-- The rows in the map of a column are rows of the column. -/
theorem mem_emplaceFrom_lt {less : κ → κ → Bool} (keys : List κ) :
    ∀ {it : ℕ} {m : List (κ × ℕ)}, (∀ e ∈ m, e.2 < it + keys.length) →
      ∀ e ∈ emplaceFrom less it keys m, e.2 < it + keys.length := by
  induction keys with
  | nil => exact fun hm => hm
  | cons key keys ih =>
      intro it m hm e he
      rw [List.length_cons] at hm ⊢
      refine Nat.lt_of_lt_of_eq (ih (fun e' he' => ?_) e he) (by omega)
      rcases mem_emplace he' with rfl | he'
      · show it < it + 1 + keys.length
        omega
      · have hlt := hm e' he'
        omega

theorem lt_of_find_emplaceFrom {less : κ → κ → Bool} {key : κ} {keys : List κ} {j : ℕ}
    (h : find less key (emplaceFrom less 0 keys []) = some j) : j < keys.length := by
  obtain ⟨e, he, rfl⟩ := mem_of_find h
  have hlt := mem_emplaceFrom_lt keys (fun e' he' => absurd he' List.not_mem_nil) e he
  omega

variable [LinearOrder β]

/-- Between the keys `S` the comparator is the order of their values `f`. -/
def Decides (less : κ → κ → Bool) (f : κ → β) (S : List κ) : Prop :=
  ∀ x ∈ S, ∀ y ∈ S, less x y = decide (f x < f y)

section Map

variable {less : κ → κ → Bool} {f : κ → β} {S : List κ} (hless : Decides less f S)

include hless in
/-- Looking a key up after an emplacement. -/
theorem find_emplace {x key : κ} {value : ν} {m : List (κ × ν)} (hm : ∀ e ∈ m, e.1 ∈ S)
    (hx : x ∈ S) (hkey : key ∈ S) :
    find less x (emplace less key value m)
      = if f x = f key then (find less x m).or (some value) else find less x m := by
  induction m with
  | nil =>
      simp only [emplace, find, hless _ hkey _ hx, hless _ hx _ hkey, decide_eq_true_iff]
      rcases lt_trichotomy (f key) (f x) with h | h | h
      · rw [if_pos h, if_neg h.ne']
      · rw [if_neg h.not_lt, if_neg h.not_gt, if_pos h.symm]
        rfl
      · rw [if_neg h.not_gt, if_pos h, if_neg h.ne]
  | cons e rest ih =>
      have he : e.1 ∈ S := hm e List.mem_cons_self
      have hrest : ∀ e ∈ rest, e.1 ∈ S := fun e he => hm e (List.mem_cons_of_mem _ he)
      have ih := ih hrest
      simp only [emplace, hless _ he _ hkey, hless _ hkey _ he, decide_eq_true_iff]
      rcases lt_trichotomy (f e.1) (f key) with h | h | h
      · -- the new entry goes further back
        rw [if_pos h, find, find, hless _ he _ hx, hless _ hx _ he, ih]
        rcases lt_trichotomy (f e.1) (f x) with h' | h' | h'
        · simp [h']
        · have hne : f x ≠ f key := h' ▸ h.ne
          simp [h', hne]
        · have hne : f x ≠ f key := (h'.trans h).ne
          simp [h', h'.not_gt, hne]
      · -- there is an entry with this key
        rw [if_neg h.not_lt, if_neg h.not_gt]
        by_cases hxk : f x = f key
        · have hxe : f e.1 = f x := h.trans hxk.symm
          simp [find, hless _ he _ hx, hless _ hx _ he, hxk, h]
        · rw [if_neg hxk]
      · -- the new entry goes here
        rw [if_neg h.not_gt, if_pos h, find, hless _ hkey _ hx, hless _ hx _ hkey]
        rcases lt_trichotomy (f key) (f x) with h' | h' | h'
        · simp [h', h'.ne']
        · have hlt : f x < f e.1 := h' ▸ h
          simp [find, hless _ he _ hx, hless _ hx _ he, h', hlt, hlt.not_gt]
        · have hlt : f x < f e.1 := h'.trans h
          simp [find, hless _ he _ hx, hless _ hx _ he, h', h'.not_gt, h'.ne, hlt, hlt.not_gt]

include hless in
/-- **The map of a column keeps the first row of each key.** -/
theorem find_emplaceFrom {x : κ} (keys : List κ) (hx : x ∈ S) (hkeys : ∀ k ∈ keys, k ∈ S) :
    ∀ (it : ℕ) {m : List (κ × ℕ)}, (∀ e ∈ m, e.1 ∈ S) →
      find less x (emplaceFrom less it keys m)
        = (find less x m).or
          (if f x ∈ keys.map f then some (it + (keys.map f).idxOf (f x)) else none) := by
  induction keys with
  | nil =>
      intro it m _
      simp [emplaceFrom]
  | cons key keys ih =>
      intro it m hm
      have hkey : key ∈ S := hkeys key List.mem_cons_self
      have hrest : ∀ k ∈ keys, k ∈ S := fun k hk => hkeys k (List.mem_cons_of_mem _ hk)
      rw [emplaceFrom, ih hrest (it + 1) (mem_emplace_keys hm hkey),
        find_emplace hless hm hx hkey, List.map_cons]
      by_cases h : f x = f key
      · rw [if_pos h, ← h, List.idxOf_cons_self, if_pos List.mem_cons_self, Option.or_assoc]
        rfl
      · have hmem : f x ∈ f key :: keys.map f ↔ f x ∈ keys.map f := by
          rw [List.mem_cons]
          exact or_iff_right h
        rw [if_neg h, List.idxOf_cons_ne _ (Ne.symm h)]
        by_cases hin : f x ∈ keys.map f
        · rw [if_pos hin, if_pos (hmem.mpr hin), Nat.succ_eq_add_one]
          congr 2
          omega
        · rw [if_neg hin, if_neg fun hin' => hin (hmem.mp hin')]

include hless in
/-- The set of a column has the keys of the column. -/
theorem find_foldl_emplace {x : κ} (keys : List κ) (hx : x ∈ S) (hkeys : ∀ k ∈ keys, k ∈ S) :
    ∀ {st : List (κ × Unit)}, (∀ e ∈ st, e.1 ∈ S) →
      find less x (keys.foldl (fun st k => emplace less k () st) st)
        = (find less x st).or (if f x ∈ keys.map f then some () else none) := by
  induction keys with
  | nil =>
      intro st _
      simp
  | cons key keys ih =>
      intro st hst
      have hkey : key ∈ S := hkeys key List.mem_cons_self
      have hrest : ∀ k ∈ keys, k ∈ S := fun k hk => hkeys k (List.mem_cons_of_mem _ hk)
      rw [List.foldl_cons, ih hrest (mem_emplace_keys hst hkey), find_emplace hless hst hx hkey,
        List.map_cons]
      by_cases h : f x = f key
      · rw [if_pos h, h, if_pos List.mem_cons_self, Option.or_assoc]
        simp
      · simp [h]

end Map

/-! ### Joins of rows -/

/-- The inner join: each left row whose key occurs on the right, with the first right row
of its key. -/
def innerJoin {ρ ρ' : Type*} (key : ρ → β) (key' : ρ' → β) (rows : List ρ) (rows' : List ρ') :
    List (ρ × ρ') :=
  rows.filterMap fun row => (rows'.find? fun row' => key' row' = key row).map fun row' => (row, row')

/-- The right rows whose key does not occur on the left. -/
def newRows {ρ ρ' : Type*} (key : ρ → β) (key' : ρ' → β) (rows : List ρ) (rows' : List ρ') :
    List ρ' :=
  rows'.filter fun row' => key' row' ∉ rows.map key

theorem innerJoin_map_fst {ρ ρ' : Type*} (key : ρ → β) (key' : ρ' → β) (rows : List ρ)
    (rows' : List ρ') :
    (innerJoin key key' rows rows').map Prod.fst
      = rows.filter fun row => key row ∈ rows'.map key' := by
  rw [innerJoin, List.map_filterMap, ← List.filterMap_eq_filter]
  refine List.filterMap_congr fun row _ => ?_
  rw [Option.map_map]
  cases hfind : rows'.find? fun row' => key' row' = key row with
  | none =>
      have hno := List.find?_eq_none.mp hfind
      have hmem : key row ∉ rows'.map key' := by
        intro hmem
        obtain ⟨row', hrow', hkey⟩ := List.mem_map.mp hmem
        exact hno row' hrow' (by simpa using hkey)
      simp [Option.guard, hmem]
  | some row' =>
      have hmem : key row ∈ rows'.map key' :=
        List.mem_map.mpr ⟨row', List.mem_of_find?_eq_some hfind, by
          simpa using List.find?_some hfind⟩
      simp [Option.guard, hmem]

theorem find?_eq_getElem?_idxOf {ρ : Type*} (key : ρ → β) (k : β) (rows : List ρ) :
    rows.find? (fun row => key row = k)
      = if k ∈ rows.map key then rows[(rows.map key).idxOf k]? else none := by
  induction rows with
  | nil => rfl
  | cons row rows ih =>
      rw [List.map_cons]
      by_cases h : key row = k
      · rw [List.find?_cons_of_pos (by simpa using h), h, if_pos List.mem_cons_self,
          List.idxOf_cons_self, List.getElem?_cons_zero]
      · rw [List.find?_cons_of_neg (by simpa using h), ih, List.idxOf_cons_ne _ h,
          List.getElem?_cons_succ]
        simp [Ne.symm h]

/-- A selection of rows by their indices. -/
theorem filterMap_zipIdx_eq {ρ : Type*} (rows : List ρ) {F : ρ × ℕ → Option γ} {G : ρ → Option γ}
    (h : ∀ row i, rows[i]? = some row → F (row, i) = G row) :
    rows.zipIdx.filterMap F = rows.filterMap G := by
  calc rows.zipIdx.filterMap F = rows.zipIdx.filterMap (G ∘ Prod.fst) := by
        refine List.filterMap_congr fun e he => ?_
        exact h e.1 e.2 (List.mem_zipIdx_iff_getElem?.mp he)
    _ = rows.filterMap G := by
        rw [← List.filterMap_map, List.zipIdx_map_fst]

theorem map_filter_zipIdx_eq {ρ : Type*} (rows : List ρ) {P : ρ × ℕ → Bool} {p : ρ → Bool}
    {F : ρ × ℕ → γ} {G : ρ → γ} (hP : ∀ row i, rows[i]? = some row → P (row, i) = p row)
    (hF : ∀ row i, rows[i]? = some row → F (row, i) = G row) :
    (rows.zipIdx.filter P).map F = (rows.filter p).map G := by
  have hget : ∀ e ∈ rows.zipIdx, rows[e.2]? = some e.1 := fun e he =>
    List.mem_zipIdx_iff_getElem?.mp he
  calc (rows.zipIdx.filter P).map F = (rows.zipIdx.filter (p ∘ Prod.fst)).map F := by
        rw [List.filter_congr fun e he => hP e.1 e.2 (hget e he)]
        rfl
    _ = (rows.zipIdx.filter (p ∘ Prod.fst)).map (G ∘ Prod.fst) :=
        List.map_congr_left fun e he => hF e.1 e.2 (hget e (List.mem_of_mem_filter he))
    _ = (rows.filter p).map G := by
        rw [← List.map_map, ← List.filter_map, List.zipIdx_map_fst]

section Rows

variable {less : κ → κ → Bool} {f : κ → β} {ρ ρ' : Type*} (key : ρ → κ) (key' : ρ' → κ)
  (rows : List ρ) (rows' : List ρ')
  (hless : Decides less f (rows.map key ++ rows'.map key'))

include hless in
/-- **The lookup join is the inner join** of the rows that its indices stand for. -/
theorem lookup_eq_innerJoin (g : ℕ × ℕ → γ) (g' : ρ × ρ' → γ)
    (hg : ∀ i j row row', rows[i]? = some row → rows'[j]? = some row' → g (i, j) = g' (row, row')) :
    ((rows.map key).zipIdx.filterMap fun e =>
        (find less e.1 (emplaceFrom less 0 (rows'.map key') [])).map fun j => g (e.2, j))
      = (innerJoin (f ∘ key) (f ∘ key') rows rows').map g' := by
  rw [innerJoin, List.map_filterMap, List.zipIdx_map, List.filterMap_map]
  refine filterMap_zipIdx_eq rows fun row i hrow => ?_
  have hmem : key row ∈ rows.map key ++ rows'.map key' :=
    List.mem_append_left _ (List.mem_map_of_mem (List.mem_of_getElem? hrow))
  show (find less (key row) _).map _ = ((rows'.find? fun row' => (f ∘ key') row' = _).map _).map g'
  rw [find_emplaceFrom hless _ hmem (fun k hk => List.mem_append_right _ hk) 0 (by simp),
    List.map_map, find?_eq_getElem?_idxOf, Function.comp_apply]
  by_cases hkey : f (key row) ∈ rows'.map (f ∘ key')
  · have hlt : (rows'.map (f ∘ key')).idxOf (f (key row)) < rows'.length := by
      have := List.idxOf_lt_length_of_mem hkey
      rwa [List.length_map] at this
    have hrow' := List.getElem?_eq_getElem hlt
    rw [if_pos hkey, if_pos hkey, hrow']
    simp [find, hg i _ row _ hrow hrow']
  · rw [if_neg hkey, if_neg hkey]
    rfl

include hless in
/-- What a set of the left keys does not have on the right are the new rows. -/
theorem filter_find_eq_newRows (g : ℕ → γ) (g' : ρ' → γ)
    (hg' : ∀ row' j, rows'[j]? = some row' → g j = g' row') :
    ((rows'.map key').zipIdx.filter fun e =>
        (find less e.1 ((rows.map key).foldl (fun st x => emplace less x () st) [])).isNone).map
          (fun e => g e.2)
      = (newRows (f ∘ key) (f ∘ key') rows rows').map g' := by
  rw [newRows, List.zipIdx_map, List.filter_map, List.map_map]
  refine map_filter_zipIdx_eq rows' (fun row' j hrow' => ?_) hg'
  have hmem : key' row' ∈ rows.map key ++ rows'.map key' :=
    List.mem_append_right _ (List.mem_map_of_mem (List.mem_of_getElem? hrow'))
  show (find less (key' row') _).isNone = decide (f (key' row') ∉ _)
  rw [find_foldl_emplace hless _ hmem (fun k hk => List.mem_append_left _ hk) (by simp),
    List.map_map]
  by_cases hkey : f (key' row') ∈ rows.map (f ∘ key)
  · simp [find, hkey]
  · simp [find, hkey]

end Rows

/-! ### Merging -/

/-- The pairs of a merge join of two columns, whose row indices start at `i` and
`j`. -/
def merge : List β → List β → ℕ → ℕ → List (ℕ × ℕ)
  | x :: xs, y :: ys, i, j =>
    if x = y then (i, j) :: merge xs ys (i + 1) (j + 1)
    else if x < y then merge xs (y :: ys) (i + 1) j
    else merge (x :: xs) ys i (j + 1)
  | [], _, _, _ => []
  | _ :: _, [], _, _ => []
termination_by a b => a.length + b.length

/-- Each key with its row index and the number of rows with it before, where
`seen` are the keys above the column. -/
def ranked : List β → ℕ → List β → List (β × ℕ × ℕ)
  | _, _, [] => []
  | seen, i, x :: xs => (x, i, seen.count x) :: ranked (x :: seen) (i + 1) xs

/-- The row that a merge join finds for a ranked key in a column that starts at
row `j`. -/
def nthMatch (b : List β) (j : ℕ) (e : β × ℕ × ℕ) : Option (ℕ × ℕ) :=
  if e.2.2 < b.count e.1 then some (e.2.1, j + b.idxOf e.1 + e.2.2) else none

theorem mem_ranked {x : β} {k t : ℕ} (a : List β) : ∀ (seen : List β) (i : ℕ),
    (x, k, t) ∈ ranked seen i a ↔
      i ≤ k ∧ a[k - i]? = some x ∧ t = (a.take (k - i)).count x + seen.count x := by
  induction a with
  | nil =>
      intro seen i
      simp [ranked]
  | cons y ys ih =>
      intro seen i
      rw [ranked, List.mem_cons, ih]
      by_cases hk : k = i
      · subst hk
        constructor
        · intro h
          rcases h with heq | ⟨hle, -⟩
          · obtain ⟨rfl, hrank⟩ := Prod.mk.inj heq
            obtain rfl := (Prod.mk.inj hrank).2
            exact ⟨le_rfl, by simp, by simp⟩
          · exact absurd hle (Nat.not_succ_le_self _)
        · intro h
          obtain ⟨-, hget, ht⟩ := h
          obtain rfl : y = x := by simpa using hget
          exact .inl (by simp [ht])
      · by_cases hlt : i < k
        · obtain ⟨d, rfl⟩ := Nat.exists_eq_add_of_lt hlt
          have h₁ : i + d + 1 - i = d + 1 := by omega
          have h₂ : i + d + 1 - (i + 1) = d := by omega
          rw [h₁, h₂, List.getElem?_cons_succ, List.take_succ_cons, List.count_cons,
            List.count_cons]
          constructor
          · intro h
            rcases h with heq | ⟨-, hget, ht⟩
            · exact absurd (Prod.mk.inj (Prod.mk.inj heq).2).1 hk
            · refine ⟨by omega, hget, by omega⟩
          · intro h
            obtain ⟨-, hget, ht⟩ := h
            exact .inr ⟨by omega, hget, by omega⟩
        · constructor
          · intro h
            rcases h with heq | ⟨hle, -⟩
            · exact absurd (Prod.mk.inj (Prod.mk.inj heq).2).1 hk
            · omega
          · intro h
            obtain ⟨hle, -⟩ := h
            omega

/-- Ranks that differ by `d`, read by functions that allow for it. -/
theorem filterMap_ranked_congr {g g' : β × ℕ × ℕ → Option γ} {d : β → ℕ} (xs : List β)
    (hg : ∀ x ∈ xs, ∀ k t, g (x, k, t + d x) = g' (x, k, t)) :
    ∀ (i : ℕ) {seen seen' : List β}, (∀ z, seen.count z = seen'.count z + d z) →
      (ranked seen i xs).filterMap g = (ranked seen' i xs).filterMap g' := by
  induction xs with
  | nil =>
      intro i seen seen' _
      rfl
  | cons x xs ih =>
      intro i seen seen' hseen
      have hnext : ∀ z, (x :: seen).count z = (x :: seen').count z + d z := by
        intro z
        rw [List.count_cons, List.count_cons, hseen z]
        omega
      have hrest := ih (fun z hz => hg z (List.mem_cons_of_mem _ hz)) (i + 1) hnext
      rw [ranked, ranked, List.filterMap_cons, List.filterMap_cons, hrest, hseen x,
        hg x List.mem_cons_self]

/-- Equal keys are at the front of a sorted column. -/
theorem idxOf_eq_zero_of_le {x : β} {ys : List β} (hle : ∀ z ∈ ys, x ≤ z)
    (hsorted : ys.Pairwise (· ≤ ·)) (hmem : x ∈ ys) : ys.idxOf x = 0 := by
  cases ys with
  | nil => exact absurd hmem List.not_mem_nil
  | cons y ys =>
      have hyx : y ≤ x := by
        rcases List.mem_cons.mp hmem with rfl | hmem
        · exact le_rfl
        · exact (List.pairwise_cons.mp hsorted).1 x hmem
      obtain rfl : x = y := le_antisymm (hle y List.mem_cons_self) hyx
      exact List.idxOf_cons_self

/-- Past a pair of equal keys both sides count from one further. -/
theorem nthMatch_cons {x : β} {ys : List β} (hle : ∀ z ∈ ys, x ≤ z)
    (hsorted : ys.Pairwise (· ≤ ·)) (j : ℕ) (z : β) (k t : ℕ) :
    nthMatch (x :: ys) j (z, k, t + if z = x then 1 else 0) = nthMatch ys (j + 1) (z, k, t) := by
  unfold nthMatch
  by_cases hz : z = x
  · subst hz
    simp only [if_true, List.count_cons_self, List.idxOf_cons_self, Nat.add_lt_add_iff_right]
    by_cases ht : t < ys.count z
    · have hmem : z ∈ ys := List.count_pos_iff.mp (Nat.lt_of_le_of_lt (Nat.zero_le t) ht)
      rw [if_pos ht, if_pos ht, idxOf_eq_zero_of_le hle hsorted hmem]
      congr 2
      omega
    · rw [if_neg ht, if_neg ht]
  · have hcount : (x :: ys).count z = ys.count z := List.count_cons_of_ne (Ne.symm hz)
    simp only [if_neg hz, hcount, List.idxOf_cons_ne _ (Ne.symm hz), Nat.succ_eq_add_one,
      Nat.add_zero]
    split
    · congr 2
      omega
    · rfl

/-- A key that is not in the right column matches nothing, whatever its rank. -/
theorem nthMatch_of_not_mem {b : List β} {x : β} (hx : x ∉ b) (j : ℕ) (z : β) (k t : ℕ) :
    nthMatch b j (z, k, t + if z = x then 1 else 0) = nthMatch b j (z, k, t) := by
  by_cases hz : z = x
  · subst hz
    unfold nthMatch
    simp [List.count_eq_zero_of_not_mem hx]
  · rw [if_neg hz, Nat.add_zero]

/-- A right key that is not asked for only shifts the rows. -/
theorem nthMatch_cons_of_ne {y z : β} (hz : z ≠ y) (ys : List β) (j k t : ℕ) :
    nthMatch (y :: ys) j (z, k, t) = nthMatch ys (j + 1) (z, k, t) := by
  unfold nthMatch
  have hcount : (y :: ys).count z = ys.count z := List.count_cons_of_ne (Ne.symm hz)
  simp only [hcount, List.idxOf_cons_ne _ (Ne.symm hz), Nat.succ_eq_add_one]
  split
  · congr 2
    omega
  · rfl

/-- Counting one key more above the left column. -/
theorem count_singleton_eq (x z : β) :
    [x].count z = ([] : List β).count z + if z = x then 1 else 0 := by
  rw [List.count_singleton, List.count_nil, Nat.zero_add]
  by_cases h : z = x
  · simp [h]
  · simp [h, Ne.symm h]

/-- **What a merge join of sorted columns matches**: the `t`-th row with a key on
the left to the `t`-th row with it on the right, if there is one. -/
theorem merge_eq (a b : List β) (i j : ℕ) (ha : a.Pairwise (· ≤ ·)) (hb : b.Pairwise (· ≤ ·)) :
    merge a b i j = (ranked [] i a).filterMap (nthMatch b j) := by
  induction a, b, i, j using merge.induct with
  | case1 xs x ys i j ih =>
      -- equal keys
      obtain ⟨hys, hsorted⟩ := List.pairwise_cons.mp hb
      have hhead : nthMatch (x :: ys) j (x, i, 0) = some (i, j) := by
        simp [nthMatch]
      have htail : (ranked [x] (i + 1) xs).filterMap (nthMatch (x :: ys) j)
          = (ranked [] (i + 1) xs).filterMap (nthMatch ys (j + 1)) :=
        filterMap_ranked_congr xs (fun z _ k t => nthMatch_cons hys hsorted j z k t) (i + 1)
          (count_singleton_eq x)
      rw [merge, if_pos rfl, ih (List.pairwise_cons.mp ha).2 hsorted, ranked, List.count_nil,
        List.filterMap_cons_some hhead, htail]
  | case2 x xs y ys i j hne hlt ih =>
      -- the left key is smaller than all right keys
      have hx : x ∉ y :: ys := by
        intro hmem
        rcases List.mem_cons.mp hmem with rfl | hmem
        · exact hne rfl
        · exact absurd (hlt.trans_le ((List.pairwise_cons.mp hb).1 x hmem)) (lt_irrefl x)
      have hhead : nthMatch (y :: ys) j (x, i, 0) = none := by
        simp [nthMatch, List.count_eq_zero_of_not_mem hx]
      have htail : (ranked [x] (i + 1) xs).filterMap (nthMatch (y :: ys) j)
          = (ranked [] (i + 1) xs).filterMap (nthMatch (y :: ys) j) :=
        filterMap_ranked_congr xs (fun z _ k t => nthMatch_of_not_mem hx j z k t) (i + 1)
          (count_singleton_eq x)
      rw [merge, if_neg hne, if_pos hlt, ih (List.pairwise_cons.mp ha).2 hb, ranked,
        List.count_nil, List.filterMap_cons_none hhead, htail]
  | case3 x xs y ys i j hne hnlt ih =>
      -- the right key is smaller than all left keys
      have hlt : y < x := lt_of_le_of_ne (not_lt.mp hnlt) (Ne.symm hne)
      have hmem : ∀ z ∈ x :: xs, z ≠ y := by
        intro z hz
        rcases List.mem_cons.mp hz with rfl | hz
        · exact hne
        · exact (hlt.trans_le ((List.pairwise_cons.mp ha).1 z hz)).ne'
      have hall : (ranked [] i (x :: xs)).filterMap (nthMatch (y :: ys) j)
          = (ranked [] i (x :: xs)).filterMap (nthMatch ys (j + 1)) := by
        refine filterMap_ranked_congr (x :: xs) (fun z hz k t => ?_) i fun z => (Nat.add_zero _).symm
        exact nthMatch_cons_of_ne (hmem z hz) ys j k t
      rw [merge, if_neg hne, if_neg hnlt, ih ha (List.pairwise_cons.mp hb).2, hall]
  | case4 b i j =>
      rw [merge]
      rfl
  | case5 x xs i j =>
      rw [merge]
      refine (List.filterMap_eq_nil_iff.mpr fun e _ => ?_).symm
      simp [nthMatch]

/-! ### Comparing two joins -/

/-- A selection that leaves out what another one leaves out is no longer. -/
theorem length_filterMap_le_filterMap {ι : Type*} {f g : ι → Option γ} {l : List ι}
    (hsub : ∀ e ∈ l, f e = none → g e = none) :
    (l.filterMap g).length ≤ (l.filterMap f).length := by
  induction l with
  | nil => exact Nat.le_refl _
  | cons e l ih =>
      have hrest := ih fun e he => hsub e (List.mem_cons_of_mem _ he)
      cases hf : f e with
      | none =>
          rw [List.filterMap_cons_none hf, List.filterMap_cons_none (hsub e List.mem_cons_self hf)]
          exact hrest
      | some v =>
          rw [List.filterMap_cons_some hf, List.length_cons]
          cases hg : g e with
          | none =>
              rw [List.filterMap_cons_none hg]
              exact Nat.le_succ_of_le hrest
          | some w =>
              rw [List.filterMap_cons_some hg, List.length_cons]
              exact Nat.succ_le_succ hrest

/-- Two selections from a list, one of which takes nothing that the other leaves
out, are the same list only if they agree everywhere. -/
theorem filterMap_eq_filterMap_iff {ι : Type*} {f g : ι → Option γ} {l : List ι}
    (hsub : ∀ e ∈ l, f e = none → g e = none) :
    l.filterMap g = l.filterMap f ↔ ∀ e ∈ l, g e = f e := by
  constructor
  · induction l with
    | nil => exact fun _ e he => absurd he List.not_mem_nil
    | cons e l ih =>
        intro heq
        have hrest : ∀ e ∈ l, f e = none → g e = none := fun e he =>
          hsub e (List.mem_cons_of_mem _ he)
        have hboth : g e = f e ∧ l.filterMap g = l.filterMap f := by
          cases hf : f e with
          | none =>
              have hg := hsub e List.mem_cons_self hf
              rw [List.filterMap_cons_none hf, List.filterMap_cons_none hg] at heq
              exact ⟨hg, heq⟩
          | some v =>
              rw [List.filterMap_cons_some hf] at heq
              cases hg : g e with
              | none =>
                  -- the shorter list cannot catch up
                  have hle := length_filterMap_le_filterMap hrest
                  rw [List.filterMap_cons_none hg] at heq
                  rw [heq, List.length_cons] at hle
                  exact absurd hle (Nat.not_succ_le_self _)
              | some w =>
                  rw [List.filterMap_cons_some hg] at heq
                  obtain ⟨rfl, htail⟩ := List.cons.inj heq
                  exact ⟨rfl, htail⟩
        intro e' he'
        rcases List.mem_cons.mp he' with rfl | he'
        · exact hboth.1
        · exact ih hrest hboth.2 e' he'
  · exact fun heq => List.filterMap_congr heq

end KeyJoin
