import Mathlib.Data.Finset.Sort
import Mathlib.Data.List.Sort
import Mathlib.Order.Defs.LinearOrder

/-!
# Maps filled entry by entry

Two maps as they are filled from a list of keys and values that arrive in some order.
An ordered map keeps its entries sorted and the first value of a key (`emplace`); an
unordered one keeps the last value (`assign`). When the keys are distinct the difference
cannot be seen: the ordered map holds the arrivals in key order (`emplaceAll_eq`), and
the unordered one holds the arrivals (`assignAll_eq`).
-/

namespace KeyedMap

variable {κ α : Type*}

/-! ### The ordered map -/

section Ordered

variable [LinearOrder κ]

/-- Add an entry unless there is one with its key. -/
def emplace (key : κ) (value : α) : List (κ × α) → List (κ × α)
  | [] => [(key, value)]
  | e :: m =>
    if key < e.1 then (key, value) :: e :: m
    else if key = e.1 then e :: m
    else e :: emplace key value m

def emplaceAll (arrived : List (κ × α)) : List (κ × α) :=
  arrived.foldl (fun m e => emplace e.1 e.2 m) []

theorem emplace_perm {key : κ} {m : List (κ × α)} (h : key ∉ m.map Prod.fst) (value : α) :
    (emplace key value m).Perm ((key, value) :: m) := by
  induction m with
  | nil => exact .refl _
  | cons e m ih =>
      rw [List.map_cons, List.mem_cons, not_or] at h
      rw [emplace]
      split
      · exact .refl _
      · rw [if_neg h.1]
        exact ((ih h.2).cons e).trans (.swap _ _ _)

theorem emplace_sorted {key : κ} {m : List (κ × α)} (h : m.Pairwise fun e e' => e.1 < e'.1)
    (hkey : key ∉ m.map Prod.fst) (value : α) :
    (emplace key value m).Pairwise fun e e' => e.1 < e'.1 := by
  induction m with
  | nil => exact List.pairwise_singleton _ _
  | cons e m ih =>
      obtain ⟨hlt, hm⟩ := List.pairwise_cons.mp h
      rw [List.map_cons, List.mem_cons, not_or] at hkey
      rw [emplace]
      split
      case isTrue hhead =>
        refine List.pairwise_cons.mpr ⟨fun e' he' => ?_, h⟩
        rcases List.mem_cons.mp he' with rfl | hmem
        · exact hhead
        · exact hhead.trans (hlt e' hmem)
      case isFalse hhead =>
        rw [if_neg hkey.1]
        refine List.pairwise_cons.mpr ⟨fun e' he' => ?_, ih hm hkey.2⟩
        rcases List.mem_cons.mp ((emplace_perm hkey.2 value).mem_iff.mp he') with rfl | hmem
        · exact lt_of_le_of_ne (not_lt.mp hhead) (Ne.symm hkey.1)
        · exact hlt e' hmem

/-- While the keys are new, nothing is lost and the order is kept. -/
theorem foldl_emplace {arrived m : List (κ × α)} (hm : m.Pairwise fun e e' => e.1 < e'.1)
    (hkeys : ((arrived ++ m).map Prod.fst).Nodup) :
    (arrived.foldl (fun m e => emplace e.1 e.2 m) m).Perm (arrived ++ m) ∧
      (arrived.foldl (fun m e => emplace e.1 e.2 m) m).Pairwise fun e e' => e.1 < e'.1 := by
  induction arrived generalizing m with
  | nil => exact ⟨.refl _, hm⟩
  | cons e arrived ih =>
      rw [List.cons_append, List.map_cons, List.nodup_cons] at hkeys
      have hnew : e.1 ∉ m.map Prod.fst := by
        intro hmem
        refine hkeys.1 ?_
        rw [List.map_append]
        exact List.mem_append_right _ hmem
      have hperm := emplace_perm hnew e.2
      have happend : (arrived ++ emplace e.1 e.2 m).Perm (e :: (arrived ++ m)) :=
        (hperm.append_left arrived).trans List.perm_middle
      have hnodup : ((arrived ++ emplace e.1 e.2 m).map Prod.fst).Nodup := by
        rw [(happend.map Prod.fst).nodup_iff, List.map_cons, List.nodup_cons]
        exact hkeys
      obtain ⟨hfold, hsorted⟩ := ih (emplace_sorted hm hnew e.2) hnodup
      exact ⟨hfold.trans happend, hsorted⟩

/-- A sorted list of keys has no key twice. -/
theorem nodup_of_sorted {m : List (κ × α)} (h : m.Pairwise fun e e' => e.1 < e'.1) :
    (m.map Prod.fst).Nodup :=
  List.pairwise_map.mpr (h.imp fun hlt => hlt.ne)

/-- Sorted lists with the same entries are the same. -/
theorem eq_of_perm {m m' : List (κ × α)} (hperm : m.Perm m')
    (h : m.Pairwise fun e e' => e.1 < e'.1) (h' : m'.Pairwise fun e e' => e.1 < e'.1) : m = m' :=
  hperm.eq_of_pairwise (fun _ _ _ _ hlt hgt => absurd hgt hlt.asymm) h h'

/-- The ordered map is the arrivals in the order of their keys. -/
theorem emplaceAll_eq {arrived m : List (κ × α)} (hperm : arrived.Perm m)
    (hm : m.Pairwise fun e e' => e.1 < e'.1) : emplaceAll arrived = m := by
  have hkeys : ((arrived ++ []).map Prod.fst).Nodup := by
    rw [List.append_nil, (hperm.map Prod.fst).nodup_iff]
    exact nodup_of_sorted hm
  obtain ⟨hfold, hsorted⟩ := foldl_emplace List.Pairwise.nil hkeys
  rw [List.append_nil] at hfold
  exact eq_of_perm (hfold.trans hperm) hsorted hm

theorem emplace_of_mem {key : κ} {m : List (κ × α)} (h : m.Pairwise fun e e' => e.1 < e'.1)
    (hkey : key ∈ m.map Prod.fst) (value : α) : emplace key value m = m := by
  induction m with
  | nil => cases hkey
  | cons e m ih =>
      obtain ⟨hlt, hm⟩ := List.pairwise_cons.mp h
      rcases List.mem_cons.mp hkey with rfl | hmem
      · rw [emplace, if_neg (lt_irrefl _), if_pos rfl]
      · obtain ⟨e', he', rfl⟩ := List.mem_map.mp hmem
        have hgt := hlt e' he'
        rw [emplace, if_neg hgt.not_gt, if_neg hgt.ne', ih hm hmem]

/-- The map of a function on some keys. -/
def entries (value : κ → α) (keys : Finset κ) : List (κ × α) :=
  keys.sort.map fun k => (k, value k)

theorem entries_sorted (value : κ → α) (keys : Finset κ) :
    (entries value keys).Pairwise fun e e' => e.1 < e'.1 :=
  List.pairwise_map.mpr keys.sortedLT_sort.pairwise

theorem mem_entries {value : κ → α} {keys : Finset κ} {e : κ × α} :
    e ∈ entries value keys ↔ e.1 ∈ keys ∧ e.2 = value e.1 := by
  constructor
  · intro h
    obtain ⟨k, hk, rfl⟩ := List.mem_map.mp h
    exact ⟨(Finset.mem_sort _).mp hk, rfl⟩
  · intro h
    exact List.mem_map.mpr ⟨e.1, (Finset.mem_sort _).mpr h.1, Prod.ext rfl h.2.symm⟩

theorem mem_entries_keys {value : κ → α} {keys : Finset κ} {k : κ} :
    k ∈ (entries value keys).map Prod.fst ↔ k ∈ keys := by
  simp [mem_entries]

theorem emplace_entries (value : κ → α) (keys : Finset κ) (k : κ) :
    emplace k (value k) (entries value keys) = entries value (insert k keys) := by
  by_cases hk : k ∈ keys
  · rw [Finset.insert_eq_of_mem hk]
    exact emplace_of_mem (entries_sorted value keys) (mem_entries_keys.mpr hk) _
  · have hnew : k ∉ (entries value keys).map Prod.fst := mem_entries_keys.not.mpr hk
    have hsorted := emplace_sorted (entries_sorted value keys) hnew (value k)
    refine eq_of_perm ?_ hsorted (entries_sorted value _)
    refine (List.perm_ext_iff_of_nodup (hsorted.imp fun hlt heq => ?_)
      ((entries_sorted value _).imp fun hlt heq => ?_)).mpr fun e => ?_
    · exact hlt.ne (congrArg Prod.fst heq)
    · exact hlt.ne (congrArg Prod.fst heq)
    · rw [(emplace_perm hnew _).mem_iff, List.mem_cons, mem_entries, mem_entries,
        Finset.mem_insert, Prod.ext_iff]
      constructor
      · rintro (⟨rfl, hvalue⟩ | ⟨hmem, hvalue⟩)
        · exact ⟨.inl rfl, hvalue⟩
        · exact ⟨.inr hmem, hvalue⟩
      · rintro ⟨rfl | hmem, hvalue⟩
        · exact .inl ⟨rfl, hvalue⟩
        · exact .inr ⟨hmem, hvalue⟩

theorem foldl_emplace_entries (value : κ → α) (arrived : List κ) (keys : Finset κ) :
    (arrived.map fun k => (k, value k)).foldl (fun m e => emplace e.1 e.2 m) (entries value keys)
      = entries value (arrived.toFinset ∪ keys) := by
  induction arrived generalizing keys with
  | nil => simp
  | cons k arrived ih =>
      rw [List.map_cons, List.foldl_cons, emplace_entries, ih, List.toFinset_cons,
        Finset.union_insert, Finset.insert_union]

/-- Arrivals that repeat a key repeat its value. -/
theorem emplaceAll_map (value : κ → α) (arrived : List κ) :
    emplaceAll (arrived.map fun k => (k, value k)) = entries value arrived.toFinset := by
  have h := foldl_emplace_entries value arrived ∅
  rwa [Finset.union_empty, entries, Finset.sort_empty] at h

end Ordered

/-! ### The unordered map -/

section Unordered

variable [DecidableEq κ]

/-- Set the value of a key. -/
def assign (key : κ) (value : α) : List (κ × α) → List (κ × α)
  | [] => [(key, value)]
  | e :: m => if e.1 = key then (key, value) :: m else e :: assign key value m

def assignAll (arrived : List (κ × α)) : List (κ × α) :=
  arrived.foldl (fun m e => assign e.1 e.2 m) []

/-- The value of a key, or `default`. -/
def get (m : List (κ × α)) (key : κ) (default : α) : α :=
  match m.find? fun e => e.1 = key with
  | some e => e.2
  | none => default

theorem assign_of_notMem {key : κ} {m : List (κ × α)} (h : key ∉ m.map Prod.fst) (value : α) :
    assign key value m = m ++ [(key, value)] := by
  induction m with
  | nil => rfl
  | cons e m ih =>
      rw [List.map_cons, List.mem_cons, not_or] at h
      rw [assign, if_neg (Ne.symm h.1), ih h.2, List.cons_append]

theorem foldl_assign {arrived m : List (κ × α)} (hkeys : ((m ++ arrived).map Prod.fst).Nodup) :
    arrived.foldl (fun m e => assign e.1 e.2 m) m = m ++ arrived := by
  induction arrived generalizing m with
  | nil => exact (List.append_nil m).symm
  | cons e arrived ih =>
      have hsplit : m ++ e :: arrived = (m ++ [e]) ++ arrived := by simp
      have hnew : e.1 ∉ m.map Prod.fst := by
        rw [List.map_append] at hkeys
        intro hmem
        exact (List.nodup_append.mp hkeys).2.2 _ hmem _ List.mem_cons_self rfl
      rw [List.foldl_cons, assign_of_notMem hnew, hsplit]
      exact ih (hsplit ▸ hkeys)

/-- Under distinct keys every arrival is an entry. -/
theorem assignAll_eq {arrived : List (κ × α)} (hkeys : (arrived.map Prod.fst).Nodup) :
    assignAll arrived = arrived :=
  foldl_assign hkeys

theorem get_of_mem {m : List (κ × α)} (hkeys : (m.map Prod.fst).Nodup) {e : κ × α} (h : e ∈ m)
    (default : α) : get m e.1 default = e.2 := by
  induction m with
  | nil => cases h
  | cons e' m ih =>
      rw [List.map_cons, List.nodup_cons] at hkeys
      rcases List.mem_cons.mp h with rfl | hmem
      · rw [get, List.find?_cons_of_pos (by simp)]
      · have hne : e'.1 ≠ e.1 := by
          intro heq
          exact hkeys.1 (heq ▸ List.mem_map_of_mem hmem)
        rw [get, List.find?_cons_of_neg (by simpa using hne)]
        exact ih hkeys.2 hmem

end Unordered

end KeyedMap
