import Mathlib.Data.List.MinMax
import QuickMpc.Lib.KeyJoin

/-!
# QuickMpc.Lib.ToleranceMap

Ordered maps whose comparator takes a key for smaller only if it is smaller by more than
`eps`. Two keys are then equivalent if they are `Close`, which is not transitive: which
keys of a column a map keeps depends on their order.

`kept` is the list of the keys that a map keeps, and a lookup succeeds at the keys close
to one of them (`isSome_find_emplaceFrom`). `kept_iff_orderFree` says for which keys the
lookup does not depend on the order of the column: no key of the column is close, or no
two keys that are not close to the looked up one absorb all that are.
-/

namespace KeyJoin

variable {κ ν : Type*} (f : κ → ℤ) (eps : ℤ)

/-- At most `eps` apart. -/
def Close (x y : κ) : Prop := f x ≤ f y + eps ∧ f y ≤ f x + eps

instance (x y : κ) : Decidable (Close f eps x y) := inferInstanceAs (Decidable (_ ∧ _))

variable {f eps}

theorem Close.symm {x y : κ} (h : Close f eps x y) : Close f eps y x := ⟨h.2, h.1⟩

/-! ### Maps -/

section Map

variable {less : κ → κ → Bool} (hless : ∀ x y, less x y = decide (f x + eps < f y))

/-- The entries of a map, in order and more than `eps` apart. -/
def Spaced (f : κ → ℤ) (eps : ℤ) (m : List (κ × ν)) : Prop :=
  m.Pairwise fun a b => f a.1 + eps < f b.1

include hless in
/-- A lookup succeeds at the keys close to an entry. -/
theorem isSome_find_iff {x : κ} {m : List (κ × ν)} (hm : Spaced f eps m) :
    (find less x m).isSome ↔ ∃ e ∈ m, Close f eps e.1 x := by
  induction m with
  | nil => simp [find]
  | cons e rest ih =>
      obtain ⟨hfirst, hrest⟩ := List.pairwise_cons.mp hm
      rw [List.exists_mem_cons_iff, find, hless, hless]
      simp only [decide_eq_true_eq]
      by_cases hlt : f e.1 + eps < f x
      · have hnot : ¬Close f eps e.1 x := fun h => absurd h.2 (not_le.mpr hlt)
        rw [if_pos hlt, ih hrest]
        simp [hnot]
      · rw [if_neg hlt]
        by_cases hgt : f x + eps < f e.1
        · -- all later entries are still larger
          rw [if_pos hgt]
          have hnone : ¬(Close f eps e.1 x ∨ ∃ e ∈ rest, Close f eps e.1 x) := by
            intro h'
            rcases h' with h | ⟨e', he', h⟩
            · exact absurd h.1 (not_le.mpr hgt)
            · have := hfirst e' he'
              have := h.1
              omega
          exact iff_of_false Bool.false_ne_true hnone
        · rw [if_neg hgt]
          have hclose : Close f eps e.1 x := ⟨not_lt.mp hgt, not_lt.mp hlt⟩
          simp [hclose]

include hless in
/-- A key close to an entry is not put in. -/
theorem emplace_of_close {key : κ} {value : ν} {m : List (κ × ν)}
    (hm : Spaced f eps m) (hclose : ∃ e ∈ m, Close f eps e.1 key) :
    emplace less key value m = m := by
  induction m with
  | nil => simp at hclose
  | cons e rest ih =>
      obtain ⟨hfirst, hrest⟩ := List.pairwise_cons.mp hm
      rw [emplace, hless, hless]
      simp only [decide_eq_true_eq]
      rcases (List.exists_mem_cons_iff _ _ _).mp hclose with h | h
      · rw [if_neg (not_lt.mpr h.2), if_neg (not_lt.mpr h.1)]
      · by_cases hlt : f e.1 + eps < f key
        · rw [if_pos hlt, ih hrest h]
        · obtain ⟨e', he', h⟩ := h
          have hgt := hfirst e' he'
          have hle := h.1
          rw [if_neg hlt, if_neg (by omega)]

include hless in
/-- Any other key is put in at its place. -/
theorem emplace_of_not_close {key : κ} {value : ν} {m : List (κ × ν)}
    (hm : Spaced f eps m) (hclose : ¬∃ e ∈ m, Close f eps e.1 key) :
    Spaced f eps (emplace less key value m) ∧
      ∀ e, e ∈ emplace less key value m ↔ e = (key, value) ∨ e ∈ m := by
  induction m with
  | nil => simp [emplace, Spaced]
  | cons e rest ih =>
      obtain ⟨hfirst, hrest⟩ := List.pairwise_cons.mp hm
      rw [List.exists_mem_cons_iff, not_or] at hclose
      obtain ⟨hnot, hnone⟩ := hclose
      rw [emplace, hless, hless]
      simp only [decide_eq_true_eq]
      by_cases hlt : f e.1 + eps < f key
      · obtain ⟨hspaced, hmem⟩ := ih hrest hnone
        rw [if_pos hlt]
        refine ⟨List.pairwise_cons.mpr ⟨fun e' he' => ?_, hspaced⟩, fun e' => ?_⟩
        · rcases (hmem e').mp he' with rfl | he'
          · exact hlt
          · exact hfirst e' he'
        · rw [List.mem_cons, List.mem_cons, hmem]
          exact or_left_comm
      · have hgt : f key + eps < f e.1 := by
          by_contra hgt
          exact hnot ⟨not_lt.mp hgt, not_lt.mp hlt⟩
        rw [if_neg hlt, if_pos hgt]
        refine ⟨List.pairwise_cons.mpr ⟨fun e' he' => ?_, hm⟩, fun e' => List.mem_cons⟩
        rcases List.mem_cons.mp he' with rfl | he'
        · exact hgt
        · have := hfirst e' he'
          show f key + eps < f e'.1
          omega

end Map

/-! ### The keys that are kept -/

/-- Takes a key unless a close one has been taken. -/
def addKept (f : κ → ℤ) (eps : ℤ) (kept : List κ) (key : κ) : List κ :=
  if ∃ k ∈ kept, Close f eps k key then kept else key :: kept

/-- The keys of a column that a map keeps. -/
def kept (f : κ → ℤ) (eps : ℤ) (keys : List κ) : List κ := keys.foldl (addKept f eps) []

/-- A map holds the keys `ks`. -/
def Holds (f : κ → ℤ) (eps : ℤ) (m : List (κ × ν)) (ks : List κ) : Prop :=
  Spaced f eps m ∧ ∀ k, k ∈ m.map Prod.fst ↔ k ∈ ks

section Kept

variable {less : κ → κ → Bool} (hless : ∀ x y, less x y = decide (f x + eps < f y))

theorem Holds.exists_close_iff {m : List (κ × ν)} {ks : List κ} (h : Holds f eps m ks) (x : κ) :
    (∃ e ∈ m, Close f eps e.1 x) ↔ ∃ k ∈ ks, Close f eps k x := by
  constructor
  · intro h'
    obtain ⟨e, he, hclose⟩ := h'
    exact ⟨e.1, (h.2 e.1).mp (List.mem_map_of_mem he), hclose⟩
  · intro h'
    obtain ⟨k, hk, hclose⟩ := h'
    obtain ⟨e, he, rfl⟩ := List.mem_map.mp ((h.2 k).mpr hk)
    exact ⟨e, he, hclose⟩

include hless in
/-- One emplacement. -/
theorem Holds.emplace {m : List (κ × ν)} {ks : List κ} (h : Holds f eps m ks) (key : κ)
    (value : ν) : Holds f eps (emplace less key value m) (addKept f eps ks key) := by
  unfold addKept
  by_cases hclose : ∃ k ∈ ks, Close f eps k key
  · rw [if_pos hclose, emplace_of_close hless h.1 ((h.exists_close_iff key).mpr hclose)]
    exact h
  · obtain ⟨hspaced, hmem⟩ :
        Spaced f eps (KeyJoin.emplace less key value m) ∧
          ∀ e, e ∈ KeyJoin.emplace less key value m ↔ e = (key, value) ∨ e ∈ m :=
      emplace_of_not_close hless h.1 (mt (h.exists_close_iff key).mp hclose)
    rw [if_neg hclose]
    refine ⟨hspaced, fun k => ?_⟩
    rw [List.mem_cons, ← h.2 k, List.mem_map, List.mem_map]
    constructor
    · intro h'
      obtain ⟨e, he, rfl⟩ := h'
      rcases (hmem e).mp he with rfl | he
      · exact .inl rfl
      · exact .inr ⟨e, he, rfl⟩
    · intro h'
      rcases h' with rfl | ⟨e, he, rfl⟩
      · exact ⟨(k, value), (hmem _).mpr (.inl rfl), rfl⟩
      · exact ⟨e, (hmem e).mpr (.inr he), rfl⟩

include hless in
theorem holds_emplaceFrom (keys : List κ) : ∀ (it : ℕ) {m : List (κ × ℕ)} {ks : List κ},
    Holds f eps m ks →
      Holds f eps (emplaceFrom less it keys m) (keys.foldl (addKept f eps) ks) := by
  induction keys with
  | nil => exact fun _ _ _ h => h
  | cons key keys ih => exact fun it _ _ h => ih (it + 1) (h.emplace hless key it)

include hless in
theorem holds_foldl_emplace (keys : List κ) : ∀ {st : List (κ × Unit)} {ks : List κ},
    Holds f eps st ks →
      Holds f eps (keys.foldl (fun st x => emplace less x () st) st)
        (keys.foldl (addKept f eps) ks) := by
  induction keys with
  | nil => exact fun h => h
  | cons key keys ih => exact fun h => ih (h.emplace hless key ())

theorem holds_nil : Holds f eps ([] : List (κ × ν)) [] := ⟨List.Pairwise.nil, by simp⟩

include hless in
/-- **What a map of a column finds.** -/
theorem isSome_find_emplaceFrom (keys : List κ) (x : κ) :
    (find less x (emplaceFrom less 0 keys [])).isSome ↔ ∃ k ∈ kept f eps keys, Close f eps k x := by
  have h := holds_emplaceFrom hless keys 0 holds_nil
  rw [isSome_find_iff hless h.1, h.exists_close_iff]
  rfl

include hless in
/-- **What a set of a column finds.** -/
theorem isSome_find_foldl_emplace (keys : List κ) (x : κ) :
    (find less x (keys.foldl (fun st x => emplace less x () st) [])).isSome
      ↔ ∃ k ∈ kept f eps keys, Close f eps k x := by
  have h := holds_foldl_emplace hless keys holds_nil
  rw [isSome_find_iff hless h.1, h.exists_close_iff]
  rfl

end Kept

/-! ### The order of the column -/

section Order

variable {keys : List κ} {k x : κ}

theorem mem_addKept {ks : List κ} {key : κ} (hk : k ∈ addKept f eps ks key) : k = key ∨ k ∈ ks := by
  unfold addKept at hk
  split at hk
  · exact .inr hk
  · exact List.mem_cons.mp hk

theorem subset_addKept {ks : List κ} (key : κ) (hk : k ∈ ks) : k ∈ addKept f eps ks key := by
  unfold addKept
  split
  · exact hk
  · exact List.mem_cons_of_mem key hk

theorem exists_close_addKept (heps : 0 ≤ eps) (ks : List κ) (key : κ) :
    ∃ k ∈ addKept f eps ks key, Close f eps k key := by
  unfold addKept
  split
  · assumption
  · exact ⟨key, List.mem_cons_self, by constructor <;> omega⟩

/-- What is known of the kept keys while a column is read. -/
structure Keeps (f : κ → ℤ) (eps : ℤ) (ks seen : List κ) : Prop where
  mem : ∀ k ∈ ks, k ∈ seen
  covers : ∀ k ∈ seen, ∃ s ∈ ks, Close f eps s k
  far : ∀ k ∈ ks, ∀ s ∈ ks, k ≠ s → ¬Close f eps k s

theorem Keeps.addKept (heps : 0 ≤ eps) {ks seen : List κ} (h : Keeps f eps ks seen) (key : κ) :
    Keeps f eps (addKept f eps ks key) (seen ++ [key]) where
  mem := by
    intro k hk
    rcases mem_addKept hk with rfl | hk
    · simp
    · exact List.mem_append_left _ (h.mem k hk)
  covers := by
    intro k hk
    rcases List.mem_append.mp hk with hk | hk
    · obtain ⟨s, hs, hclose⟩ := h.covers k hk
      exact ⟨s, subset_addKept key hs, hclose⟩
    · obtain rfl := List.mem_singleton.mp hk
      exact exists_close_addKept heps ks k
  far := by
    unfold KeyJoin.addKept
    split
    · exact h.far
    · rename_i hnone
      intro k hk s hs hne hclose
      rcases List.mem_cons.mp hk with hkey | hk
      · rcases List.mem_cons.mp hs with hkey' | hs
        · exact hne (hkey.trans hkey'.symm)
        · exact hnone ⟨s, hs, hkey ▸ hclose.symm⟩
      · rcases List.mem_cons.mp hs with hkey' | hs
        · exact hnone ⟨k, hk, hkey' ▸ hclose⟩
        · exact h.far k hk s hs hne hclose

theorem keeps_foldl (heps : 0 ≤ eps) (keys : List κ) : ∀ {ks seen : List κ},
    Keeps f eps ks seen → Keeps f eps (keys.foldl (addKept f eps) ks) (seen ++ keys) := by
  induction keys with
  | nil =>
      intro ks seen h
      rwa [List.append_nil]
  | cons key keys ih =>
      intro ks seen h
      have hrest := ih (h.addKept heps key)
      rwa [List.append_assoc] at hrest

/-- The kept keys are keys of the column, close to every key of it and not close to each
other. -/
theorem keeps_kept (heps : 0 ≤ eps) (keys : List κ) : Keeps f eps (kept f eps keys) keys := by
  have hnil : Keeps f eps ([] : List κ) [] := ⟨by simp, by simp, by simp⟩
  exact keeps_foldl heps keys hnil

theorem subset_foldl_addKept (keys : List κ) : ∀ {ks : List κ}, k ∈ ks →
    k ∈ keys.foldl (addKept f eps) ks := by
  induction keys with
  | nil => exact fun h => h
  | cons key keys ih => exact fun h => ih (subset_addKept key h)

/-- The first key is kept. -/
theorem mem_kept_cons (keys : List κ) : k ∈ kept f eps (k :: keys) :=
  subset_foldl_addKept keys (by simp [addKept])

/-- The second key is kept if it is not close to the first one. -/
theorem mem_kept_cons_cons {d : κ} (hfar : ¬Close f eps k d) (keys : List κ) :
    d ∈ kept f eps (k :: d :: keys) :=
  subset_foldl_addKept keys (by simp [addKept, hfar])

/-- Whether a key is found does not depend on the order of the column: none of its keys
is close, or those that are not close leave one of them to be kept. -/
def OrderFree (f : κ → ℤ) (eps : ℤ) (keys : List κ) (x : κ) : Prop :=
  (∀ k ∈ keys, ¬Close f eps k x) ∨
    ∀ d₁ ∈ keys, ∀ d₂ ∈ keys, ¬Close f eps d₁ x → ¬Close f eps d₂ x →
      ∃ k ∈ keys, Close f eps k x ∧ ¬Close f eps d₁ k ∧ ¬Close f eps d₂ k

instance (keys : List κ) (x : κ) : Decidable (OrderFree f eps keys x) :=
  inferInstanceAs (Decidable (_ ∨ _))

theorem exists_perm_cons {keys : List κ} (hk : k ∈ keys) : ∃ rest, (k :: rest).Perm keys := by
  obtain ⟨a, b, rfl⟩ := List.append_of_mem hk
  exact ⟨a ++ b, List.perm_middle.symm⟩

/-- A largest key below a bound, if there is one. -/
theorem exists_max_below (g : κ → ℤ) (b : ℤ) {ks : List κ} (hk : k ∈ ks) :
    ∃ d ∈ ks, ∀ s ∈ ks, g s < b → g s ≤ g d ∧ g d < b := by
  cases hmax : (ks.filter fun s => g s < b).argmax g with
  | none =>
      refine ⟨k, hk, fun s hs hlt => ?_⟩
      have hmem : s ∈ ks.filter fun s => g s < b := List.mem_filter.mpr ⟨hs, by simpa using hlt⟩
      rw [List.argmax_eq_none.mp hmax] at hmem
      exact absurd hmem List.not_mem_nil
  | some d =>
      obtain ⟨hd, hlt⟩ := List.mem_filter.mp (List.argmax_mem hmax)
      refine ⟨d, hd, fun s hs hlt' => ⟨?_, of_decide_eq_true hlt⟩⟩
      exact List.le_of_mem_argmax (List.mem_filter.mpr ⟨hs, by simpa using hlt'⟩) hmax

/-- A close key is found whatever the order, if no two of the others absorb all that are
close. -/
theorem exists_kept_close (heps : 0 ≤ eps) {keys' : List κ} (hperm : keys'.Perm keys)
    (hk : k ∈ keys)
    (hfree : ∀ d₁ ∈ keys, ∀ d₂ ∈ keys, ¬Close f eps d₁ x → ¬Close f eps d₂ x →
      ∃ k ∈ keys, Close f eps k x ∧ ¬Close f eps d₁ k ∧ ¬Close f eps d₂ k) :
    ∃ s ∈ kept f eps keys', Close f eps s x := by
  by_contra hnone
  have hfar : ∀ s ∈ kept f eps keys', ¬Close f eps s x := fun s hs h => hnone ⟨s, hs, h⟩
  have hkeeps := keeps_kept (f := f) heps keys'
  have hmem : ∀ s ∈ kept f eps keys', s ∈ keys := fun s hs => hperm.subset (hkeeps.mem s hs)
  obtain ⟨s₀, hs₀, -⟩ := hkeeps.covers k (hperm.mem_iff.mpr hk)
  -- the nearest kept keys on the two sides
  obtain ⟨d₁, hd₁, hbelow⟩ := exists_max_below f (f x - eps) hs₀
  obtain ⟨d₂, hd₂, habove⟩ := exists_max_below (fun s => -f s) (-f x - eps) hs₀
  obtain ⟨k', hk', hclose, hno₁, hno₂⟩ :=
    hfree d₁ (hmem d₁ hd₁) d₂ (hmem d₂ hd₂) (hfar d₁ hd₁) (hfar d₂ hd₂)
  obtain ⟨s, hs, hsk⟩ := hkeeps.covers k' (hperm.mem_iff.mpr hk')
  have hbelow := hbelow s hs
  have habove := habove s hs
  have hsx := hfar s hs
  unfold Close at hclose hno₁ hno₂ hsk hsx
  omega

/-- Kept keys that absorb all close ones hide them. -/
theorem not_exists_kept_close (heps : 0 ≤ eps) {keys' : List κ} (hperm : keys'.Perm keys)
    (habsorb : ∀ k ∈ keys, Close f eps k x →
      ∃ d ∈ kept f eps keys', ¬Close f eps d x ∧ Close f eps d k) :
    ¬∃ s ∈ kept f eps keys', Close f eps s x := by
  intro h
  obtain ⟨s, hs, hclose⟩ := h
  have hkeeps := keeps_kept (f := f) heps keys'
  obtain ⟨d, hd, hdx, hds⟩ := habsorb s (hperm.subset (hkeeps.mem s hs)) hclose
  have hne : d ≠ s := by
    intro h
    subst h
    exact hdx hclose
  exact hkeeps.far d hd s hs hne hds

/-- Two keys that absorb all close ones are not close to each other, or one of them
absorbs all. -/
theorem exists_absorbs {d₁ d₂ : κ} (h₂ : ¬Close f eps d₂ x)
    (hall : ∀ k ∈ keys, Close f eps k x → Close f eps d₁ k ∨ Close f eps d₂ k)
    (hclose : Close f eps d₁ d₂) :
    ∃ d, (d = d₁ ∨ d = d₂) ∧ ∀ k ∈ keys, Close f eps k x → Close f eps d k := by
  unfold Close at *
  -- both are on one side of `x`, and the nearer one absorbs more
  by_cases hnearer : f d₁ ≤ f d₂ ↔ f d₁ < f x
  · refine ⟨d₂, .inr rfl, fun k hk hkx => ?_⟩
    have := hall k hk hkx
    omega
  · refine ⟨d₁, .inl rfl, fun k hk hkx => ?_⟩
    have := hall k hk hkx
    omega

/-- **When a lookup does not depend on the order of the column.** -/
theorem kept_iff_orderFree (heps : 0 ≤ eps) (keys : List κ) (x : κ) :
    (∀ keys', keys'.Perm keys →
        ((∃ s ∈ kept f eps keys', Close f eps s x) ↔ ∃ s ∈ kept f eps keys, Close f eps s x))
      ↔ OrderFree f eps keys x := by
  constructor
  · intro h
    by_contra hno
    obtain ⟨hsome, hpair⟩ := not_or.mp hno
    push Not at hsome hpair
    obtain ⟨k, hk, hkx⟩ := hsome
    obtain ⟨d₁, hd₁, d₂, hd₂, h₁, h₂, hall⟩ := hpair
    have hall : ∀ k ∈ keys, Close f eps k x → Close f eps d₁ k ∨ Close f eps d₂ k :=
      fun k hk hkx => or_iff_not_imp_left.mpr (hall k hk hkx)
    -- with `k` first it is found, hence in every order
    obtain ⟨rest, hperm⟩ := exists_perm_cons hk
    have hfound := (h _ hperm).mp ⟨k, mem_kept_cons rest, hkx⟩
    by_cases hclose : Close f eps d₁ d₂
    · obtain ⟨d, hd, habsorb⟩ := exists_absorbs h₂ hall hclose
      have hdkeys : d ∈ keys ∧ ¬Close f eps d x := by
        rcases hd with rfl | rfl
        · exact ⟨hd₁, h₁⟩
        · exact ⟨hd₂, h₂⟩
      obtain ⟨rest, hperm⟩ := exists_perm_cons hdkeys.1
      refine not_exists_kept_close heps hperm (fun k hk hkx => ?_) ((h _ hperm).mpr hfound)
      exact ⟨d, mem_kept_cons rest, hdkeys.2, habsorb k hk hkx⟩
    · obtain ⟨rest₁, hperm₁⟩ := exists_perm_cons hd₁
      have hne : d₂ ≠ d₁ := by
        intro hx
        subst hx
        exact hclose ⟨by omega, by omega⟩
      have hd₂ : d₂ ∈ rest₁ := by
        rcases List.mem_cons.mp (hperm₁.mem_iff.mpr hd₂) with heq | hd₂
        · exact absurd heq hne
        · exact hd₂
      obtain ⟨rest, hperm₂⟩ := exists_perm_cons hd₂
      have hperm : (d₁ :: d₂ :: rest).Perm keys := (hperm₂.cons d₁).trans hperm₁
      refine not_exists_kept_close heps hperm (fun k hk hkx => ?_) ((h _ hperm).mpr hfound)
      rcases hall k hk hkx with hd | hd
      · exact ⟨d₁, mem_kept_cons _, h₁, hd⟩
      · exact ⟨d₂, mem_kept_cons_cons hclose rest, h₂, hd⟩
  · intro hfree keys' hperm
    rcases hfree with hnone | hfree
    · have hno : ∀ keys' : List κ, keys'.Perm keys →
          ¬∃ s ∈ kept f eps keys', Close f eps s x := by
        rintro keys' hperm ⟨s, hs, hclose⟩
        exact hnone s (hperm.subset ((keeps_kept heps keys').mem s hs)) hclose
      exact iff_of_false (hno keys' hperm) (hno keys (.refl keys))
    · by_cases hk : ∃ k, k ∈ keys
      · obtain ⟨k, hk⟩ := hk
        exact iff_of_true (exists_kept_close heps hperm hk hfree)
          (exists_kept_close heps (.refl keys) hk hfree)
      · obtain rfl : keys = [] := List.eq_nil_iff_forall_not_mem.mpr fun k h => hk ⟨k, h⟩
        rw [List.perm_nil.mp hperm]

end Order

end KeyJoin
