import Mathlib.Algebra.BigOperators.Group.Finset.Basic
import Mathlib.Algebra.Order.BigOperators.Group.Finset
import Mathlib.Data.Fintype.Card
import QuickMpc.Registration.SendShares

/-!
# QuickMpc.Registration.Sync

`Sync` as a barrier. Each container counts the calls it receives for a sync id,
and `Wait` takes all of them at once. In every run, what a party has counted and
what its finished waits have taken is at most what the other parties have sent
(`Counted`), so a request that is the only one with its sync id to be under way
is past `Sync` at one party only when it is inserted at all parties (`barrier`).
-/

namespace QuickMpc.Registration

open StepSystem

variable {n : ℕ}

/-! ### Counting -/

/-- Two sums that differ in one term. -/
theorem sum_add_of_eq_off {R : Finset ℕ} {f g : ℕ → ℕ} {r : ℕ} (hr : r ∈ R)
    (hoff : ∀ x, x ≠ r → g x = f x) : ∑ x ∈ R, g x + f r = ∑ x ∈ R, f x + g r := by
  have hrest : ∑ x ∈ R.erase r, g x = ∑ x ∈ R.erase r, f x :=
    Finset.sum_congr rfl fun x hx => hoff x (Finset.ne_of_mem_erase hx)
  rw [← Finset.add_sum_erase R f hr, ← Finset.add_sum_erase R g hr, hrest]
  omega

/-- The requests with this sync id. -/
def keyed (s : State n) (key : String) : Finset ℕ :=
  (Finset.range s.requests.length).filter fun r => (s.requests[r]?).map Request.syncID = some key

/-- The parties that have called `Sync` at party `i` for the `r`-th request. -/
def syncedTo (s : State n) (i : Fin n) (r : ℕ) : Finset (Fin n) :=
  (Finset.univ.erase i).filter fun j => (s.phase j r).synced i

/-- The calls that the wait of party `i` for the `r`-th request has taken. -/
def taken (s : State n) (i : Fin n) (r : ℕ) : ℕ :=
  if (s.phase i r).passed then (others i).length else 0

/-- No more calls are counted or taken than were sent. -/
def Counted (s : State n) : Prop :=
  ∀ i key, s.count_map i key + ∑ r ∈ keyed s key, taken s i r
    ≤ ∑ r ∈ keyed s key, (syncedTo s i r).card

theorem card_others (i : Fin n) : (Finset.univ.erase i).card = (others i).length := by
  rw [← List.toFinset_card_of_nodup (nodup_others i)]
  congr 1
  ext j
  simp [mem_others]

theorem card_syncedTo_le (s : State n) (i : Fin n) (r : ℕ) :
    (syncedTo s i r).card ≤ (others i).length := by
  rw [← card_others]
  exact Finset.card_filter_le _ _

theorem mem_keyed {s : State n} {r : ℕ} {q : Request n} (hq : s.requests[r]? = some q)
    (key : String) : r ∈ keyed s key ↔ key = q.syncID := by
  have hr : r < s.requests.length := (List.getElem?_eq_some_iff.mp hq).1
  rw [keyed, Finset.mem_filter, Finset.mem_range, hq]
  simp [hr, eq_comm]

theorem counted_start (stores : Fin n → List Doc) : Counted (start stores) := by
  intro i key
  simp [start, keyed]

/-- A new request counts nothing. -/
theorem Counted.sendShares {s : State n} (h : Counted s) (hwf : WellFormed s) (q : Request n) :
    Counted { s with requests := s.requests ++ [q] } := by
  intro i key
  have hsub : keyed s key ⊆ keyed { s with requests := s.requests ++ [q] } key := by
    intro r hr
    obtain ⟨hlt, hkey⟩ := Finset.mem_filter.mp hr
    have hlt' := Finset.mem_range.mp hlt
    refine Finset.mem_filter.mpr ⟨Finset.mem_range.mpr (by simpa using Nat.lt_succ_of_lt hlt'), ?_⟩
    show ((s.requests ++ [q])[r]?).map Request.syncID = some key
    rw [List.getElem?_append_left hlt']
    exact hkey
  -- the new request is `received` everywhere
  have hnew : ∀ r ∈ keyed { s with requests := s.requests ++ [q] } key, r ∉ keyed s key →
      ∀ j, s.phase j r = .received := by
    intro r hr hold j
    refine hwf.received j r (Nat.not_lt.mp fun hlt => hold ?_)
    obtain ⟨-, hkey⟩ := Finset.mem_filter.mp hr
    have hget : (s.requests ++ [q])[r]? = s.requests[r]? := List.getElem?_append_left hlt
    refine Finset.mem_filter.mpr ⟨Finset.mem_range.mpr hlt, ?_⟩
    rw [← hget]
    exact hkey
  have htaken : ∑ r ∈ keyed s key, taken s i r
      = ∑ r ∈ keyed { s with requests := s.requests ++ [q] } key,
        taken { s with requests := s.requests ++ [q] } i r := by
    refine Finset.sum_subset hsub fun r hr hold => ?_
    simp [taken, hnew r hr hold, Phase.passed]
  have hsynced : ∑ r ∈ keyed s key, (syncedTo s i r).card
      = ∑ r ∈ keyed { s with requests := s.requests ++ [q] } key,
        (syncedTo { s with requests := s.requests ++ [q] } i r).card := by
    refine Finset.sum_subset hsub fun r hr hold => ?_
    simp [syncedTo, hnew r hr hold, Phase.synced]
  rw [← htaken, ← hsynced]
  exact h i key

theorem taken_congr {s s' : State n} {i : Fin n} {r : ℕ}
    (h : (s'.phase i r).passed = (s.phase i r).passed) : taken s' i r = taken s i r := by
  rw [taken, taken, h]

theorem Handled.taken_eq {s s' : State n} {i : Fin n} {r : ℕ} {q : Request n}
    (hs : Handled s i r q s') (h : (s'.phase i r).passed = (s.phase i r).passed) (j : Fin n) :
    taken s' j r = taken s j r := by
  refine taken_congr ?_
  by_cases hj : j = i
  · rw [hj, h]
  · rw [hs.phase_other_party hj r]

/-- A step of one handler is a matter of its own request. -/
theorem Counted.of_local {s s' : State n} {i : Fin n} {r : ℕ} {q : Request n} (h : Counted s)
    (hq : s.requests[r]? = some q) (hs : Handled s i r q s')
    (hother : ∀ j key, key ≠ q.syncID → s'.count_map j key = s.count_map j key)
    (hlocal : ∀ j, s'.count_map j q.syncID + taken s' j r + (syncedTo s j r).card
      ≤ s.count_map j q.syncID + taken s j r + (syncedTo s' j r).card) : Counted s' := by
  intro j key
  have hkeyed : keyed s' key = keyed s key := by
    unfold keyed
    rw [hs.requests]
  have htaken : ∀ r', r' ≠ r → taken s' j r' = taken s j r' := fun r' hr' =>
    taken_congr (by rw [hs.phase_other_request hr' j])
  have hsynced : ∀ r', r' ≠ r → (syncedTo s' j r').card = (syncedTo s j r').card := fun r' hr' => by
    unfold syncedTo
    simp only [hs.phase_other_request hr']
  rw [hkeyed]
  have hold := h j key
  by_cases hkey : key = q.syncID
  · have hr : r ∈ keyed s key := (mem_keyed hq key).mpr hkey
    have h₁ := sum_add_of_eq_off hr htaken
    have h₂ := sum_add_of_eq_off hr hsynced
    have h₃ := hlocal j
    rw [← hkey] at h₃
    omega
  · have hr : ∀ r' ∈ keyed s key, r' ≠ r := by
      rintro r' hr' rfl
      exact hkey ((mem_keyed hq key).mp hr')
    rw [hother j key hkey, Finset.sum_congr rfl fun r' hr' => htaken r' (hr r' hr'),
      Finset.sum_congr rfl fun r' hr' => hsynced r' (hr r' hr')]
    exact hold

/-- A phase that has called `Sync` wherever the one before it had. -/
theorem card_syncedTo_mono {s s' : State n} {i j : Fin n} {r : ℕ} {q : Request n}
    (hs : Handled s i r q s')
    (hmono : j ≠ i → (s.phase i r).synced j = true → (s'.phase i r).synced j = true) :
    (syncedTo s j r).card ≤ (syncedTo s' j r).card := by
  refine Finset.card_le_card fun k hk => ?_
  obtain ⟨hkj, hsynced⟩ := Finset.mem_filter.mp hk
  refine Finset.mem_filter.mpr ⟨hkj, ?_⟩
  by_cases hki : k = i
  · subst hki
    exact hmono (Finset.ne_of_mem_erase hkj).symm hsynced
  · rw [hs.phase_other_party hki r]
    exact hsynced

theorem setCount_count_map (s : State n) (i j : Fin n) (key key' : String) (count : ℕ) :
    (s.setCount i key count).count_map j key'
      = if j = i ∧ key' = key then count else s.count_map j key' := by
  by_cases hj : j = i
  · subst hj
    simp [State.setCount, Function.update_apply]
  · simp [State.setCount, hj]

/-- A step that neither counts nor takes. -/
theorem Counted.of_same {s s' : State n} {i : Fin n} {r : ℕ} {q : Request n} (h : Counted s)
    (hq : s.requests[r]? = some q) (hs : Handled s i r q s') (hcount : s'.count_map = s.count_map)
    (hpassed : (s'.phase i r).passed = (s.phase i r).passed)
    (hsynced : ∀ j, j ≠ i → (s.phase i r).synced j = true → (s'.phase i r).synced j = true) :
    Counted s' := by
  refine h.of_local hq hs (fun j key _ => by rw [hcount]) fun j => ?_
  rw [hcount, hs.taken_eq hpassed j]
  exact Nat.add_le_add_left (card_syncedTo_mono hs (hsynced j)) _

/-- The called party counts one more, sent by the caller. -/
theorem Counted.sync {s s' : State n} {i k : Fin n} {r : ℕ} {q : Request n} {err : Option String}
    {rest : List (Fin n)} (h : Counted s) (hq : s.requests[r]? = some q) (hs : Handled s i r q s')
    (hph : s.phase i r = .syncing err (k :: rest)) (hrest : (k :: rest).Sublist (others i))
    (hph' : s'.phase i r = .syncing err rest)
    (hcount : ∀ j key, s'.count_map j key
      = if j = k ∧ key = q.syncID then s.count_map k q.syncID + 1 else s.count_map j key) :
    Counted s' := by
  have hki : k ≠ i := mem_others.mp (hrest.subset List.mem_cons_self)
  have hk : k ∉ rest := (List.nodup_cons.mp ((nodup_others i).sublist hrest)).1
  refine h.of_local hq hs (fun j key hne => ?_) fun j => ?_
  · rw [hcount, if_neg fun hboth => hne hboth.2]
  have htaken : taken s' j r = taken s j r := by
    refine hs.taken_eq ?_ j
    rw [hph, hph']
    rfl
  have hmono : (syncedTo s j r).card ≤ (syncedTo s' j r).card := by
    refine card_syncedTo_mono hs fun _ hold => ?_
    rw [hph] at hold
    rw [hph']
    simp only [Phase.synced, decide_eq_true_iff] at hold ⊢
    exact fun hmem => hold (List.mem_cons_of_mem _ hmem)
  by_cases hj : j = k
  · subst hj
    have hmem : i ∉ syncedTo s j r := by
      intro hmem
      have hsynced := (Finset.mem_filter.mp hmem).2
      rw [hph] at hsynced
      exact absurd hsynced (by simp [Phase.synced])
    have hcard : (syncedTo s j r).card + 1 ≤ (syncedTo s' j r).card := by
      rw [← Finset.card_insert_of_notMem hmem]
      refine Finset.card_le_card fun k' hk' => ?_
      by_cases hk'i : k' = i
      · subst hk'i
        refine Finset.mem_filter.mpr ⟨Finset.mem_erase.mpr ⟨hki.symm, Finset.mem_univ _⟩, ?_⟩
        rw [hph']
        simpa [Phase.synced] using hk
      · obtain ⟨hne, hold⟩ := Finset.mem_filter.mp (Finset.mem_of_mem_insert_of_ne hk' hk'i)
        refine Finset.mem_filter.mpr ⟨hne, ?_⟩
        rw [hs.phase_other_party hk'i r]
        exact hold
    rw [hcount, if_pos ⟨rfl, rfl⟩, htaken]
    omega
  · rw [hcount, if_neg fun hboth => hj hboth.1, htaken]
    omega

/-- The wait takes what it has waited for. -/
theorem Counted.wait {s s' : State n} {i : Fin n} {r : ℕ} {q : Request n} {err : Option String}
    (h : Counted s) (hq : s.requests[r]? = some q) (hs : Handled s i r q s')
    (henough : (others i).length ≤ s.count_map i q.syncID)
    (hph' : s'.phase i r = afterSync i err)
    (hcount : ∀ j key, s'.count_map j key
      = if j = i ∧ key = q.syncID then 0 else s.count_map j key) : Counted s' := by
  have hpassed : (s'.phase i r).passed = true := by
    rw [hph']
    cases err with
    | none => rfl
    | some err => rfl
  refine h.of_local hq hs (fun j key hne => ?_) fun j => ?_
  · rw [hcount, if_neg fun hboth => hne hboth.2]
  have hmono : (syncedTo s j r).card ≤ (syncedTo s' j r).card := by
    refine card_syncedTo_mono hs fun _ _ => ?_
    rw [hph']
    cases err with
    | none => rfl
    | some err => rfl
  by_cases hj : j = i
  · subst hj
    have htaken : taken s' j r = (others j).length := if_pos hpassed
    rw [hcount, if_pos ⟨rfl, rfl⟩, htaken]
    omega
  · have htaken : taken s' j r = taken s j r :=
      taken_congr (by rw [hs.phase_other_party hj r])
    rw [hcount, if_neg fun hboth => hj hboth.1, htaken]
    omega

theorem Counted.handled {s s' : State n} {i : Fin n} {r : ℕ} {q : Request n} (h : Counted s)
    (hwf : WellFormed s) (hq : s.requests[r]? = some q) (hs : Handled s i r q s') : Counted s' := by
  have hs₀ := hs
  cases hs with
  | duplicate err hph hcheck | check hph hcheck | insert hph =>
      refine h.of_same hq hs₀ rfl ?_ ?_
      · rw [State.setPhase_phase_self, hph]
        rfl
      · intro j _ hold
        rw [hph] at hold
        exact absurd hold (by simp [Phase.synced])
  | sync err k rest hph =>
      exact h.sync hq hs₀ hph (hwf.syncing i r err _ hph) (State.setPhase_phase_self _ i r _)
        fun j key => setCount_count_map s k j q.syncID key _
  | wait err hph hcount =>
      exact h.wait hq hs₀ hcount (State.setPhase_phase_self _ i r _)
        fun j key => setCount_count_map s i j q.syncID key 0
  | delete err j rest hph | finish err hph =>
      refine h.of_same hq hs₀ rfl ?_ ?_
      · rw [State.setPhase_phase_self, hph]
        rfl
      · intro k _ _
        rw [State.setPhase_phase_self]
        rfl

/-! ### The barrier -/

/-- **`Sync` is a barrier** for a request when every other request with its sync
id is over. -/
theorem barrier {s : State n} {r : ℕ} {q : Request n} (h : Counted s)
    (hq : s.requests[r]? = some q)
    (hothers : ∀ r' q', r' ≠ r → s.requests[r']? = some q' → q'.syncID = q.syncID →
      ∀ i, (s.phase i r').passed = true)
    {i : Fin n} (hpassed : (s.phase i r).passed = true) (j : Fin n) :
    (s.phase j r).inserted = true := by
  by_cases hj : j = i
  · subst hj
    exact Phase.inserted_of_passed hpassed
  · have hr : r ∈ keyed s q.syncID := (mem_keyed hq _).mpr rfl
    have hrest : ∑ r' ∈ (keyed s q.syncID).erase r, (syncedTo s i r').card
        ≤ ∑ r' ∈ (keyed s q.syncID).erase r, taken s i r' := by
      refine Finset.sum_le_sum fun r' hr' => ?_
      obtain ⟨hne, hmem⟩ := Finset.mem_erase.mp hr'
      obtain ⟨hlt, hkey⟩ := Finset.mem_filter.mp hmem
      obtain ⟨q', hq', hkey'⟩ := Option.map_eq_some_iff.mp hkey
      unfold taken
      rw [if_pos (hothers r' q' hne hq' hkey' i)]
      exact card_syncedTo_le s i r'
    have htaken : taken s i r = (others i).length := if_pos hpassed
    have hsum := h i q.syncID
    rw [← Finset.add_sum_erase _ _ hr, ← Finset.add_sum_erase _ _ hr, htaken] at hsum
    have hall : syncedTo s i r = Finset.univ.erase i := by
      refine Finset.eq_of_subset_of_card_le (Finset.filter_subset _ _) ?_
      rw [card_others]
      omega
    have hmem : j ∈ syncedTo s i r := by
      rw [hall]
      exact Finset.mem_erase.mpr ⟨hj, Finset.mem_univ j⟩
    exact Phase.inserted_of_synced (Finset.mem_filter.mp hmem).2

end QuickMpc.Registration
