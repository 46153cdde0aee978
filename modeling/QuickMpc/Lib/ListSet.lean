import Mathlib.Algebra.Order.Ring.Int
import Mathlib.Data.Finset.Card
import Mathlib.Data.List.Perm.Basic

/-!
# QuickMpc.Lib.ListSet

Lists as tables of threads or calls: what changing one entry does to a count and to a
condition on all pairs of entries, and where the entries stand that a count counts.
-/

namespace ListSet

variable {α : Type*} {a a' : α} {l : List α} {w : ℕ}

/-- A sum over the entries after one of them has changed. -/
theorem sum_map_set (f : α → ℕ) (hw : l[w]? = some a) (a' : α) :
    ((l.set w a').map f).sum + f a = (l.map f).sum + f a' := by
  induction l generalizing w with
  | nil => simp at hw
  | cons b l ih =>
      cases w with
      | zero =>
          obtain rfl : b = a := by simpa using hw
          rw [List.set_cons_zero, List.map_cons, List.map_cons, List.sum_cons, List.sum_cons]
          omega
      | succ w =>
          have htail := ih (w := w) (by simpa using hw)
          rw [List.set_cons_succ, List.map_cons, List.map_cons, List.sum_cons, List.sum_cons]
          omega

theorem countP_eq_sum_map (p : α → Bool) (l : List α) :
    l.countP p = (l.map fun a => if p a then 1 else 0).sum := by
  induction l with
  | nil => rfl
  | cons a l ih => rw [List.countP_cons, ih, List.map_cons, List.sum_cons, Nat.add_comm]

/-- A count after one entry has changed. -/
theorem countP_set_add (p : α → Bool) (hw : l[w]? = some a) (a' : α) :
    (l.set w a').countP p + (if p a then 1 else 0) = l.countP p + if p a' then 1 else 0 := by
  rw [countP_eq_sum_map, countP_eq_sum_map]
  exact sum_map_set _ hw a'

/-- What the entries are mapped to, after one entry has changed to one with the same
image. -/
theorem map_set {β : Type*} {f : α → β} (hw : l[w]? = some a) (hf : f a' = f a) :
    (l.set w a').map f = l.map f := by
  obtain ⟨hlt, hget⟩ := List.getElem?_eq_some_iff.mp hw
  have hlt' : w < (l.map f).length := by simpa using hlt
  have hmap : (l.map f)[w] = f a' := by
    rw [List.getElem_map, hget, hf]
  rw [List.map_set, ← hmap, List.set_getElem_self]

/-- A condition on the pairs of entries after one entry has changed. -/
theorem pairwise_set {R : α → α → Prop} (h : l.Pairwise R) (hw : l[w]? = some a)
    (hleft : ∀ b, R a b → R a' b) (hright : ∀ b, R b a → R b a') : (l.set w a').Pairwise R := by
  rw [List.pairwise_iff_getElem] at h ⊢
  obtain ⟨hlt, hget⟩ := List.getElem?_eq_some_iff.mp hw
  intro i j hi hj hij
  have hi' : i < l.length := by simpa using hi
  have hj' : j < l.length := by simpa using hj
  have hold := h i j hi' hj' hij
  simp only [List.getElem_set]
  by_cases hwi : w = i
  · subst hwi
    rw [hget] at hold
    have hwj : w ≠ j := Nat.ne_of_lt hij
    simp only [hwj, if_true, if_false]
    exact hleft _ hold
  · by_cases hwj : w = j
    · subst hwj
      rw [hget] at hold
      simp only [hwi, if_true, if_false]
      exact hright _ hold
    · simp only [hwi, hwj, if_false]
      exact hold

/-- Entries that satisfy `p` are at most as many as `p` counts. -/
theorem card_le_countP {p : α → Bool} {l : List α} {S : Finset ℕ}
    (hS : ∀ c ∈ S, ∃ a, l[c]? = some a ∧ p a = true) : S.card ≤ l.countP p := by
  induction l using List.reverseRecOn generalizing S with
  | nil =>
      have hempty : S = ∅ := Finset.eq_empty_of_forall_notMem fun c hc => by
        obtain ⟨a, ha, -⟩ := hS c hc
        cases ha
      simp [hempty]
  | append_singleton l b ih =>
      have hinit : (S.erase l.length).card ≤ l.countP p := by
        refine ih fun c hc => ?_
        obtain ⟨hne, hmem⟩ := Finset.mem_erase.mp hc
        obtain ⟨a, ha, hp⟩ := hS c hmem
        rw [List.getElem?_append] at ha
        split at ha
        · exact ⟨a, ha, hp⟩
        · rename_i hge
          obtain ⟨k, hk⟩ : ∃ k, c - l.length = k + 1 := ⟨c - l.length - 1, by omega⟩
          simp [hk] at ha
      rw [List.countP_append]
      by_cases hlast : l.length ∈ S
      · obtain ⟨a, ha, hp⟩ := hS _ hlast
        obtain rfl : b = a := by simpa using ha
        rw [Finset.card_erase_of_mem hlast] at hinit
        have hone : [b].countP p = 1 := by simp [hp]
        omega
      · rw [Finset.erase_eq_of_notMem hlast] at hinit
        omega

/-- When only the last entry may fail `p`, the first entries satisfy it. -/
theorem getElem?_of_lt_countP {p : α → Bool} (h : l.Pairwise fun a _ => p a = true) {m : ℕ}
    (hm : m < l.countP p) : ∃ a, l[m]? = some a ∧ p a = true := by
  induction h generalizing m with
  | nil => cases hm
  | @cons a l ha _ ih =>
      rw [List.countP_cons] at hm
      cases m with
      | zero =>
          refine ⟨a, rfl, ?_⟩
          by_contra hp
          rw [if_neg hp] at hm
          obtain ⟨b, hb, -⟩ := List.countP_pos_iff.mp hm
          exact hp (ha b hb)
      | succ m =>
          have hm' : m < l.countP p := by
            split at hm <;> omega
          exact ih hm'

/-- Where an entry stands among those that satisfy `p`. -/
theorem getElem?_filter {p : α → Bool} {c : ℕ} (hc : l[c]? = some a) (hp : p a = true) :
    (l.filter p)[(l.take c).countP p]? = some a := by
  obtain ⟨hlt, hget⟩ := List.getElem?_eq_some_iff.mp hc
  have hsplit : l = l.take c ++ a :: l.drop (c + 1) := by
    rw [← hget, ← List.drop_eq_getElem_cons hlt, List.take_append_drop]
  have hfilter : l.filter p = (l.take c).filter p ++ a :: (l.drop (c + 1)).filter p := by
    conv_lhs => rw [hsplit]
    rw [List.filter_append, List.filter_cons_of_pos hp]
  rw [hfilter, List.countP_eq_length_filter, List.getElem?_append_right le_rfl, Nat.sub_self]
  rfl

end ListSet
