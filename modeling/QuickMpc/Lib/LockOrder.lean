import Mathlib.Data.Set.Finite.Lemmas

/-!
# QuickMpc.Lib.LockOrder

Locks taken in increasing order. Processes hold locks, and each of them waits for at
most one. When every process waits for a lock above the ones it holds, not all of them
wait for taken locks.
-/

namespace LockOrder

variable {α κ β : Type*} [LinearOrder β]

/-- Of finitely many processes that hold all taken locks, one does not wait for a taken
lock: take the one whose lock is the highest. -/
theorem exists_unblocked (taken : κ → Prop) {processes : Set α} (hfin : processes.Finite)
    (hne : processes.Nonempty) {wants : α → Option κ} {held : α → List κ} {rank : κ → β}
    (hrank : ∀ a ∈ processes, ∀ k, wants a = some k → ∀ k' ∈ held a, rank k' < rank k)
    (hholder : ∀ k, taken k → ∃ a ∈ processes, k ∈ held a) :
    ∃ a ∈ processes, ∀ k, wants a = some k → ¬ taken k := by
  by_contra hall
  push Not at hall
  obtain ⟨a₀, ha₀⟩ := hne
  obtain ⟨k₀, -⟩ := hall a₀ ha₀
  have : Nonempty κ := ⟨k₀⟩
  choose! lock hwants htaken using hall
  obtain ⟨a, ha, hmax⟩ := Set.exists_max_image processes (fun a => rank (lock a)) hfin ⟨a₀, ha₀⟩
  obtain ⟨b, hb, hheld⟩ := hholder (lock a) (htaken a ha)
  have hless := hrank b hb (lock b) (hwants b hb) (lock a) hheld
  exact absurd (hmax b hb) (not_le_of_gt hless)

end LockOrder
