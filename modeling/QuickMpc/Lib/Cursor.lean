import Mathlib.Data.List.Basic

/-!
# QuickMpc.Lib.Cursor

Iterators into a list, with every move and every read checked.

An iterator is a position, and the end is the length of the list. `none` says that an
iterator was moved past the end or read there. The lemmas are about a list that is written
as an append, with the iterators at its seams.
-/

namespace QuickMpc.Cursor

variable {α : Type*}

/-! ### Moves -/

/-- `it + k`. -/
def advance (xs : List α) (it k : ℕ) : Option ℕ :=
  if it + k ≤ xs.length then some (it + k) else none

/-- The elements from `first` up to `last`. -/
def slice (xs : List α) (first last : ℕ) : Option (List α) :=
  if first ≤ last ∧ last ≤ xs.length then some ((xs.take last).drop first) else none

theorem advance_of_le {xs : List α} {it k : ℕ} (h : it + k ≤ xs.length) :
    advance xs it k = some (it + k) := if_pos h

theorem advance_of_lt {xs : List α} {it k : ℕ} (h : xs.length < it + k) :
    advance xs it k = none := if_neg (Nat.not_le.mpr h)

variable {xs u v w : List α} {first last : ℕ}

theorem slice_of_append (hxs : xs = u ++ (v ++ w)) (hfirst : first = u.length)
    (hlast : last = u.length + v.length) : slice xs first last = some v := by
  have hrange : first ≤ last ∧ last ≤ xs.length := by
    subst hxs hfirst hlast
    simp
  rw [slice, if_pos hrange, hxs, hfirst, hlast, ← List.append_assoc, ← List.length_append,
    List.take_left, List.drop_left]

theorem getElem?_of_append {x : α} (hxs : xs = u ++ x :: w) (hfirst : first = u.length) :
    xs[first]? = some x := by
  subst hxs hfirst
  simp

/-! ### Search -/

variable [DecidableEq α]

/-- The loop of `find`: what lies from `it` on is left to read. -/
def scan (c : α) (last : ℕ) : ℕ → List α → Option ℕ
  | it, [] => if it = last then some last else none
  | it, x :: xs =>
    if it = last then some last else if x = c then some it else scan c last (it + 1) xs

/-- The first iterator from `first` on that points to `c`, or `last`. -/
def find (xs : List α) (first last : ℕ) (c : α) : Option ℕ := scan c last first (xs.drop first)

theorem scan_last (c : α) (last : ℕ) (xs : List α) : scan c last last xs = some last := by
  cases xs <;> simp [scan]

theorem scan_cons_self (c : α) (last it : ℕ) (xs : List α) :
    scan c last it (c :: xs) = some it := by
  rw [scan]
  split
  · simp [*]
  · simp

/-- Elements other than `c` are passed by. -/
theorem scan_append {c : α} (hv : c ∉ v) {it : ℕ} (h : it + v.length ≤ last) :
    scan c last it (v ++ w) = scan c last (it + v.length) w := by
  induction v generalizing it with
  | nil => rfl
  | cons x v ih =>
      rw [List.length_cons] at h
      rw [List.mem_cons, not_or] at hv
      have hlast : it ≠ last := by omega
      rw [List.cons_append, scan, if_neg hlast, if_neg (Ne.symm hv.1), ih hv.2 (by omega),
        List.length_cons, Nat.add_assoc, Nat.add_comm 1]

/-- Without a `c` before it, the search comes to `last`. -/
theorem find_of_notMem {c : α} (hxs : xs = u ++ (v ++ w)) (hfirst : first = u.length)
    (hlast : last = u.length + v.length) (hv : c ∉ v) :
    find xs first last c = some last := by
  subst hxs hfirst hlast
  rw [find, List.drop_left, scan_append hv (Nat.le_refl _), scan_last]

/-- The search stops at the first `c`. -/
theorem find_of_cons {c : α} (hxs : xs = u ++ (v ++ c :: w)) (hfirst : first = u.length)
    (hlast : u.length + v.length ≤ last) (hv : c ∉ v) :
    find xs first last c = some (u.length + v.length) := by
  subst hxs hfirst
  rw [find, List.drop_left, scan_append hv hlast, scan_cons_self]

omit [DecidableEq α] in
/-- A list up to the first `c`, and from there on. -/
theorem exists_split (c : α) (xs : List α) :
    ∃ u w, xs = u ++ w ∧ c ∉ u ∧ (w = [] ∨ ∃ rest, w = c :: rest) := by
  by_cases h : c ∈ xs
  · obtain ⟨u, rest, hxs, hu⟩ := List.eq_append_cons_of_mem h
    exact ⟨u, c :: rest, hxs, hu, .inr ⟨rest, rfl⟩⟩
  · exact ⟨xs, [], by simp, h, .inl rfl⟩

end QuickMpc.Cursor
