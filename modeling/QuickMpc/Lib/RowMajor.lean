import Mathlib.Algebra.Ring.Nat
import Mathlib.Data.List.FinRange
import Mathlib.Data.List.GetD
import Mathlib.Data.List.OfFn
import Mathlib.Logic.Equiv.Fin.Basic

/-!
# Arrays in row-major order

An array of several dimensions, written down by nested loops into one list, and read
back by nested loops that share a running index. The place of an element is
`Fin.mkDivMod` of its indices, one dimension after the other (`flatMap_map_eq_ofFn`,
`flatMap_flatMap_eq_ofFn`); a loop that reads the same number of elements in each round
starts its rounds at the multiples of that number (`readMany_eq`).
-/

namespace RowMajor

variable {α β : Type*} {l m n : ℕ}

/-! ### Writing -/

/-- Two nested loops. -/
theorem flatMap_map_eq_ofFn (f : Fin m → Fin n → α) :
    ((List.finRange m).flatMap fun i => (List.finRange n).map (f i))
      = List.ofFn fun q : Fin (m * n) => f q.divNat q.modNat := by
  rw [List.ofFn_mul, List.flatMap_def, List.ofFn_eq_map]
  congr 2
  funext i
  rw [List.ofFn_eq_map]
  refine List.map_congr_left fun j _ => ?_
  congr 1
  · refine Fin.ext ?_
    have hpos : 0 < n := Nat.zero_lt_of_lt j.isLt
    show i.val = (i.val * n + j.val) / n
    rw [mul_comm, Nat.mul_add_div hpos, Nat.div_eq_of_lt j.isLt, add_zero]
  · refine Fin.ext ?_
    show j.val = (i.val * n + j.val) % n
    rw [mul_comm, Nat.mul_add_mod, Nat.mod_eq_of_lt j.isLt]

/-- Three nested loops. -/
theorem flatMap_flatMap_eq_ofFn (f : Fin l → Fin m → Fin n → α) :
    ((List.finRange l).flatMap fun i => (List.finRange m).flatMap fun j =>
        (List.finRange n).map (f i j))
      = List.ofFn fun q : Fin (l * (m * n)) => f q.divNat q.modNat.divNat q.modNat.modNat := by
  rw [← flatMap_map_eq_ofFn fun i (q : Fin (m * n)) => f i q.divNat q.modNat]
  congr 1
  funext i
  rw [flatMap_map_eq_ofFn, List.ofFn_eq_map]

/-- The element at a place of the list. -/
theorem getD_ofFn (f : Fin n → α) (q : Fin n) (d : α) : (List.ofFn f).getD q.val d = f q := by
  have hlt : q.val < (List.ofFn f).length := by
    rw [List.length_ofFn]
    exact q.isLt
  rw [List.getD_eq_getElem _ _ hlt, List.getElem_ofFn]

/-! ### Reading -/

/-- `m` rounds of a loop that reads at a running index. -/
def readMany (read : ℕ → β × ℕ) : ℕ → ℕ → List β × ℕ
  | 0, it => ([], it)
  | m + 1, it =>
    let (x, it) := read it
    let (xs, it) := readMany read m it
    (x :: xs, it)

/-- Rounds that move the index by `c` start at the multiples of `c`. -/
theorem readMany_eq {read : ℕ → β × ℕ} {g : ℕ → β} {c : ℕ}
    (h : ∀ it, read it = (g it, it + c)) :
    ∀ m it, readMany read m it = ((List.range m).map fun j => g (it + c * j), it + c * m)
  | 0, it => rfl
  | m + 1, it => by
      rw [readMany, h]
      dsimp only
      rw [readMany_eq h m (it + c), List.range_succ_eq_map, List.map_cons, List.map_map]
      refine Prod.ext ?_ ?_
      · refine congrArg₂ List.cons rfl (List.map_congr_left fun j _ => ?_)
        show g (it + c + c * j) = g (it + c * (j + 1))
        rw [mul_add, mul_one, add_assoc, add_comm c]
      · show it + c + c * m = it + c * (m + 1)
        rw [mul_add, mul_one, add_assoc, add_comm c]

theorem getD_map_range (g : ℕ → β) {i : ℕ} (hi : i < m) (d : β) :
    ((List.range m).map g).getD i d = g i := by
  have hlt : i < ((List.range m).map g).length := by
    rwa [List.length_map, List.length_range]
  rw [List.getD_eq_getElem _ _ hlt, List.getElem_map, List.getElem_range]

end RowMajor
