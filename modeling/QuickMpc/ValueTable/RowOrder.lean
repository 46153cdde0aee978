import QuickMpc.Lib.ToleranceMap
import QuickMpc.ValueTable

/-!
# QuickMpc.ValueTable.RowOrder

How the matched rows of a join depend on the order of the other table's rows.

The map and the set of the index lists compare keys with `LessFloat`, so keys at most
`10^-5` apart are equivalent to them, and of a cluster of keys they keep those that come
first. `matching_orderFree_iff` says when this makes no difference.
-/

namespace QuickMpc.ValueTable

open KeyJoin (find emplace emplaceFrom kept Close)

/-- Matching `x` against the keys `v` does not depend on their order: no key of `v` is
within `10^-5` of `x`, or for any two that are not, one within `10^-5` of `x` is not
within `10^-5` of these. -/
abbrev OrderFree (v : List FixedPoint) (x : FixedPoint) : Prop :=
  KeyJoin.OrderFree FixedPoint.value 1000 v x

/-- Selections of indices by the values there. -/
theorem map_snd_filter_zipIdx_eq_iff {T : Type} (l : List T) (p q : T → Bool) :
    (l.zipIdx.filter fun e => p e.1).map Prod.snd = (l.zipIdx.filter fun e => q e.1).map Prod.snd
      ↔ ∀ x ∈ l, p x = q x := by
  have hmem : ∀ (p : T → Bool) {x : T} {i : ℕ}, l[i]? = some x →
      (i ∈ (l.zipIdx.filter fun e => p e.1).map Prod.snd ↔ p x = true) := by
    intro p x i hi
    rw [List.mem_map]
    constructor
    · intro h'
      obtain ⟨⟨y, j⟩, hy, hj⟩ := h'
      obtain rfl : j = i := hj
      obtain ⟨hy, hp⟩ := List.mem_filter.mp hy
      obtain rfl : x = y :=
        Option.some.inj (hi.symm.trans (List.mem_zipIdx_iff_getElem?.mp hy))
      exact hp
    · intro hp
      exact ⟨(x, i), List.mem_filter.mpr ⟨List.mem_zipIdx_iff_getElem?.mpr hi, hp⟩, rfl⟩
  constructor
  · intro h x hx
    obtain ⟨i, hi⟩ := List.getElem?_of_mem hx
    exact Bool.eq_iff_iff.mpr ((hmem p hi).symm.trans (h ▸ hmem q hi))
  · intro h
    congr 1
    exact List.filter_congr fun e he => h e.1 (List.fst_mem_of_mem_zipIdx he)

/-- Whether a map or a set of the keys `v` has an entry for `x`. -/
def matched (v : List FixedPoint) (x : FixedPoint) : Bool :=
  decide (∃ k ∈ kept FixedPoint.value 1000 v, Close FixedPoint.value 1000 k x)

theorem matched_orderFree_iff (v : List FixedPoint) (x : FixedPoint) :
    (∀ v', v'.Perm v → matched v' x = matched v x) ↔ OrderFree v x := by
  unfold matched
  simp only [decide_eq_decide]
  exact KeyJoin.kept_iff_orderFree (by omega) v x

/-- The positions of `v1` that `intersectionValueIndex` selects. -/
theorem intersectionValueIndex_fst (v1 v2 : List FixedPoint) :
    (intersectionValueIndex lessFloat v1 v2).1
      = (v1.zipIdx.filter fun e => matched v2 e.1).map Prod.snd := by
  unfold matched
  simp only [intersectionValueIndex, List.map_filterMap, Option.map_map]
  rw [← List.filterMap_eq_map, List.filterMap_filter]
  refine List.filterMap_congr fun e _ => ?_
  have hfind := KeyJoin.isSome_find_emplaceFrom lessFloat_eq v2 e.1
  cases hlookup : find lessFloat e.1 (emplaceFrom lessFloat 0 v2 []) with
  | none =>
      rw [hlookup] at hfind
      rw [if_neg (by simpa using hfind)]
      rfl
  | some j =>
      rw [hlookup] at hfind
      rw [if_pos (by simpa using hfind)]
      rfl

/-- The positions of `v2` that `unionValueIndex` does not skip. -/
theorem unionValueIndex_snd (v1 v2 : List FixedPoint) :
    (unionValueIndex lessFloat v1 v2).2
      = (v2.zipIdx.filter fun e => !matched v1 e.1).map Prod.snd := by
  show ((v2.zipIdx.filter fun e => (find lessFloat e.1 _).isNone).map Prod.snd) = _
  congr 1
  refine List.filter_congr fun e _ => ?_
  have hfind := KeyJoin.isSome_find_foldl_emplace lessFloat_eq v1 e.1
  rw [matched, ← Option.not_isSome, Bool.eq_iff_iff.mpr (hfind.trans decide_eq_true_iff.symm)]

/-- **When the matched rows do not depend on the order of the other table.** Every order of
`v2` selects the same rows of `v1`, and every order of `v1` skips the same rows of `v2`,
exactly when each key can be matched in any order of the other side. -/
theorem matching_orderFree_iff (v1 v2 : List FixedPoint) :
    ((∀ v2', v2'.Perm v2 →
        (intersectionValueIndex lessFloat v1 v2').1 = (intersectionValueIndex lessFloat v1 v2).1)
      ∧ ∀ v1', v1'.Perm v1 →
        (unionValueIndex lessFloat v1' v2).2 = (unionValueIndex lessFloat v1 v2).2)
      ↔ (∀ x ∈ v1, OrderFree v2 x) ∧ ∀ x ∈ v2, OrderFree v1 x := by
  have hselect : ∀ v2', (intersectionValueIndex lessFloat v1 v2').1
      = (intersectionValueIndex lessFloat v1 v2).1 ↔ ∀ x ∈ v1, matched v2' x = matched v2 x := by
    intro v2'
    rw [intersectionValueIndex_fst, intersectionValueIndex_fst]
    exact map_snd_filter_zipIdx_eq_iff v1 (matched v2') (matched v2)
  have hskip : ∀ v1', (unionValueIndex lessFloat v1' v2).2
      = (unionValueIndex lessFloat v1 v2).2 ↔ ∀ x ∈ v2, matched v1' x = matched v1 x := by
    intro v1'
    rw [unionValueIndex_snd, unionValueIndex_snd]
    have h := map_snd_filter_zipIdx_eq_iff v2 (fun x => !matched v1' x) fun x => !matched v1 x
    simpa only [Bool.not_inj_iff] using h
  simp only [hselect, hskip, ← matched_orderFree_iff]
  exact and_congr ⟨fun h x hx v' hv' => h v' hv' x hx, fun h v' hv' x hx => h x hx v' hv'⟩
    ⟨fun h x hx v' hv' => h v' hv' x hx, fun h v' hv' x hx => h x hx v' hv'⟩

/-- Keys at 0, 800 and 1600 units: 1600 is kept if 0 comes first and absorbed if 800
does, so 2500 is matched only in the first order. -/
theorem intersectionValueIndex_depends_on_order :
    let v1 : List FixedPoint := [⟨2500⟩]
    (([⟨800⟩, ⟨0⟩, ⟨1600⟩] : List FixedPoint).Perm [⟨0⟩, ⟨800⟩, ⟨1600⟩])
      ∧ (intersectionValueIndex lessFloat v1 [⟨800⟩, ⟨0⟩, ⟨1600⟩]).1 = []
      ∧ (intersectionValueIndex lessFloat v1 [⟨0⟩, ⟨800⟩, ⟨1600⟩]).1 = [0] := by
  intro v1
  exact ⟨by decide, by decide +kernel, by decide +kernel⟩

end QuickMpc.ValueTable
