import QuickMpc.Gbdt.SID3Json

/-!
# QuickMpc.Gbdt.Cells

What the trees of both kinds have in common after training: a leaf was made for a cell of
the training rows, those that have the attribute values on the way to it.

A row that is predicted, seen in training or not, goes down by its own values. The leaf that
it reaches was made for the training rows that go the same way (`Cells.exists_leaf`), and
the cells of the training rows are those of a partition (`Cells.mem_cellOf_iff`).
-/

namespace QuickMpc.Gbdt

open SID3 (OneHotInput)

variable {n N : ℕ} {α : Type}

/-- A tree that was grown from the rows `rows`, with leaves that were made for their rows. -/
inductive Cells (D : TrainingSet n N) (att_class : α → Option ℕ)
    (Made : Finset (Fin N) → α → Prop) : Finset (Fin N) → RoseTree α → Prop
  | leaf {rows : Finset (Fin N)} {cur : α} : Made rows cur →
      Cells D att_class Made rows (.node cur [])
  | inner {rows : Finset (Fin N)} {cur : α} {cs : List (RoseTree α)} {a : ℕ}
      {values : List (Fin N → Share n)} : att_class cur = some a → D.S[a]? = some values →
      cs.length = values.length →
      (∀ v c, cs[v]? = some c → Cells D att_class Made (D.withValue a v rows) c) →
      Cells D att_class Made rows (.node cur cs)

namespace Cells

/-- The child that a row with the attribute values `value` goes to. -/
def nextFor (att_class : α → Option ℕ) (value : ℕ → ℕ) (cur : α) : ℕ := (att_class cur).elim 0 value

/-- The training rows that go the same way as a row with the attribute values `value`, at
the nodes `inner`. -/
def sameWay (D : TrainingSet n N) (att_class : α → Option ℕ) (value : ℕ → ℕ) (inner : List α) :
    Finset (Fin N) :=
  Finset.univ.filter fun i => ∀ cur ∈ inner,
    nextFor att_class (fun a => D.value a i) cur = nextFor att_class value cur

/-- The training rows that go the same way as a row, down to its leaf. -/
def cellOf (D : TrainingSet n N) (att_class : α → Option ℕ) (value : ℕ → ℕ) (tree : RoseTree α) :
    Finset (Fin N) :=
  sameWay D att_class value ((tree.descend (nextFor att_class value)).elim [] Prod.fst)

variable {D : TrainingSet n N} {att_class : α → Option ℕ} {value : ℕ → ℕ}

theorem mem_sameWay {inner : List α} {i : Fin N} :
    i ∈ sameWay D att_class value inner ↔ ∀ cur ∈ inner,
      nextFor att_class (fun a => D.value a i) cur = nextFor att_class value cur := by
  rw [sameWay, Finset.mem_filter, and_iff_right (Finset.mem_univ i)]

/-- One more node on the way: its attribute is one more value to agree on. -/
theorem inter_sameWay_cons {cur : α} {a : ℕ} (hatt : att_class cur = some a)
    (rows : Finset (Fin N)) (inner : List α) :
    rows ∩ sameWay D att_class value (cur :: inner)
      = D.withValue a (value a) rows ∩ sameWay D att_class value inner := by
  ext i
  rw [Finset.mem_inter, Finset.mem_inter, mem_sameWay, mem_sameWay, List.forall_mem_cons,
    TrainingSet.mem_withValue, nextFor, nextFor, hatt, Option.elim_some, Option.elim_some,
    and_assoc]

theorem cellOf_eq {tree : RoseTree α} {inner : List α} {leaf : α}
    (h : tree.descend (nextFor att_class value) = some (inner, leaf)) :
    cellOf D att_class value tree = sameWay D att_class value inner := by
  rw [cellOf, h, Option.elim_some]

section Prediction

variable {Made : Finset (Fin N) → α → Prop} {rows : Finset (Fin N)} {tree : RoseTree α}
  {data : List (List (Share n))}

theorem selects (h : Cells D att_class Made rows tree) (hdata : OneHotInput D.S data value) :
    tree.Everywhere (Selects att_class data (nextFor att_class value)) := by
  induction h with
  | leaf => exact .node (.inl rfl) fun c hc => by cases hc
  | @inner rows cur cs a values hatt hvalues hlen _ ih =>
      obtain ⟨bits, hbits, hwidth, hhot⟩ := hdata a values hvalues
      refine .node (.inr ⟨a, bits, hatt, hbits, hwidth.trans hlen.symm, ?_⟩) fun c hc => ?_
      · rwa [nextFor, hatt, Option.elim_some]
      · obtain ⟨v, hv⟩ := List.mem_iff_getElem?.mp hc
        exact ih v c hv

/-- The leaf of a row was made for the training rows that go the same way. -/
theorem exists_leaf (h : Cells D att_class Made rows tree)
    (hdata : OneHotInput D.S data value) :
    ∃ inner leaf, tree.descend (nextFor att_class value) = some (inner, leaf) ∧
      Made (rows ∩ sameWay D att_class value inner) leaf := by
  induction h with
  | @leaf rows cur hmade =>
      refine ⟨[], cur, RoseTree.descend_leaf _ _, ?_⟩
      have hall : rows ∩ sameWay D att_class value [] = rows := by simp [sameWay]
      rwa [hall]
  | @inner rows cur cs a values hatt hvalues hlen _ ih =>
      obtain ⟨bits, -, hwidth, hhot⟩ := hdata a values hvalues
      have hnext : nextFor att_class value cur = value a := by rw [nextFor, hatt, Option.elim_some]
      have hlt : value a < cs.length := by
        rw [hlen, ← hwidth]
        exact hhot.lt
      obtain ⟨inner, leaf, hwalk, hmade⟩ := ih (value a) _ (List.getElem?_eq_getElem hlt)
      refine ⟨cur :: inner, leaf, ?_, ?_⟩
      · have hchild : cs[nextFor att_class value cur]? = some cs[value a] := by
          rw [hnext, List.getElem?_eq_getElem hlt]
        rw [RoseTree.descend_node hchild, hwalk, Option.map_some]
      · rwa [inter_sameWay_cons hatt]

/-- What is predicted for a row is what the leaf stores that was made for its cell. -/
theorem predict_returns [Config n] {t : ℕ → BtsTriple n} {y : α → Share n}
    (h : Cells D att_class Made Finset.univ tree) (hdata : OneHotInput D.S data value) :
    Supply.Returns (predict t att_class y data tree) fun r =>
      ∃ leaf, Made (cellOf D att_class value tree) leaf ∧
        QuickMpc.Share.secret r = QuickMpc.Share.secret (y leaf) := by
  obtain ⟨inner, leaf, hwalk, hmade⟩ := h.exists_leaf hdata
  rw [Finset.univ_inter] at hmade
  refine (Gbdt.predict_returns (h.selects hdata)).mono fun r hr => ⟨leaf, ?_, ?_⟩
  · rwa [cellOf_eq hwalk]
  · rw [hr, leafValue_of_descend hwalk]

/-! ### Training rows -/

/-- The cells of the training rows are those of a partition. -/
theorem mem_cellOf_iff (h : Cells D att_class Made rows tree) (i j : Fin N) :
    j ∈ cellOf D att_class (fun a => D.value a i) tree
      ↔ cellOf D att_class (fun a => D.value a j) tree
          = cellOf D att_class (fun a => D.value a i) tree := by
  obtain ⟨inner, leaf, hwalk, -⟩ := h.exists_leaf (SID3.oneHotInput_rowData D i)
  constructor
  · intro hj
    rw [cellOf_eq hwalk, mem_sameWay] at hj
    rw [cellOf_eq hwalk, cellOf_eq (RoseTree.descend_congr hwalk hj)]
    ext k
    rw [mem_sameWay, mem_sameWay]
    exact forall₂_congr fun cur hcur => by rw [hj cur hcur]
  · intro hcell
    rw [← hcell, cellOf, mem_sameWay]
    exact fun _ _ => rfl

end Prediction

end Cells

end QuickMpc.Gbdt
