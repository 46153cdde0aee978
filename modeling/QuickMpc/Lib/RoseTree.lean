import Mathlib.Data.List.Basic

/-!
# QuickMpc.Lib.RoseTree

Trees with a label at every node and any number of children. A function on them
is a pair of mutually recursive functions, on trees and on lists of trees;
`descend` is the walk from the root to a leaf that the labels direct, and `Walk` any walk
from the root.
-/

namespace QuickMpc

/-- A tree; a node without children is a leaf. -/
inductive RoseTree (α : Type) where
  | node (label : α) (children : List (RoseTree α))

namespace RoseTree

variable {α β : Type}

def label : RoseTree α → α
  | node a _ => a

def children : RoseTree α → List (RoseTree α)
  | node _ cs => cs

@[simp] theorem label_node (a : α) (cs : List (RoseTree α)) : (node a cs).label = a := rfl
@[simp] theorem children_node (a : α) (cs : List (RoseTree α)) : (node a cs).children = cs := rfl

mutual

/-- Induction on a tree, with the hypothesis for all the children of a node. -/
@[elab_as_elim, induction_eliminator]
theorem induction {motive : RoseTree α → Prop}
    (node : ∀ a cs, (∀ c ∈ cs, motive c) → motive (node a cs)) : ∀ t, motive t
  | .node a cs => node a cs (forall_mem_of_induction node cs)

theorem forall_mem_of_induction {motive : RoseTree α → Prop}
    (node : ∀ a cs, (∀ c ∈ cs, motive c) → motive (.node a cs)) :
    ∀ cs : List (RoseTree α), ∀ c ∈ cs, motive c
  | [], c, hc => by cases hc
  | d :: cs, c, hc => by
      cases hc with
      | head => exact induction node d
      | tail _ hc => exact forall_mem_of_induction node cs c hc

end

/-! ### Relabelling -/

mutual

/-- The tree of the same shape with new labels; `f` gets a node's label and the number
of its children. -/
def relabel (f : α → ℕ → β) : RoseTree α → RoseTree β
  | node a cs => node (f a cs.length) (relabelList f cs)

def relabelList (f : α → ℕ → β) : List (RoseTree α) → List (RoseTree β)
  | [] => []
  | c :: cs => relabel f c :: relabelList f cs

end

@[simp] theorem relabelList_eq_map (f : α → ℕ → β) (cs : List (RoseTree α)) :
    relabelList f cs = cs.map (relabel f) := by
  induction cs with
  | nil => rfl
  | cons c cs ih => rw [relabelList, ih, List.map_cons]

@[simp] theorem relabel_node (f : α → ℕ → β) (a : α) (cs : List (RoseTree α)) :
    relabel f (node a cs) = node (f a cs.length) (cs.map (relabel f)) := by
  rw [relabel, relabelList_eq_map]

/-- Relabelling twice. -/
theorem relabel_relabel {γ : Type} (f : α → ℕ → β) (g : β → ℕ → γ) (t : RoseTree α) :
    relabel g (relabel f t) = relabel (fun a k => g (f a k) k) t := by
  induction t with
  | node a cs ih =>
      rw [relabel_node, relabel_node, relabel_node, List.length_map, List.map_map]
      exact congrArg (node _) (List.map_congr_left ih)

/-- What is left of a tree without its labels. -/
def shape : RoseTree α → RoseTree Unit := relabel fun _ _ => ()

theorem shape_relabel (f : α → ℕ → β) (t : RoseTree α) : (relabel f t).shape = t.shape :=
  relabel_relabel f _ t

/-! ### Conditions on every node -/

/-- Every node meets `P`, which reads its label and the number of its children. -/
inductive Everywhere (P : α → ℕ → Prop) : RoseTree α → Prop
  | node {a : α} {cs : List (RoseTree α)} :
      P a cs.length → (∀ c ∈ cs, Everywhere P c) → Everywhere P (node a cs)

theorem Everywhere.relabel {P : α → ℕ → Prop} {Q : β → ℕ → Prop} {f : α → ℕ → β} {t : RoseTree α}
    (h : Everywhere P t) (hPQ : ∀ a k, P a k → Q (f a k) k) : Everywhere Q (relabel f t) := by
  induction h with
  | node ha _ ih =>
      rw [relabel_node]
      refine .node ?_ fun c hc => ?_
      · rw [List.length_map]
        exact hPQ _ _ ha
      · obtain ⟨d, hd, rfl⟩ := List.mem_map.mp hc
        exact ih d hd

theorem Everywhere.mono {P Q : α → ℕ → Prop} (hPQ : ∀ a k, P a k → Q a k) {t : RoseTree α}
    (h : Everywhere P t) : Everywhere Q t := by
  induction h with
  | node ha _ ih => exact .node (hPQ _ _ ha) ih

/-! ### The walk to a leaf -/

mutual

/-- Go to the child `next a` of a node labelled `a`, from the root to a leaf: the
labels of the inner nodes on the way and the label of the leaf. -/
def descend (next : α → ℕ) : RoseTree α → Option (List α × α)
  | node a [] => some ([], a)
  | node a (c :: cs) => (descendAt next (c :: cs) (next a)).map fun r => (a :: r.1, r.2)

/-- Go on at the child with the given index. -/
def descendAt (next : α → ℕ) : List (RoseTree α) → ℕ → Option (List α × α)
  | [], _ => none
  | c :: _, 0 => descend next c
  | _ :: cs, k + 1 => descendAt next cs k

end

theorem descend_leaf (next : α → ℕ) (a : α) : descend next (node a []) = some ([], a) := by
  rw [descend]

theorem descendAt_of_getElem? {next : α → ℕ} {c : RoseTree α} :
    ∀ {cs : List (RoseTree α)} {k : ℕ}, cs[k]? = some c → descendAt next cs k = descend next c
  | d :: cs, 0, h => by
      obtain rfl : d = c := by simpa using h
      rw [descendAt]
  | d :: cs, k + 1, h => by
      rw [descendAt]
      exact descendAt_of_getElem? (by simpa using h)

/-- One step of the walk. -/
theorem descend_node {next : α → ℕ} {a : α} {cs : List (RoseTree α)} {c : RoseTree α}
    (hc : cs[next a]? = some c) :
    descend next (node a cs) = (descend next c).map fun r => (a :: r.1, r.2) := by
  cases cs with
  | nil => simp at hc
  | cons d cs => rw [descend, descendAt_of_getElem? hc]

theorem exists_of_descendAt {next : α → ℕ} {r : List α × α} :
    ∀ {cs : List (RoseTree α)} {k : ℕ}, descendAt next cs k = some r →
      ∃ c, cs[k]? = some c ∧ descend next c = some r
  | [], k, h => by
      rw [descendAt] at h
      cases h
  | c :: cs, 0, h => by
      rw [descendAt] at h
      exact ⟨c, rfl, h⟩
  | c :: cs, k + 1, h => by
      rw [descendAt] at h
      rw [List.getElem?_cons_succ]
      exact exists_of_descendAt h

/-- A walk is the same for two directions that agree at the nodes that it passes. -/
theorem descend_congr {next next' : α → ℕ} {t : RoseTree α} :
    ∀ {inner : List α} {leaf : α}, descend next t = some (inner, leaf) →
      (∀ a ∈ inner, next' a = next a) → descend next' t = some (inner, leaf) := by
  induction t with
  | node a cs ih =>
      intro inner leaf h hnext
      cases cs with
      | nil =>
          rw [descend_leaf] at h ⊢
          exact h
      | cons c cs =>
          rw [descend] at h
          obtain ⟨⟨inner', leaf'⟩, hat, hpair⟩ := Option.map_eq_some_iff.mp h
          obtain ⟨rfl, rfl⟩ := Prod.mk.inj hpair
          obtain ⟨d, hd, hwalk⟩ := exists_of_descendAt hat
          have hrest := ih d (List.mem_of_getElem? hd) hwalk fun b hb =>
            hnext b (List.mem_cons_of_mem a hb)
          rw [← hnext a List.mem_cons_self] at hd
          rw [descend_node hd, hrest, Option.map_some]

/-- The walk ends in a leaf when it is directed to an existing child everywhere. -/
theorem Everywhere.exists_descend {P : α → ℕ → Prop} {next : α → ℕ} {t : RoseTree α}
    (h : t.Everywhere P) (hnext : ∀ a k, P a k → k = 0 ∨ next a < k) :
    ∃ inner leaf, descend next t = some (inner, leaf) ∧ P leaf 0 := by
  induction h with
  | @node a cs ha _ ih =>
      rcases hnext a cs.length ha with hnil | hlt
      · obtain rfl := List.length_eq_zero_iff.mp hnil
        exact ⟨[], a, descend_leaf next a, ha⟩
      · obtain ⟨inner, leaf, hwalk, hleaf⟩ := ih _ (List.getElem_mem hlt)
        refine ⟨a :: inner, leaf, ?_, hleaf⟩
        rw [descend_node (List.getElem?_eq_getElem hlt), hwalk, Option.map_some]

/-! ### Walks to any node -/

/-- The walk to the children `ks`: the labels of the nodes that it leaves, and the tree
that it arrives at. -/
inductive Walk : RoseTree α → List ℕ → List α → RoseTree α → Prop
  | here (t : RoseTree α) : Walk t [] [] t
  | child {a : α} {cs : List (RoseTree α)} {k : ℕ} {c : RoseTree α} {ks : List ℕ} {as : List α}
      {t : RoseTree α} : cs[k]? = some c → Walk c ks as t → Walk (node a cs) (k :: ks) (a :: as) t

theorem Walk.length_eq {t sub : RoseTree α} {ks : List ℕ} {as : List α} (h : Walk t ks as sub) :
    as.length = ks.length := by
  induction h with
  | here => rfl
  | child _ _ ih => rw [List.length_cons, List.length_cons, ih]

/-- A walk to a leaf that goes as the labels direct. -/
theorem Walk.descend_eq {next : α → ℕ} {t : RoseTree α} {ks : List ℕ} {as : List α} {leaf : α}
    (h : Walk t ks as (node leaf [])) (hks : ks = as.map next) :
    descend next t = some (as, leaf) := by
  generalize hend : node leaf [] = sub at h
  induction h with
  | here t =>
      subst hend
      exact descend_leaf next leaf
  | child hc _ ih =>
      obtain ⟨rfl, hrest⟩ := List.cons.inj hks
      rw [descend_node hc, ih hrest hend, Option.map_some]

end RoseTree

end QuickMpc
