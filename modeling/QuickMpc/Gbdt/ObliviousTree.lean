import QuickMpc.Gbdt.Products
import QuickMpc.Lib.RoseTree

/-!
# QuickMpc.Gbdt.ObliviousTree

`predict`, which `SID3` and `SID3Regression` have in common: the children's
predictions, each multiplied with the bit of its attribute value, are added up, so
that no party learns which way a row goes. On one-hot attribute vectors the sum
is the value of the leaf that the walk of the plain tree reaches.
-/

namespace QuickMpc.Gbdt

open Share (secret)

variable {n : ℕ} {α : Type}

section Code

variable [Config n] (t : ℕ → BtsTriple n) (att_class : α → Option ℕ) (y : α → Share n)
  (data : List (List (Share n)))

mutual

/-- `predict` of a tree whose nodes store an attribute `att_class` and a value `y`. -/
def predict : RoseTree α → Supply (Share n)
  | .node cur [] => pure (y cur)
  | .node cur (c :: cs) =>
      match (att_class cur).bind fun a => data[a]? with
      | some attribute_value => predictChildren attribute_value (c :: cs) 0 0
      | none => failure

/-- The loop of `predict` over the children, from the child `index` on. -/
def predictChildren (attribute_value : List (Share n)) :
    List (RoseTree α) → ℕ → Share n → Supply (Share n)
  | [], _, ret => pure ret
  | child :: cs, index, ret =>
      match attribute_value[index]? with
      | some bit => do
          let value ← predict child
          let term ← mul t bit value
          predictChildren attribute_value cs (index + 1) (ret + term)
      | none => failure

end

end Code

/-- The plain prediction: what the leaf stores that the walk reaches. -/
def leafValue (y : α → Share n) (next : α → ℕ) (tree : RoseTree α) : ℤ :=
  match tree.descend next with
  | some (_, leaf) => secret (y leaf)
  | none => 0

theorem leafValue_of_descend {y : α → Share n} {next : α → ℕ} {tree : RoseTree α}
    {inner : List α} {leaf : α} (h : tree.descend next = some (inner, leaf)) :
    leafValue y next tree = secret (y leaf) := by
  rw [leafValue, h]

/-- The attribute vector of an inner node has one bit for each child, the `1` at the
position of the child `next`. -/
def Selects (att_class : α → Option ℕ) (data : List (List (Share n))) (next : α → ℕ) (cur : α)
    (k : ℕ) : Prop :=
  k = 0 ∨ ∃ a bits, att_class cur = some a ∧ data[a]? = some bits ∧ bits.length = k
    ∧ OneHot bits (next cur)

theorem Selects.next_lt {att_class : α → Option ℕ} {data : List (List (Share n))} {next : α → ℕ}
    {cur : α} {k : ℕ} (h : Selects att_class data next cur k) : k = 0 ∨ next cur < k := by
  rcases h with hzero | ⟨a, bits, -, -, hlen, hhot⟩
  · exact .inl hzero
  · exact .inr (hlen ▸ hhot.lt)

variable [Config n] {t : ℕ → BtsTriple n} {att_class : α → Option ℕ} {y : α → Share n}
  {data : List (List (Share n))}

/-- The loop adds the value of the child at the position of the `1`, if it is still
to come. -/
theorem predictChildren_returns {bits : List (Share n)} {hot : ℕ} (hbits : OneHot bits hot)
    {value : RoseTree α → ℤ} {cs : List (RoseTree α)} :
    ∀ {index : ℕ} {ret : Share n}, index + cs.length ≤ bits.length →
      (∀ c ∈ cs, Supply.Returns (predict t att_class y data c) fun r => secret r = value c) →
      Supply.Returns (predictChildren t att_class y data bits cs index ret) fun r =>
        secret r = secret ret + if index ≤ hot then (cs[hot - index]?).elim 0 value else 0 := by
  induction cs with
  | nil =>
      intro index ret _ _
      rw [predictChildren]
      exact .pure (by simp)
  | cons c cs ih =>
      intro index ret hlen hcs
      have hlt : index < bits.length := by
        rw [List.length_cons] at hlen
        omega
      have hbit : bits[index]? = some bits[index] := List.getElem?_eq_getElem hlt
      rw [predictChildren, hbit]
      refine (hcs c List.mem_cons_self).bind fun v hv => ?_
      refine (mul_returns t (hbits.isBit index _ hbit) v).bind fun term hterm => ?_
      have hlen' : index + 1 + cs.length ≤ bits.length := by
        rw [List.length_cons] at hlen
        omega
      refine (ih hlen' fun d hd => hcs d (List.mem_cons_of_mem c hd)).mono fun r hr => ?_
      rw [hr, QuickMpc.Share.secret_add, hterm, hv, add_assoc]
      congr 1
      rcases lt_trichotomy index hot with hless | rfl | hmore
      · -- the child selected is one of the later ones
        have hnext : hot - index = hot - (index + 1) + 1 := by omega
        rw [if_neg hless.ne, if_pos (Nat.succ_le_of_lt hless), if_pos hless.le, hnext,
          List.getElem?_cons_succ, zero_add]
      · rw [if_pos rfl, if_neg (by omega), if_pos le_rfl, Nat.sub_self, List.getElem?_cons_zero,
          add_zero]
        rfl
      · rw [if_neg hmore.ne', if_neg (by omega), if_neg (by omega), add_zero]

/-- **Oblivious prediction is the plain walk**: it returns, and its result is exactly
the value of the leaf reached. -/
theorem predict_returns {next : α → ℕ} {tree : RoseTree α}
    (h : tree.Everywhere (Selects att_class data next)) :
    Supply.Returns (predict t att_class y data tree) fun r =>
      secret r = leafValue y next tree := by
  induction h with
  | @node cur cs hcur _ ih =>
      cases cs with
      | nil =>
          rw [predict]
          refine .pure ?_
          rw [leafValue, RoseTree.descend_leaf]
      | cons c cs =>
          obtain ⟨a, bits, hatt, hdata, hlen, hhot⟩ := hcur.resolve_left (by simp)
          rw [predict, hatt, Option.bind_some, hdata]
          refine (predictChildren_returns hhot (by omega) ih).mono fun r hr => ?_
          have hlt : next cur < (c :: cs).length := hlen ▸ hhot.lt
          have hchild : (c :: cs)[next cur]? = some (c :: cs)[next cur] :=
            List.getElem?_eq_getElem hlt
          rw [hr, QuickMpc.Share.secret_zero, zero_add, if_pos (Nat.zero_le _), Nat.sub_zero, hchild,
            Option.elim_some, leafValue, leafValue, RoseTree.descend_node hchild]
          cases (c :: cs)[next cur].descend next <;> rfl

/-- Prediction reads of a tree the attributes of its inner nodes and the values. -/
theorem predict_relabel {β : Type} {att_class' : β → Option ℕ} {y' : β → Share n}
    {f : α → ℕ → β} {tree : RoseTree α}
    (h : tree.Everywhere fun cur k =>
      y' (f cur k) = y cur ∧ (k = 0 ∨ att_class' (f cur k) = att_class cur)) :
    predict t att_class' y' data (tree.relabel f) = predict t att_class y data tree := by
  induction h with
  | @node cur cs hcur _ ih =>
      have hchildren : ∀ (bits : List (Share n)) (cs : List (RoseTree α)) (index : ℕ)
          (ret : Share n),
          (∀ c ∈ cs, predict t att_class' y' data (c.relabel f) = predict t att_class y data c) →
          predictChildren t att_class' y' data bits (cs.map (RoseTree.relabel f)) index ret
            = predictChildren t att_class y data bits cs index ret := by
        intro bits cs
        induction cs with
        | nil => intro index ret _; rw [List.map_nil, predictChildren, predictChildren]
        | cons c cs ihcs =>
            intro index ret hcs
            rw [List.map_cons, predictChildren, predictChildren, hcs c List.mem_cons_self]
            simp only [ihcs _ _ fun d hd => hcs d (List.mem_cons_of_mem c hd)]
      rw [RoseTree.relabel_node]
      cases cs with
      | nil => rw [List.map_nil, predict, predict, hcur.1]
      | cons c cs =>
          have hatt := hcur.2.resolve_left (by simp)
          have hloop := fun bits => hchildren bits (c :: cs) 0 0 ih
          rw [List.map_cons] at hloop ⊢
          rw [predict, predict, hatt]
          simp only [hloop]

end QuickMpc.Gbdt
