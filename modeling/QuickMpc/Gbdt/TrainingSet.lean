import QuickMpc.Gbdt.ObliviousTree

/-!
# QuickMpc.Gbdt.TrainingSet

What `createTree` is called with: the attribute bits `S` of the training rows,
`S[attribute][attribute value][row]`, the mask `T` of the rows in use and the set
`R` of the attributes to split on. The attributes are one-hot for every row.
-/

namespace QuickMpc.Gbdt

variable {n N : ℕ}

/-- The attribute bits and the masks that a tree is trained with. -/
structure TrainingSet (n N : ℕ) where
  S : List (List (Fin N → Share n))
  T : Fin N → Share n
  R : List ℕ
  /-- The attribute values in the clear. -/
  value : ℕ → Fin N → ℕ
  one_hot : ∀ a values, S[a]? = some values →
    ∀ i, OneHot (values.map fun bits => bits i) (value a i)
  T_ones : ∀ i, IsBit True (T i)
  /-- A `std::set` of attributes. -/
  R_sorted : R.Pairwise (· < ·)
  R_lt : ∀ r ∈ R, r < S.length

namespace TrainingSet

/-- The values of an attribute are numbered. -/
theorem value_lt (D : TrainingSet n N) {a : ℕ} {values : List (Fin N → Share n)}
    (hvalues : D.S[a]? = some values) (i : Fin N) : D.value a i < values.length := by
  have hlt := (D.one_hot a values hvalues i).lt
  rwa [List.length_map] at hlt

/-- A row has the bit of an attribute value when that is its value. -/
theorem isBit {D : TrainingSet n N} {a v : ℕ} {values : List (Fin N → Share n)}
    {bits : Fin N → Share n} (hvalues : D.S[a]? = some values) (hbits : values[v]? = some bits)
    (i : Fin N) : IsBit (D.value a i = v) (bits i) := by
  have hbit := (D.one_hot a values hvalues i).isBit v (bits i) (by rw [List.getElem?_map, hbits]; rfl)
  rw [IsBit] at hbit ⊢
  rw [hbit]
  exact if_congr eq_comm rfl rfl

/-- The rows of a mask that have an attribute value. -/
def withValue (D : TrainingSet n N) (a v : ℕ) (rows : Finset (Fin N)) : Finset (Fin N) :=
  rows.filter fun i => D.value a i = v

theorem mem_withValue {D : TrainingSet n N} {a v : ℕ} {rows : Finset (Fin N)} {i : Fin N} :
    i ∈ D.withValue a v rows ↔ i ∈ rows ∧ D.value a i = v := Finset.mem_filter

/-- The mask of a child, as `createTree` computes it. -/
theorem mulVec_returns {D : TrainingSet n N} [Config n] (t : ℕ → BtsTriple n) {a v : ℕ}
    {values : List (Fin N → Share n)} {bits T : Fin N → Share n} {rows : Finset (Fin N)}
    (hvalues : D.S[a]? = some values) (hbits : values[v]? = some bits)
    (hT : ∀ i, IsBit (i ∈ rows) (T i)) :
    Supply.Returns (mulVec t T bits) fun T_ => ∀ i, IsBit (i ∈ D.withValue a v rows) (T_ i) := by
  refine (mulVec_returns_and t hT (isBit hvalues hbits)).mono fun T_ hT_ i => ?_
  have hbit := hT_ i
  rw [IsBit] at hbit ⊢
  rw [hbit]
  exact if_congr mem_withValue.symm rfl rfl

end TrainingSet

/-- `getConstantShare`. -/
def getConstantShare [Config n] (c : FixedPoint) : Share n := (0 : Share n) + c

theorem isBit_getConstantShare [Config n] (p : Prop) [Decidable p] :
    IsBit p (getConstantShare (FixedPoint.ofInt (if p then 1 else 0)) : Share n) := by
  rw [IsBit, getConstantShare, QuickMpc.Share.secret_add_value, QuickMpc.Share.secret_zero, zero_add,
    QuickMpc.Share.denote_eq_value, FixedPoint.ofInt_value, ite_mul, one_mul, zero_mul]

/-- A value of `width` values, one-hot in constant shares. -/
theorem oneHot_getConstantShare [Config n] {width v : ℕ} (hv : v < width) :
    OneHot ((List.range width).map fun w =>
      (getConstantShare (FixedPoint.ofInt (if w = v then 1 else 0)) : Share n)) v := by
  refine ⟨?_, fun w b hb => ?_⟩
  · rwa [List.length_map, List.length_range]
  · rw [List.getElem?_map, Option.map_eq_some_iff] at hb
    obtain ⟨w', hw', rfl⟩ := hb
    obtain ⟨-, rfl⟩ := List.getElem?_eq_some_iff.mp hw'
    rw [List.getElem_range]
    exact isBit_getConstantShare (w = v)

/-- The training set of a table in the clear, with `width a` values of the attribute
`a`, shared as `getConstantShare` does and split on all its attributes. -/
def TrainingSet.ofTable [Config n] (attributes : ℕ) (width : ℕ → ℕ) (value : ℕ → Fin N → ℕ)
    (h : ∀ a < attributes, ∀ i, value a i < width a) : TrainingSet n N where
  S := (List.range attributes).map fun a => (List.range (width a)).map fun v i =>
    getConstantShare (FixedPoint.ofInt (if v = value a i then 1 else 0))
  T := fun _ => getConstantShare (FixedPoint.ofInt (if True then 1 else 0))
  R := List.range attributes
  value := value
  one_hot := by
    intro a values hvalues i
    rw [List.getElem?_map, Option.map_eq_some_iff] at hvalues
    obtain ⟨a', ha', rfl⟩ := hvalues
    obtain ⟨hlt, rfl⟩ := List.getElem?_eq_some_iff.mp ha'
    rw [List.length_range] at hlt
    rw [List.getElem_range, List.map_map]
    exact oneHot_getConstantShare (h a hlt i)
  T_ones := fun i => isBit_getConstantShare True
  R_sorted := List.pairwise_lt_range
  R_lt := by simp

/-- The attribute vectors of one training row, as `predict` takes them. -/
def rowData (S : List (List (Fin N → Share n))) (i : Fin N) : List (List (Share n)) :=
  S.map fun values => values.map fun bits => bits i

theorem rowData_getElem? {S : List (List (Fin N → Share n))} {a : ℕ}
    {values : List (Fin N → Share n)} (h : S[a]? = some values) (i : Fin N) :
    (rowData S i)[a]? = some (values.map fun bits => bits i) := by
  rw [rowData, List.getElem?_map, h, Option.map_some]

/-- A training row's own attribute vectors select the children of its values. -/
theorem TrainingSet.selects_inner {α : Type} {D : TrainingSet n N} {a : ℕ}
    {values : List (Fin N → Share n)} {i : Fin N} {att_class : α → Option ℕ} {next : α → ℕ}
    {cur : α} {cs : List (RoseTree α)} (hvalues : D.S[a]? = some values)
    (hatt : att_class cur = some a) (hnext : next cur = D.value a i)
    (hlen : cs.length = values.length)
    (hcs : ∀ (v : ℕ) c, cs[v]? = some c →
      c.Everywhere (Selects att_class (rowData D.S i) next)) :
    (RoseTree.node cur cs).Everywhere (Selects att_class (rowData D.S i) next) := by
  refine .node (.inr ⟨a, _, hatt, rowData_getElem? hvalues i, ?_, ?_⟩) fun c hc => ?_
  · rw [List.length_map, hlen]
  · rw [hnext]
    exact D.one_hot a values hvalues i
  · obtain ⟨v, hv⟩ := List.mem_iff_getElem?.mp hc
    exact hcs v c hv

/-- A recursion over masks of training rows, where every call uses up an attribute. -/
theorem TrainingSet.returns_of_erase {α : Type} {D : TrainingSet n N}
    {call : ℕ → (Fin N → Share n) → List ℕ → Supply α}
    {body : ((Fin N → Share n) → List ℕ → Supply α) → (Fin N → Share n) → List ℕ → Supply α}
    {below : (Fin N → Share n) → List ℕ → Supply α} {P : Finset (Fin N) → List ℕ → α → Prop}
    (hzero : ∀ T R, call 0 T R = body below T R)
    (hsucc : ∀ depth T R, call (depth + 1) T R = body (call depth) T R)
    (hbody : ∀ {child : (Fin N → Share n) → List ℕ → Supply α} {rows : Finset (Fin N)}
      {T : Fin N → Share n} {R : List ℕ}, (∀ i, IsBit (i ∈ rows) (T i)) →
      (∀ r ∈ R, r < D.S.length) →
      (∀ a ∈ R, ∀ rows' T', (∀ i, IsBit (i ∈ rows') (T' i)) →
        Supply.Returns (child T' (R.erase a)) (P rows' (R.erase a))) →
      Supply.Returns (body child T R) (P rows R))
    {depth : ℕ} {rows : Finset (Fin N)} {T : Fin N → Share n} {R : List ℕ}
    (hlen : R.length ≤ depth) (hT : ∀ i, IsBit (i ∈ rows) (T i)) (hR : ∀ r ∈ R, r < D.S.length) :
    Supply.Returns (call depth T R) (P rows R) := by
  refine Supply.Returns.of_erase
    (I := fun rows T R => (∀ i, IsBit (i ∈ rows) (T i)) ∧ ∀ r ∈ R, r < D.S.length)
    (P := P) hzero hsucc ?_ hlen ⟨hT, hR⟩
  intro child rows T R hinv hchild
  obtain ⟨hT, hR⟩ := hinv
  refine hbody hT hR fun a ha rows' T' hT' => ?_
  exact hchild a ha rows' T' ⟨hT', fun r hr => hR r (List.mem_of_mem_erase hr)⟩

/-- A sum over the children of a node, by their values of the attribute. -/
theorem sum_map_eq_sum_range {β M : Type} [AddCommMonoid M] {f : β → M} {g : ℕ → M}
    {cs : List β} (h : ∀ v c, cs[v]? = some c → f c = g v) :
    (cs.map f).sum = ∑ v ∈ Finset.range cs.length, g v := by
  have hmap : cs.map f = (List.range cs.length).map g := by
    refine List.ext_getElem (by simp) fun v hv _ => ?_
    rw [List.length_map] at hv
    rw [List.getElem_map, List.getElem_map, List.getElem_range]
    exact h v _ (List.getElem?_eq_getElem hv)
  rw [hmap]
  rfl

/-! ### The best split -/

/-- `operator<` of a `std::pair` of a key and an index. -/
def pairLt {κ : Type} [LinearOrder κ] (p q : κ × ℕ) : Prop := p.1 < q.1 ∨ p.1 = q.1 ∧ p.2 < q.2

instance {κ : Type} [LinearOrder κ] : DecidableRel (@pairLt κ _) :=
  fun p q => inferInstanceAs (Decidable (p.1 < q.1 ∨ p.1 = q.1 ∧ p.2 < q.2))

/-- The first element that no later one is better than. -/
def bestElement {β : Type} (better : β → β → Prop) [DecidableRel better] : List β → Option β
  | [] => none
  | p :: ps => some (ps.foldl (fun best q => if better q best then q else best) p)

/-- `std::min_element`. -/
def min_element {κ : Type} [LinearOrder κ] : List (κ × ℕ) → Option (κ × ℕ) :=
  bestElement pairLt

/-- `std::max_element`. -/
def max_element {κ : Type} [LinearOrder κ] : List (κ × ℕ) → Option (κ × ℕ) :=
  bestElement fun p q => pairLt q p

theorem bestElement_mem {β : Type} {better : β → β → Prop} [DecidableRel better] {ps : List β}
    {p : β} (h : bestElement better ps = some p) : p ∈ ps := by
  have hfold : ∀ (ps : List β) (p : β),
      ps.foldl (fun best q => if better q best then q else best) p ∈ p :: ps := by
    intro ps
    induction ps with
    | nil => intro p; exact List.mem_singleton_self p
    | cons q ps ih =>
        intro p
        rw [List.foldl_cons]
        split
        · exact List.mem_cons_of_mem p (ih q)
        · rcases List.mem_cons.mp (ih p) with heq | hmem
          · rw [heq]
            exact List.mem_cons_self
          · exact List.mem_cons_of_mem p (List.mem_cons_of_mem q hmem)
  cases ps with
  | nil => cases h
  | cons q ps =>
      obtain rfl := Option.some.inj h
      exact hfold ps q

theorem bestElement_isSome {β : Type} (better : β → β → Prop) [DecidableRel better] {ps : List β}
    (h : ps ≠ []) : ∃ p, bestElement better ps = some p := by
  cases ps with
  | nil => exact absurd rfl h
  | cons q ps => exact ⟨_, rfl⟩

/-- No element is better than the best one, in an asymmetric order whose complement is
transitive. -/
theorem bestElement_not_better {β : Type} {better : β → β → Prop} [DecidableRel better]
    (hasymm : ∀ p q, better p q → ¬better q p)
    (htrans : ∀ p q r, ¬better p q → ¬better q r → ¬better p r) {ps : List β} {p : β}
    (h : bestElement better ps = some p) : ∀ q ∈ ps, ¬better q p := by
  have hfold : ∀ (ps : List β) (p : β), ∀ q ∈ p :: ps,
      ¬better q (ps.foldl (fun best q => if better q best then q else best) p) := by
    intro ps
    induction ps with
    | nil =>
        intro p q hq
        obtain rfl := List.mem_singleton.mp hq
        exact fun hself => hasymm q q hself hself
    | cons r ps ih =>
        intro p
        rw [List.foldl_cons]
        split
        · rename_i hbetter
          have hrest := ih r
          have hr := hrest r List.mem_cons_self
          exact List.forall_mem_cons.mpr ⟨htrans p r _ (hasymm r p hbetter) hr, hrest⟩
        · rename_i hworse
          obtain ⟨hp, hrest⟩ := List.forall_mem_cons.mp (ih p)
          exact List.forall_mem_cons.mpr
            ⟨hp, List.forall_mem_cons.mpr ⟨htrans r p _ hworse hp, hrest⟩⟩
  cases ps with
  | nil => cases h
  | cons q ps =>
      obtain rfl := Option.some.inj h
      exact hfold ps q

/-- The largest key, and the largest index that has it. -/
theorem max_element_spec {κ : Type} [LinearOrder κ] {ps : List (κ × ℕ)} {p : κ × ℕ}
    (h : max_element ps = some p) : ∀ q ∈ ps, q.1 < p.1 ∨ q.1 = p.1 ∧ q.2 ≤ p.2 := by
  have hlex : ∀ p q : κ × ℕ, pairLt p q ↔ toLex p < toLex q := fun p q =>
    Prod.Lex.toLex_lt_toLex.symm
  intro q hq
  have hnot : ¬pairLt p q := by
    refine bestElement_not_better (fun p q hpq => ?_) (fun p q r hpq hqr => ?_) h q hq
    · rw [hlex] at hpq ⊢
      exact hpq.not_gt
    · rw [hlex, not_lt] at hpq hqr ⊢
      exact hpq.trans hqr
  rw [hlex, not_lt] at hnot
  exact Prod.Lex.toLex_le_toLex.mp hnot

end QuickMpc.Gbdt
