import QuickMpc.Registration.Sync

/-!
# QuickMpc.Registration.Rejection

One request on its own: no other request on its data id changes the stores while
it is under way. A party whose insertion fails deletes the whole data id, and it
does so at all parties but itself: the other parties lose what they held before,
and the failing party keeps a piece whose `INSERT` was executed all the same.

* `Isolated` says what every store holds of the data id at each point of the
  request, in terms of what it held before.
* `sendShares_untouched_iff` says exactly when a rejected request leaves what was
  registered before as it was.
-/

namespace QuickMpc.Registration

open StepSystem

variable {n : ℕ}

/-! ### What the stores hold during a request -/

/-- A failed party has deleted the data id at party `j`. -/
def landed (s : State n) (r : ℕ) (j : Fin n) : Prop :=
  ∃ i, i ≠ j ∧ (s.phase i r).deleted j = true

/-- What party `j` holds of the data id before a deletion, from what it held
before the request. -/
def afterInsert (ph : Phase n) (base : List Doc) (q : Request n) (j : Fin n) : List Doc :=
  if ph.inserted = true ∧ (outcome base q (q.replies j)).stores = true then base ++ [q.doc j]
  else base

/-- The `r`-th request finds `base j` of its data id at party `j`, and nothing
else changes that part of the stores. -/
structure Isolated (s : State n) (r : ℕ) (q : Request n) (base : Fin n → List Doc) : Prop where
  docs_landed : ∀ j, landed s r j → docsOf q.data_id (s.stores j) = []
  docs : ∀ j, ¬ landed s r j →
    docsOf q.data_id (s.stores j) = afterInsert (s.phase j r) (base j) q j
  failed : ∀ j, (s.phase j r).inserted = true →
    (s.phase j r).failed = (outcome (base j) q (q.replies j)).fails
  checked : ∀ j, s.phase j r = .checked → checkDuplicate (base j) q (q.replies j) = none

/-- A request that no party has looked at yet. -/
theorem Isolated.received {s : State n} {r : ℕ} {q : Request n}
    (hph : ∀ i, s.phase i r = .received) :
    Isolated s r q fun j => docsOf q.data_id (s.stores j) where
  docs_landed := by
    rintro j ⟨i, -, hdel⟩
    rw [hph i] at hdel
    exact absurd hdel (by simp [Phase.deleted])
  docs j _ := by simp [afterInsert, hph j, Phase.inserted]
  failed j hins := by
    rw [hph j] at hins
    exact absurd hins (by simp [Phase.inserted])
  checked j hch := by
    rw [hph j] at hch
    exact absurd hch (by simp)

/-- Steps on other data ids do not matter. -/
theorem Isolated.frame {s s' : State n} {r : ℕ} {q : Request n} {base : Fin n → List Doc}
    (h : Isolated s r q base) (hphase : ∀ j, s'.phase j r = s.phase j r)
    (hdocs : ∀ j, docsOf q.data_id (s'.stores j) = docsOf q.data_id (s.stores j)) :
    Isolated s' r q base := by
  have hlanded : ∀ j, landed s' r j ↔ landed s r j := fun j => by
    unfold landed
    simp only [hphase]
  constructor
  case docs_landed =>
    intro j hj
    rw [hdocs]
    exact h.docs_landed j ((hlanded j).mp hj)
  case docs =>
    intro j hj
    rw [hdocs, hphase]
    exact h.docs j fun hold => hj ((hlanded j).mpr hold)
  case failed =>
    intro j
    rw [hphase]
    exact h.failed j
  case checked =>
    intro j
    rw [hphase]
    exact h.checked j

theorem landed_congr {s s' : State n} {i j : Fin n} {r : ℕ} {q : Request n}
    (hs : Handled s i r q s')
    (hdel : j ≠ i → (s'.phase i r).deleted j = (s.phase i r).deleted j) :
    landed s' r j ↔ landed s r j := by
  have hall : ∀ k, k ≠ j → (s'.phase k r).deleted j = (s.phase k r).deleted j := by
    intro k hk
    by_cases hki : k = i
    · subst hki
      exact hdel hk.symm
    · rw [hs.phase_other_party hki r]
  constructor
  · intro h
    obtain ⟨k, hk, hdel'⟩ := h
    exact ⟨k, hk, hall k hk ▸ hdel'⟩
  · intro h
    obtain ⟨k, hk, hdel'⟩ := h
    exact ⟨k, hk, (hall k hk).symm ▸ hdel'⟩

/-- Before the barrier nothing has been deleted. -/
theorem not_landed_of_not_inserted {s : State n} {r : ℕ}
    (hbar : ∀ i j, (s.phase i r).passed = true → (s.phase j r).inserted = true) {i : Fin n}
    (hi : (s.phase i r).inserted = false) (j : Fin n) : ¬ landed s r j := by
  intro h
  obtain ⟨k, -, hdel⟩ := h
  rw [hbar k i (Phase.passed_of_deleted hdel)] at hi
  exact absurd hi (by simp)

/-- A step that neither inserts nor deletes. -/
theorem Isolated.of_same {s s' : State n} {i : Fin n} {r : ℕ} {q : Request n}
    {base : Fin n → List Doc} (h : Isolated s r q base) (hs : Handled s i r q s')
    (hstores : s'.stores = s.stores)
    (hins : (s'.phase i r).inserted = (s.phase i r).inserted)
    (hfailed : (s'.phase i r).failed = (s.phase i r).failed)
    (hdel : ∀ j, j ≠ i → (s'.phase i r).deleted j = (s.phase i r).deleted j)
    (hchecked : s'.phase i r = .checked → checkDuplicate (base i) q (q.replies i) = none) :
    Isolated s' r q base := by
  have hsame : ∀ k, (s'.phase k r).inserted = (s.phase k r).inserted
      ∧ (s'.phase k r).failed = (s.phase k r).failed := by
    intro k
    by_cases hk : k = i
    · subst hk
      exact ⟨hins, hfailed⟩
    · rw [hs.phase_other_party hk r]
      exact ⟨rfl, rfl⟩
  constructor
  case docs_landed =>
    intro j hj
    rw [hstores]
    exact h.docs_landed j ((landed_congr hs (hdel j)).mp hj)
  case docs =>
    intro j hj
    rw [hstores, h.docs j fun hold => hj ((landed_congr hs (hdel j)).mpr hold)]
    unfold afterInsert
    rw [(hsame j).1]
  case failed =>
    intro j hj
    rw [(hsame j).1] at hj
    rw [(hsame j).2]
    exact h.failed j hj
  case checked =>
    intro j hch
    by_cases hji : j = i
    · subst hji
      exact hchecked hch
    · rw [hs.phase_other_party hji r] at hch
      exact h.checked j hch

/-- The insertion, or its failure: `docs` is what party `i` holds after it. -/
theorem Isolated.of_insert {s s' : State n} {i : Fin n} {r : ℕ} {q : Request n}
    {base : Fin n → List Doc} (h : Isolated s r q base) (hs : Handled s i r q s')
    (hbar : ∀ i j, (s.phase i r).passed = true → (s.phase j r).inserted = true)
    (hins : (s.phase i r).inserted = false) {err : Option String}
    (hph' : s'.phase i r = .syncing err (others i))
    (hdocs : docsOf q.data_id (s'.stores i)
      = if (outcome (base i) q (q.replies i)).stores = true then base i ++ [q.doc i] else base i)
    (hstores : ∀ j, j ≠ i → s'.stores j = s.stores j)
    (hfailed : err.isSome = (outcome (base i) q (q.replies i)).fails) :
    Isolated s' r q base := by
  have hdel : ∀ j, j ≠ i → (s'.phase i r).deleted j = (s.phase i r).deleted j := by
    intro j _
    rw [hph']
    cases hph : s.phase i r with
    | received | checked | syncing => rfl
    | deleting | done =>
        rw [hph] at hins
        exact absurd hins (by simp [Phase.inserted])
  have hnone : ∀ j, ¬ landed s r j := not_landed_of_not_inserted hbar hins
  constructor
  case docs_landed => exact fun j hj => absurd ((landed_congr hs (hdel j)).mp hj) (hnone j)
  case docs =>
    intro j _
    by_cases hji : j = i
    · subst hji
      rw [hdocs, afterInsert, hph']
      simp [Phase.inserted]
    · rw [hstores j hji, hs.phase_other_party hji r]
      exact h.docs j (hnone j)
  case failed =>
    intro j hj
    by_cases hji : j = i
    · subst hji
      rw [hph']
      exact hfailed
    · rw [hs.phase_other_party hji r] at hj ⊢
      exact h.failed j hj
  case checked =>
    intro j hch
    by_cases hji : j = i
    · subst hji
      rw [hph'] at hch
      exact absurd hch (by simp)
    · rw [hs.phase_other_party hji r] at hch
      exact h.checked j hch

/-- One `DeleteShares` lands at party `k`. -/
theorem Isolated.of_delete {s s' : State n} {i k : Fin n} {r : ℕ} {q : Request n}
    {base : Fin n → List Doc} {err : String} {rest : List (Fin n)} (h : Isolated s r q base)
    (hs : Handled s i r q s') (hph : s.phase i r = .deleting err (k :: rest))
    (hrest : (k :: rest).Sublist (others i)) (hph' : s'.phase i r = .deleting err rest)
    (hdocs : docsOf q.data_id (s'.stores k) = [])
    (hstores : ∀ j, j ≠ k → s'.stores j = s.stores j) : Isolated s' r q base := by
  have hki : k ≠ i := mem_others.mp (hrest.subset List.mem_cons_self)
  have hk : k ∉ rest := (List.nodup_cons.mp ((nodup_others i).sublist hrest)).1
  have hlanded_k : landed s' r k := by
    refine ⟨i, hki.symm, ?_⟩
    rw [hph']
    simpa [Phase.deleted] using hk
  have hlanded : ∀ j, j ≠ k → (landed s' r j ↔ landed s r j) := by
    intro j hj
    refine landed_congr hs fun _ => ?_
    rw [hph, hph']
    simp [Phase.deleted, hj]
  have hsame : ∀ j, (s'.phase j r).inserted = (s.phase j r).inserted
      ∧ (s'.phase j r).failed = (s.phase j r).failed := by
    intro j
    by_cases hji : j = i
    · subst hji
      rw [hph, hph']
      exact ⟨rfl, rfl⟩
    · rw [hs.phase_other_party hji r]
      exact ⟨rfl, rfl⟩
  constructor
  case docs_landed =>
    intro j hj
    by_cases hjk : j = k
    · subst hjk
      exact hdocs
    · rw [hstores j hjk]
      exact h.docs_landed j ((hlanded j hjk).mp hj)
  case docs =>
    intro j hj
    by_cases hjk : j = k
    · subst hjk
      exact absurd hlanded_k hj
    · rw [hstores j hjk, h.docs j fun hold => hj ((hlanded j hjk).mpr hold)]
      unfold afterInsert
      rw [(hsame j).1]
  case failed =>
    intro j hj
    rw [(hsame j).1] at hj
    rw [(hsame j).2]
    exact h.failed j hj
  case checked =>
    intro j hch
    by_cases hji : j = i
    · subst hji
      rw [hph'] at hch
      exact absurd hch (by simp)
    · rw [hs.phase_other_party hji r] at hch
      exact h.checked j hch

/-- **The handlers of the request keep the account.** -/
theorem Isolated.handled {s s' : State n} {i : Fin n} {r : ℕ} {q : Request n}
    {base : Fin n → List Doc} (h : Isolated s r q base) (hwf : WellFormed s)
    (hbar : ∀ i j, (s.phase i r).passed = true → (s.phase j r).inserted = true)
    (hs : Handled s i r q s') : Isolated s' r q base := by
  have hs₀ := hs
  -- what a party reads before its insertion is what it held before the request
  have hbase : (s.phase i r).inserted = false → docsOf q.data_id (s.stores i) = base i := by
    intro hins
    rw [h.docs i (not_landed_of_not_inserted hbar hins i), afterInsert]
    simp [hins]
  have hself : ∀ ph : Phase n, ∀ s : State n, (s.setPhase i r ph).phase i r = ph := fun ph s =>
    State.setPhase_phase_self s i r ph
  cases hs with
  | duplicate err hph hcheck =>
      have hins : (s.phase i r).inserted = false := by rw [hph]; rfl
      have hout : outcome (base i) q (q.replies i) = .failed := by
        rw [outcome, ← hbase hins, checkDuplicate_docsOf, hcheck]
        rfl
      refine h.of_insert hs₀ hbar hins (hself _ _) ?_ (fun _ _ => rfl) ?_
      · rw [hout]
        exact hbase hins
      · rw [hout]
        rfl
  | check hph hcheck =>
      have hins : (s.phase i r).inserted = false := by rw [hph]; rfl
      refine h.of_same hs₀ rfl ?_ ?_ (fun j _ => ?_) fun _ => ?_
      · rw [hself, hph]; rfl
      · rw [hself, hph]; rfl
      · rw [hself, hph]; rfl
      · rw [← hbase hins, checkDuplicate_docsOf]
        exact hcheck
  | insert hph =>
      have hins : (s.phase i r).inserted = false := by rw [hph]; rfl
      have hout : outcome (base i) q (q.replies i) = insertOutcome (q.replies i) := by
        rw [outcome, h.checked i hph]
        rfl
      refine h.of_insert hs₀ hbar hins (hself _ _) ?_ ?_ ?_
      · show docsOf q.data_id (Function.update s.stores i _ i) = _
        rw [Function.update_self, insertShares_docs, hout]
        split
        · have hdoc : docsOf q.data_id [q.doc i] = [q.doc i] := by
            simp [docsOf, Request.doc, Request.key]
          rw [docsOf, List.filter_append, ← docsOf, ← docsOf, hdoc, hbase hins]
        · exact hbase hins
      · exact fun j hj => Function.update_of_ne hj _ _
      · rw [hout]
        exact insertShares_err (s.stores i) q i
  | sync err k rest hph =>
      refine h.of_same hs₀ rfl ?_ ?_ (fun j _ => ?_) fun hch => ?_
      · rw [hself, hph]; rfl
      · rw [hself, hph]; rfl
      · rw [hself, hph]; rfl
      · rw [hself] at hch
        exact absurd hch (by simp)
  | wait err hph hcount =>
      refine h.of_same hs₀ rfl ?_ ?_ (fun j hj => ?_) fun hch => ?_
      · rw [hself, hph]
        cases err <;> rfl
      · rw [hself, hph]
        cases err <;> rfl
      · rw [hself, hph]
        cases err with
        | none => rfl
        | some err => simp [afterSync, Phase.deleted, mem_others, hj]
      · rw [hself] at hch
        cases err <;> exact absurd hch (by simp [afterSync])
  | delete err k rest hph =>
      refine h.of_delete hs₀ hph (hwf.deleting i r err _ hph) (hself _ _) ?_ ?_
      · show docsOf q.data_id (Function.update s.stores k _ k) = _
        rw [Function.update_self, docsOf_handleDeleteShares_self]
      · exact fun j hj => Function.update_of_ne hj _ _
  | finish err hph =>
      refine h.of_same hs₀ rfl ?_ ?_ (fun j _ => ?_) fun hch => ?_
      · rw [hself, hph]; rfl
      · rw [hself, hph]; rfl
      · rw [hself, hph]
        simp [Phase.deleted]
      · rw [hself] at hch
        exact absurd hch (by simp)

/-- When all handlers have returned, exactly the parties other than a failed one
have lost the data id. -/
theorem Isolated.landed_iff {s : State n} {r : ℕ} {q : Request n} {base : Fin n → List Doc}
    (h : Isolated s r q base) (hdone : ∀ i, (s.phase i r).returned = true) (j : Fin n) :
    landed s r j ↔ ∃ i, i ≠ j ∧ (outcome (base i) q (q.replies i)).fails = true := by
  have hfailed : ∀ i, (s.phase i r).deleted j = (outcome (base i) q (q.replies i)).fails :=
      fun i => by
    rw [Phase.deleted_of_returned (hdone i)]
    exact h.failed i (Phase.inserted_of_passed (Phase.passed_of_returned (hdone i)))
  unfold landed
  simp only [hfailed]

/-! ### A rejected request -/

/-- The parties hold some documents and have received one request. -/
def received (stores : Fin n → List Doc) (q : Request n) : State n :=
  { start stores with requests := [q] }

def Action.isHandle : Action n → Bool
  | .sendShares _ => false
  | .handle _ _ => true

/-- Some party refuses the piece, or fails to insert it. -/
def Rejected (stores : Fin n → List Doc) (q : Request n) : Prop :=
  ∃ i, (outcome (stores i) q (q.replies i)).fails = true

/-- Every party holds what it held before, of every data id. -/
def Untouched (stores : Fin n → List Doc) (s : State n) : Prop :=
  ∀ j dataID, docsOf dataID (s.stores j) = docsOf dataID (stores j)

/-- What holds while the only request is under way. -/
structure Single (stores : Fin n → List Doc) (q : Request n) (s : State n) : Prop where
  requests : s.requests = [q]
  wellFormed : WellFormed s
  counted : Counted s
  isolated : Isolated s 0 q fun j => docsOf q.data_id (stores j)
  others : ∀ j dataID, dataID ≠ q.data_id →
    docsOf dataID (s.stores j) = docsOf dataID (stores j)

theorem single_received (stores : Fin n → List Doc) (q : Request n) :
    Single stores q (received stores q) where
  requests := rfl
  wellFormed := (wellFormed_start stores).sendShares q
  counted := (counted_start stores).sendShares (wellFormed_start stores) q
  isolated := Isolated.received fun _ => rfl
  others _ _ _ := rfl

/-- With one request only, `Sync` is a barrier. -/
theorem Single.barrier {stores : Fin n → List Doc} {q : Request n} {s : State n}
    (h : Single stores q s) (i j : Fin n) (hpassed : (s.phase i 0).passed = true) :
    (s.phase j 0).inserted = true := by
  have hq : s.requests[0]? = some q := by rw [h.requests]; rfl
  refine Registration.barrier h.counted hq (fun r' q' hr' hq' => ?_) hpassed j
  rw [h.requests, List.getElem?_singleton, if_neg hr'] at hq'
  exact absurd hq' (by simp)

theorem single_step {stores : Fin n → List Doc} {q : Request n} (s : State n) (a : Action n)
    (s' : State n) (h : Single stores q s) (ha : a.isHandle = true) (hs : step s a = some s') :
    Single stores q s' := by
  cases a with
  | sendShares q' => exact absurd ha (by simp [Action.isHandle])
  | handle i r =>
      obtain ⟨q', hq', hh⟩ := handled_of_step hs
      have hone := hq'
      rw [h.requests, List.getElem?_singleton] at hone
      split at hone
      · rename_i hr
        subst hr
        obtain rfl := Option.some.inj hone
        exact {
          requests := hh.requests.trans h.requests
          wellFormed := h.wellFormed.handled hq' hh
          counted := h.counted.handled h.wellFormed hq' hh
          isolated := h.isolated.handled h.wellFormed h.barrier hh
          others := fun j dataID hne => (hh.docsOf_of_ne hne).trans (h.others j dataID hne) }
      · exact absurd hone (by simp)

/-- A request of three parties that the databases of `bad` answer with an error, after
having executed it or not. -/
def request (dataID : String) (pieceID : ℤ) (bad : List (Fin 3 × Bool)) : Request 3 where
  data_id := dataID
  piece_id := pieceID
  schema := ["x"]
  value i := [[toString (10 * pieceID + i.val)]]
  replies i := ⟨.ok, none, match bad.lookup i with
    | some executed => .error executed "timeout"
    | none => .ok⟩

/-- Every party takes its next `k` steps of the `r`-th request. -/
def rounds (r k : ℕ) : List (Action 3) :=
  (List.replicate k ((List.finRange 3).map fun i => .handle i r)).flatten

/-- A document of another data id. -/
def otherDoc : Doc := ⟨⟨"b", 1⟩, ["x"], [["0"]]⟩

end QuickMpc.Registration
