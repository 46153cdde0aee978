import QuickMpc.Registration.Rejection

/-!
# QuickMpc.Registration.Agreement

Many requests in flight. A request that is stored everywhere never deletes, so
any number of such requests for different pieces may run side by side. A request
that fails somewhere deletes the whole data id at the other parties, and has to
be alone on its data id and on its sync id, or the deletion meets pieces at some
parties and not at others.

* `Harmless` says for one request that is alone when the stores agree after it.
* `careful` is the condition on each new request.
* `registration_agrees` is the result about every run of careful requests.
-/

namespace QuickMpc.Registration

open StepSystem

variable {n : ℕ}

/-! ### Requests side by side -/

/-- All handlers of the `r`-th request have returned. -/
def Finished (s : State n) (r : ℕ) : Prop := ∀ i, (s.phase i r).returned = true

instance (s : State n) (r : ℕ) : Decidable (Finished s r) :=
  inferInstanceAs (Decidable (∀ _, _))

/-- The requests share their data id, or their calls of `Sync` are counted
together. -/
def Related (q q' : Request n) : Prop := q.data_id = q'.data_id ∨ q.syncID = q'.syncID

instance (q q' : Request n) : Decidable (Related q q') := inferInstanceAs (Decidable (_ ∨ _))

/-- A request has stored its piece at one party without an error, or does so if nobody
interferes. -/
def storesAt (s : State n) (i : Fin n) (r : ℕ) (q : Request n) : Bool :=
  match s.phase i r with
  | .received => outcome (s.stores i) q (q.replies i) = .stored
  | .checked => insertOutcome (q.replies i) = .stored
  | ph => !ph.failed && insertOutcome (q.replies i) = .stored

/-- A request that finds `base i` of its data id at party `i`, the same pieces
at all parties, leaves the same pieces at all parties when all parties come to
the same outcome, or two of them fail, or one fails that held nothing and has
stored nothing. -/
def Harmless (base : Fin n → List Doc) (q : Request n) : Prop :=
  (∀ i j, outcome (base i) q (q.replies i) = outcome (base j) q (q.replies j))
    ∨ (∃ i j, i ≠ j ∧ (outcome (base i) q (q.replies i)).fails = true
        ∧ (outcome (base j) q (q.replies j)).fails = true)
    ∨ ∃ i, outcome (base i) q (q.replies i) = .failed ∧ base i = []

instance (base : Fin n → List Doc) (q : Request n) : Decidable (Harmless base q) :=
  inferInstanceAs (Decidable (_ ∨ _))

/-- The condition on a new request: either it is stored everywhere, and so are
the related requests under way, which are for other pieces; or no related
request is under way, and it is harmless on its own. -/
def careful (s : State n) : Action n → Bool
  | .sendShares q =>
    decide ((∀ i, outcome (s.stores i) q (q.replies i) = .stored)
      ∧ ∀ r < s.requests.length, ∀ q' ∈ s.requests[r]?, ¬ Finished s r → Related q q' →
        (∀ i, storesAt s i r q' = true) ∧ q'.key ≠ q.key)
    || decide ((∀ r < s.requests.length, ∀ q' ∈ s.requests[r]?, ¬ Finished s r → ¬ Related q q')
      ∧ Harmless (fun i => docsOf q.data_id (s.stores i)) q)
  | .handle _ _ => true

/-- Every party holds the same pieces. -/
def Agree (s : State n) : Prop := ∀ i j x, x ∈ keys (s.stores i) ↔ x ∈ keys (s.stores j)

/-! ### Outcomes -/

/-- The duplicate check asks for the piece itself. -/
theorem checkDuplicate_eq_none {docs : List Doc} {q : Request n} {replies : Replies} :
    checkDuplicate docs q replies = none ↔ replies.selectQuery = .ok ∧ q.key ∉ keys docs := by
  have hany : (docs.any fun r => r.data_id = q.data_id ∧ r.piece_id = q.piece_id) = true
      ↔ q.key ∈ keys docs := by
    rw [List.any_eq_true, keys, List.mem_map]
    refine exists_congr fun x => and_congr_right fun _ => ?_
    rw [decide_eq_true_iff, Request.key, ← Key.mk.injEq]
  unfold checkDuplicate existPieceID
  cases hsel : replies.selectQuery with
  | ok =>
      cases hb : (docs.any fun r => r.data_id = q.data_id ∧ r.piece_id = q.piece_id) with
      | true => simp [hany.mp hb]
      | false =>
          have hnot : q.key ∉ keys docs := fun hmem => by
            rw [hany.mpr hmem] at hb
            exact absurd hb (by simp)
          simp [hnot]
  | unavailable | error => simp

theorem outcome_eq_stored {docs : List Doc} {q : Request n} {replies : Replies} :
    outcome docs q replies = .stored ↔
      (replies.selectQuery = .ok ∧ q.key ∉ keys docs) ∧ insertOutcome replies = .stored := by
  rw [← checkDuplicate_eq_none, outcome]
  cases checkDuplicate docs q replies with
  | none => simp
  | some err => simp

theorem outcome_docsOf (docs : List Doc) (q : Request n) (replies : Replies) :
    outcome (docsOf q.data_id docs) q replies = outcome docs q replies := by
  unfold outcome
  rw [checkDuplicate_docsOf]

theorem mem_keys_docsOf_key {docs : List Doc} {q : Request n} :
    q.key ∈ keys (docsOf q.data_id docs) ↔ q.key ∈ keys docs := by
  rw [mem_keys_docsOf]
  exact and_iff_left rfl

/-- An isolated request stores its piece at the parties whose earlier documents allow it. -/
theorem Isolated.storesAt_iff {s : State n} {r : ℕ} {q : Request n} {base : Fin n → List Doc}
    (h : Isolated s r q base)
    (hbar : ∀ i j, (s.phase i r).passed = true → (s.phase j r).inserted = true) (i : Fin n) :
    storesAt s i r q = true ↔ outcome (base i) q (q.replies i) = .stored := by
  have hinserted : (s.phase i r).inserted = true →
      ((!(s.phase i r).failed && decide (insertOutcome (q.replies i) = .stored)) = true
        ↔ outcome (base i) q (q.replies i) = .stored) := by
    intro hins
    rw [h.failed i hins, Bool.and_eq_true, Bool.not_eq_true', decide_eq_true_iff]
    unfold outcome
    split
    · simp [Outcome.fails]
    · refine and_iff_right_of_imp fun hstored => ?_
      rw [hstored]
      rfl
  unfold storesAt
  cases hph : s.phase i r with
  | received =>
      have hins : (s.phase i r).inserted = false := by rw [hph]; rfl
      have hdocs := h.docs i (not_landed_of_not_inserted hbar hins i)
      rw [afterInsert, if_neg (by simp [hins])] at hdocs
      rw [← hdocs, outcome_docsOf, decide_eq_true_iff]
  | checked =>
      unfold outcome
      rw [h.checked i hph, decide_eq_true_iff]
      rfl
  | syncing | deleting | done =>
      rw [hph] at hinserted
      exact hinserted rfl

/-! ### The two kinds of requests under way -/

/-- A request that is stored, or going to be stored, at every party. -/
structure SureRun (s : State n) (r : ℕ) (q : Request n) : Prop where
  stored : ∀ i, storesAt s i r q = true
  mem : ∀ i, q.key ∈ keys (s.stores i) ↔ (s.phase i r).inserted = true

/-- A request that is alone on its data id, and harmless. -/
def LoneRun (s : State n) (r : ℕ) (q : Request n) : Prop :=
  ∃ base : Fin n → List Doc, Isolated s r q base
    ∧ (∀ i j x, x ∈ keys (base i) ↔ x ∈ keys (base j)) ∧ Harmless base q

/-- A sure request depends on its own phases and its own piece only. -/
theorem SureRun.frame {s s' : State n} {r : ℕ} {q : Request n} (h : SureRun s r q)
    (hphase : ∀ j, s'.phase j r = s.phase j r)
    (hmem : ∀ j, q.key ∈ keys (s'.stores j) ↔ q.key ∈ keys (s.stores j)) : SureRun s' r q := by
  constructor
  case stored =>
    intro i
    have hold := h.stored i
    unfold storesAt at hold ⊢
    rw [hphase]
    cases hph : s.phase i r with
    | received =>
        rw [hph] at hold
        obtain ⟨⟨hsel, hnot⟩, hins⟩ := outcome_eq_stored.mp (of_decide_eq_true hold)
        exact decide_eq_true
          (outcome_eq_stored.mpr ⟨⟨hsel, fun hin => hnot ((hmem i).mp hin)⟩, hins⟩)
    | checked | syncing | deleting | done =>
        rw [hph] at hold
        exact hold
  case mem =>
    intro i
    rw [hmem, hphase]
    exact h.mem i

/-- An isolated request whose parties all come to store the piece is sure. -/
theorem Isolated.sureRun {s : State n} {r : ℕ} {q : Request n} {base : Fin n → List Doc}
    (h : Isolated s r q base)
    (hbar : ∀ i j, (s.phase i r).passed = true → (s.phase j r).inserted = true)
    (hall : ∀ i, outcome (base i) q (q.replies i) = .stored) : SureRun s r q := by
  constructor
  case stored => exact fun i => (h.storesAt_iff hbar i).mpr (hall i)
  case mem =>
    intro i
    have hnot : ¬ landed s r i := by
      intro h'
      obtain ⟨k, -, hdel⟩ := h'
      have hfailed := h.failed k (Phase.inserted_of_passed (Phase.passed_of_deleted hdel))
      rw [Phase.failed_of_deleted hdel, hall k] at hfailed
      exact absurd hfailed (by simp [Outcome.fails])
    have hbase : q.key ∉ keys (base i) := (outcome_eq_stored.mp (hall i)).1.2
    rw [← mem_keys_docsOf_key, h.docs i hnot, afterInsert]
    by_cases hins : (s.phase i r).inserted = true
    · simp [hins, hall i, Outcome.stores, keys, Request.doc]
    · simp [hins, hbase]

/-- **A lone request leaves the stores in agreement.** -/
theorem LoneRun.agree {s : State n} {r : ℕ} {q : Request n} (h : LoneRun s r q)
    (hdone : Finished s r) {x : Key} (hx : x.data_id = q.data_id) (i j : Fin n) :
    x ∈ keys (s.stores i) ↔ x ∈ keys (s.stores j) := by
  obtain ⟨base, hiso, hbase, hharmless⟩ := h
  have hins : ∀ k, (s.phase k r).inserted = true := fun k =>
    Phase.inserted_of_passed (Phase.passed_of_returned (hdone k))
  have hlanded := hiso.landed_iff hdone
  have hmem : ∀ k, x ∈ keys (s.stores k) ↔ x ∈ keys (docsOf q.data_id (s.stores k)) := fun k => by
    rw [mem_keys_docsOf]
    exact (and_iff_left hx).symm
  by_cases hij : i = j
  · rw [hij]
  rw [hmem, hmem]
  rcases hharmless with hsame | ⟨a, b, hab, ha, hb⟩ | ⟨a, ha, hempty⟩
  · cases hi : (outcome (base i) q (q.replies i)).fails with
    | true =>
        -- each of the two has lost the data id through the other
        have hj : (outcome (base j) q (q.replies j)).fails = true := by rw [hsame j i, hi]
        rw [hiso.docs_landed i ((hlanded i).mpr ⟨j, fun h => hij h.symm, hj⟩),
          hiso.docs_landed j ((hlanded j).mpr ⟨i, hij, hi⟩)]
    | false =>
        have hnot : ∀ k, ¬ landed s r k := fun k hk => by
          obtain ⟨l, -, hl⟩ := (hlanded k).mp hk
          rw [hsame l i, hi] at hl
          exact absurd hl (by simp)
        rw [hiso.docs i (hnot i), hiso.docs j (hnot j)]
        unfold afterInsert
        rw [hsame j i]
        by_cases hstored : (outcome (base i) q (q.replies i)).stores = true
        · rw [if_pos ⟨hins i, hstored⟩, if_pos ⟨hins j, hstored⟩]
          simp only [keys, List.map_append, List.mem_append]
          exact or_congr_left (hbase i j x)
        · rw [if_neg fun h => hstored h.2, if_neg fun h => hstored h.2]
          exact hbase i j x
  · -- one of the two failed parties is another one
    have hall : ∀ k, docsOf q.data_id (s.stores k) = [] := fun k => by
      refine hiso.docs_landed k ((hlanded k).mpr ?_)
      by_cases hak : a = k
      · exact ⟨b, fun hbk => hab (hak.trans hbk.symm), hb⟩
      · exact ⟨a, hak, ha⟩
    rw [hall i, hall j]
  · have hfails : (outcome (base a) q (q.replies a)).fails = true := by rw [ha]; rfl
    have hall : ∀ k, docsOf q.data_id (s.stores k) = [] := fun k => by
      by_cases hk : landed s r k
      · exact hiso.docs_landed k hk
      · have hak : a = k := by
          by_contra hak
          exact hk ((hlanded k).mpr ⟨a, hak, hfails⟩)
        subst hak
        rw [hiso.docs a hk, afterInsert, ha, if_neg (by simp [Outcome.stores])]
        exact hempty
    rw [hall i, hall j]

/-! ### The invariant -/

/-- What careful runs preserve. Related requests under way are sure, for
different pieces; the parties agree on every piece that no request under way is
about to change. -/
structure Inv (s : State n) : Prop where
  wellFormed : WellFormed s
  counted : Counted s
  mode : ∀ r q, s.requests[r]? = some q → ¬ Finished s r → SureRun s r q ∨ LoneRun s r q
  related : ∀ r r' q q', r ≠ r' → s.requests[r]? = some q → s.requests[r']? = some q' →
    ¬ Finished s r → ¬ Finished s r' → Related q q' →
    SureRun s r q ∧ SureRun s r' q' ∧ q.key ≠ q'.key
  agree : ∀ x : Key, (∀ r q, s.requests[r]? = some q → ¬ Finished s r → q.data_id = x.data_id →
      SureRun s r q ∧ q.key ≠ x) → ∀ i j, x ∈ keys (s.stores i) ↔ x ∈ keys (s.stores j)

theorem inv_start : Inv (start fun _ : Fin n => []) where
  wellFormed := wellFormed_start _
  counted := counted_start _
  mode := by simp [start]
  related := by simp [start]
  agree := by simp [start]

/-- Requests for the same piece are related. -/
theorem related_of_key_eq {q q' : Request n} (h : q.key = q'.key) : Related q q' :=
  .inl (Key.mk.inj h).1

/-- A request that is not sure is the only one under way of those related to it,
so `Sync` is a barrier for it. -/
theorem Inv.barrier {s : State n} (h : Inv s) {r : ℕ} {q : Request n}
    (hq : s.requests[r]? = some q) (hun : ¬ Finished s r) (hnot : ¬ SureRun s r q) (i j : Fin n)
    (hpassed : (s.phase i r).passed = true) : (s.phase j r).inserted = true := by
  refine Registration.barrier h.counted hq (fun r' q' hr' hq' hkey k => ?_) hpassed j
  by_contra hk
  have hun' : ¬ Finished s r' := fun hfin => hk (Phase.passed_of_returned (hfin k))
  exact hnot (h.related r r' q q' hr'.symm hq hq' hun hun' (.inr hkey.symm)).1

/-- A request under way whose parties all come to store the piece is sure. -/
theorem Inv.sureRun {s : State n} (h : Inv s) {r : ℕ} {q : Request n}
    (hq : s.requests[r]? = some q) (hun : ¬ Finished s r)
    (hall : ∀ i, storesAt s i r q = true) : SureRun s r q := by
  by_contra hnot
  rcases h.mode r q hq hun with hsure | ⟨base, hiso, -, -⟩
  · exact hnot hsure
  · have hbar := h.barrier hq hun hnot
    exact hnot (hiso.sureRun hbar fun i => (hiso.storesAt_iff hbar i).mp (hall i))

/-! ### New requests -/

/-- The requests after a new one: the old ones and the new one. -/
theorem getElem?_append_request {s : State n} {q q' : Request n} {r : ℕ}
    (h : (s.requests ++ [q])[r]? = some q') :
    s.requests[r]? = some q' ∨ r = s.requests.length ∧ q' = q := by
  by_cases hr : r < s.requests.length
  · rw [List.getElem?_append_left hr] at h
    exact .inl h
  · obtain ⟨hlt, hget⟩ := List.getElem?_eq_some_iff.mp h
    have hr' : r = s.requests.length := by
      rw [List.length_append, List.length_singleton] at hlt
      omega
    subst hr'
    refine .inr ⟨rfl, ?_⟩
    simpa using hget.symm

/-- What the condition on a new request says of the requests under way. -/
theorem careful_sendShares {s : State n} {q : Request n}
    (h : careful s (.sendShares q) = true) :
    ((∀ i, outcome (s.stores i) q (q.replies i) = .stored)
      ∧ ∀ r q', s.requests[r]? = some q' → ¬ Finished s r → Related q q' →
        (∀ i, storesAt s i r q' = true) ∧ q'.key ≠ q.key)
    ∨ ((∀ r q', s.requests[r]? = some q' → ¬ Finished s r → ¬ Related q q')
      ∧ Harmless (fun i => docsOf q.data_id (s.stores i)) q) := by
  have hlt : ∀ r q', s.requests[r]? = some q' → r < s.requests.length := fun r q' hq' =>
    (List.getElem?_eq_some_iff.mp hq').1
  rcases (Bool.or_eq_true _ _).mp h with h | h
  · obtain ⟨hall, hold⟩ := of_decide_eq_true h
    exact .inl ⟨hall, fun r q' hq' => hold r (hlt r q' hq') q' hq'⟩
  · obtain ⟨hold, hharmless⟩ := of_decide_eq_true h
    exact .inr ⟨fun r q' hq' => hold r (hlt r q' hq') q' hq', hharmless⟩

theorem inv_sendShares {s : State n} {q : Request n} (h : Inv s)
    (hok : careful s (.sendShares q) = true) :
    Inv { s with requests := s.requests ++ [q] } := by
  have hnew : ∀ i, s.phase i s.requests.length = .received := fun i =>
    h.wellFormed.received i _ (Nat.le_refl _)
  have hok := careful_sendShares hok
  -- a request that shares its data id or sync id with the new one, and the new one
  have hpair : ∀ r q', s.requests[r]? = some q' → ¬ Finished s r → Related q q' →
      SureRun s r q' ∧ SureRun s s.requests.length q ∧ q'.key ≠ q.key := by
    intro r q' hq' hun hrel
    rcases hok with ⟨hall, hold⟩ | ⟨halone, -⟩
    · obtain ⟨hsure, hne⟩ := hold r q' hq' hun hrel
      refine ⟨h.sureRun hq' hun hsure, ⟨fun i => ?_, fun i => ?_⟩, hne⟩
      · rw [storesAt, hnew]
        exact decide_eq_true (hall i)
      · rw [hnew]
        simpa [Phase.inserted] using (outcome_eq_stored.mp (hall i)).1.2
    · exact absurd hrel (halone r q' hq' hun)
  constructor
  case wellFormed => exact h.wellFormed.sendShares q
  case counted => exact h.counted.sendShares h.wellFormed q
  case mode =>
    intro r q' hq' hun
    rcases getElem?_append_request hq' with hq' | ⟨rfl, rfl⟩
    · rcases h.mode r q' hq' hun with hsure | ⟨base, hiso, hbase, hharmless⟩
      · exact .inl (hsure.frame (fun _ => rfl) fun _ => Iff.rfl)
      · exact .inr ⟨base, hiso.frame (fun _ => rfl) (fun _ => rfl), hbase, hharmless⟩
    · rcases hok with ⟨hall, -⟩ | ⟨halone, hharmless⟩
      · refine .inl ⟨fun i => ?_, fun i => ?_⟩
        · show storesAt s i s.requests.length q' = _
          rw [storesAt, hnew]
          exact decide_eq_true (hall i)
        · show _ ↔ (s.phase i s.requests.length).inserted = true
          rw [hnew]
          simpa [Phase.inserted] using (outcome_eq_stored.mp (hall i)).1.2
      · refine .inr ⟨fun j => docsOf q'.data_id (s.stores j), Isolated.received hnew, ?_, hharmless⟩
        intro i j x
        rw [mem_keys_docsOf, mem_keys_docsOf]
        refine and_congr_left fun hx => h.agree x (fun r q hq hun hid => ?_) i j
        exact absurd (.inl (hx.symm.trans hid.symm)) (halone r q hq hun)
  case related =>
    intro r r' q₁ q₂ hne hq₁ hq₂ hun₁ hun₂ hrel
    have hsame : ∀ {requests r q}, SureRun s r q → SureRun { s with requests := requests } r q :=
      fun hsure => hsure.frame (fun _ => rfl) fun _ => Iff.rfl
    rcases getElem?_append_request hq₁ with hold₁ | ⟨rfl, rfl⟩
    · rcases getElem?_append_request hq₂ with hold₂ | ⟨rfl, rfl⟩
      · obtain ⟨h₁, h₂, hdoc⟩ := h.related r r' q₁ q₂ hne hold₁ hold₂ hun₁ hun₂ hrel
        exact ⟨hsame h₁, hsame h₂, hdoc⟩
      · obtain ⟨h₁, h₂, hdoc⟩ := hpair r q₁ hold₁ hun₁ (hrel.imp Eq.symm Eq.symm)
        exact ⟨hsame h₁, hsame h₂, hdoc⟩
    · rcases getElem?_append_request hq₂ with hold₂ | ⟨rfl, rfl⟩
      · obtain ⟨h₂, h₁, hdoc⟩ := hpair r' q₂ hold₂ hun₂ hrel
        exact ⟨hsame h₁, hsame h₂, hdoc.symm⟩
      · exact absurd rfl hne
  case agree =>
    intro x hx
    refine h.agree x fun r q' hq' hun hid => ?_
    have hr : r < s.requests.length := (List.getElem?_eq_some_iff.mp hq').1
    obtain ⟨hsure, hdoc⟩ := hx r q' ((List.getElem?_append_left hr).trans hq') hun hid
    exact ⟨hsure.frame (fun _ => rfl) fun _ => Iff.rfl, hdoc⟩

/-! ### The handlers -/

/-- After a step of a sure request it is enough to look at the party that took
it. -/
theorem SureRun.of_party {s s' : State n} {i : Fin n} {r : ℕ} {q : Request n}
    (h : SureRun s r q) (hs : Handled s i r q s') (hi : storesAt s' i r q = true)
    (hmem : q.key ∈ keys (s'.stores i) ↔ (s'.phase i r).inserted = true)
    (hstores : ∀ j, j ≠ i → s'.stores j = s.stores j) : SureRun s' r q := by
  constructor
  case stored =>
    intro j
    by_cases hj : j = i
    · subst hj
      exact hi
    · rw [← h.stored j]
      unfold storesAt
      rw [hs.phase_other_party hj r, hstores j hj]
  case mem =>
    intro j
    by_cases hj : j = i
    · subst hj
      exact hmem
    · rw [hs.phase_other_party hj r, hstores j hj]
      exact h.mem j

/-- A step of a sure request goes on storing its piece, and changes no other
piece. -/
theorem SureRun.handled {s s' : State n} {i : Fin n} {r : ℕ} {q : Request n}
    (h : SureRun s r q) (hs : Handled s i r q s') :
    SureRun s' r q ∧ ∀ j x, x ≠ q.key → (x ∈ keys (s'.stores j) ↔ x ∈ keys (s.stores j)) := by
  have hs₀ := hs
  have hstored := h.stored i
  have hmem := h.mem i
  have hself : ∀ ph : Phase n, ∀ s : State n, (s.setPhase i r ph).phase i r = ph := fun ph s =>
    State.setPhase_phase_self s i r ph
  unfold storesAt at hstored
  cases hs with
  | duplicate err hph hcheck =>
      rw [hph] at hstored
      have hout := outcome_eq_stored.mp (of_decide_eq_true hstored)
      rw [checkDuplicate_eq_none.mpr hout.1] at hcheck
      exact absurd hcheck (by simp)
  | check hph hcheck =>
      rw [hph] at hstored hmem
      refine ⟨h.of_party hs₀ ?_ ?_ fun _ _ => rfl, fun _ _ _ => Iff.rfl⟩
      · rw [storesAt, hself]
        exact decide_eq_true (outcome_eq_stored.mp (of_decide_eq_true hstored)).2
      · rw [hself]
        exact hmem
  | insert hph =>
      rw [hph] at hstored
      have hstored : insertOutcome (q.replies i) = .stored := of_decide_eq_true hstored
      have hdocs : (insertShares (s.stores i) q i).2 = s.stores i ++ [q.doc i] := by
        rw [insertShares_docs, hstored]
        rfl
      have herr : (insertShares (s.stores i) q i).1.isSome = false := by
        rw [insertShares_err, hstored]
        rfl
      refine ⟨h.of_party hs₀ ?_ ?_ ?_, ?_⟩
      · rw [storesAt, hself]
        simp [Phase.failed, herr, hstored]
      · show q.key ∈ keys (Function.update s.stores i _ i) ↔ _
        rw [hself, Function.update_self, hdocs]
        simp [Phase.inserted, keys, Request.doc]
      · exact fun j hj => Function.update_of_ne hj _ _
      · intro j x hx
        show x ∈ keys (Function.update s.stores i _ j) ↔ _
        by_cases hj : j = i
        · subst hj
          rw [Function.update_self, hdocs, keys, List.map_append, List.mem_append,
            List.map_singleton, List.mem_singleton]
          exact or_iff_left hx
        · rw [Function.update_of_ne hj]
  | sync err j rest hph =>
      rw [hph] at hstored hmem
      refine ⟨h.of_party hs₀ ?_ ?_ fun _ _ => rfl, fun _ _ _ => Iff.rfl⟩
      · rw [storesAt, hself]
        exact hstored
      · rw [hself]
        exact hmem
  | wait err hph hcount =>
      rw [hph] at hstored hmem
      cases err with
      | some err => exact absurd hstored (by simp [Phase.failed])
      | none =>
          refine ⟨h.of_party hs₀ ?_ ?_ fun _ _ => rfl, fun _ _ _ => Iff.rfl⟩
          · rw [storesAt, hself]
            exact hstored
          · rw [hself]
            exact hmem
  | delete err j rest hph | finish err hph =>
      rw [hph] at hstored
      exact absurd hstored (by simp [Phase.failed])

/-- A step of the `r`-th request leaves what is finished finished. -/
theorem unfinished_of_handled {s s' : State n} {i : Fin n} {r r' : ℕ} {q : Request n}
    (hs : Handled s i r q s') (hr : ¬ Finished s r) (h : ¬ Finished s' r') : ¬ Finished s r' := by
  by_cases hne : r' = r
  · rw [hne]
    exact hr
  · intro hfin
    refine h fun j => ?_
    rw [hs.phase_other_request hne j]
    exact hfin j

/-- The handler that takes a step has not returned. -/
theorem Handled.unfinished {s s' : State n} {i : Fin n} {r : ℕ} {q : Request n}
    (hs : Handled s i r q s') : ¬ Finished s r := by
  intro hfin
  have hret := hfin i
  cases hs with
  | duplicate err hph | check hph | insert hph | sync err j rest hph | wait err hph
  | delete err j rest hph | finish err hph =>
      rw [hph] at hret
      exact absurd hret (by simp [Phase.returned])

/-- A step of a sure request. -/
theorem inv_handled_sure {s s' : State n} {i : Fin n} {r : ℕ} {q : Request n} (h : Inv s)
    (hq : s.requests[r]? = some q) (hs : Handled s i r q s') (hsure : SureRun s r q) : Inv s' := by
  obtain ⟨hsure', hmem⟩ := hsure.handled hs
  have hun : ¬ Finished s r := hs.unfinished
  -- the other requests under way are for other pieces
  have hdoc : ∀ {r' q'}, r' ≠ r → s.requests[r']? = some q' → ¬ Finished s r' → q'.key ≠ q.key :=
    fun hr' hq' hun' heq =>
      (h.related _ r _ q hr' hq' hq hun' hun (related_of_key_eq heq)).2.2 heq
  have hkeep : ∀ {r' q'}, s.requests[r']? = some q' → ¬ Finished s r' → SureRun s r' q' →
      SureRun s' r' q' := by
    intro r' q' hq' hun' hsure₁
    by_cases hr' : r' = r
    · subst hr'
      obtain rfl : q = q' := Option.some.inj (hq.symm.trans hq')
      exact hsure'
    · exact hsure₁.frame (hs.phase_other_request hr') fun j => hmem j _ (hdoc hr' hq' hun')
  have hreq : ∀ {r' : ℕ} {q'}, s'.requests[r']? = some q' → s.requests[r']? = some q' := by
    intro r' q' hq'
    rw [hs.requests] at hq'
    exact hq'
  constructor
  case wellFormed => exact h.wellFormed.handled hq hs
  case counted => exact h.counted.handled h.wellFormed hq hs
  case mode =>
    intro r' q' hq' hun'
    have hq' := hreq hq'
    have hun₀ := unfinished_of_handled hs hun hun'
    rcases h.mode r' q' hq' hun₀ with hsure₁ | ⟨base, hiso, hbase, hharmless⟩
    · exact .inl (hkeep hq' hun₀ hsure₁)
    · by_cases hsure₁ : SureRun s r' q'
      · exact .inl (hkeep hq' hun₀ hsure₁)
      · -- a request that is not sure is on another data id
        have hr' : r' ≠ r := by
          intro hcase
          subst hcase
          obtain rfl : q = q' := Option.some.inj (hq.symm.trans hq')
          exact hsure₁ hsure
        have hid : q'.data_id ≠ q.data_id := fun hid =>
          hsure₁ (h.related r' r q' q hr' hq' hq hun₀ hun (.inl hid)).1
        exact .inr ⟨base, hiso.frame (hs.phase_other_request hr') fun j => hs.docsOf_of_ne hid,
          hbase, hharmless⟩
  case related =>
    intro r₁ r₂ q₁ q₂ hne hq₁ hq₂ hun₁ hun₂ hrel
    have hun₁ := unfinished_of_handled hs hun hun₁
    have hun₂ := unfinished_of_handled hs hun hun₂
    obtain ⟨h₁, h₂, hdocs⟩ := h.related r₁ r₂ q₁ q₂ hne (hreq hq₁) (hreq hq₂) hun₁ hun₂ hrel
    exact ⟨hkeep (hreq hq₁) hun₁ h₁, hkeep (hreq hq₂) hun₂ h₂, hdocs⟩
  case agree =>
    intro x hx j k
    by_cases hxq : x = q.key
    · -- then the request is over, and its piece is stored everywhere
      subst hxq
      have hfin : Finished s' r := by
        by_contra hun'
        exact (hx r q (by rw [hs.requests]; exact hq) hun' rfl).2 rfl
      have hins : ∀ l, q.key ∈ keys (s'.stores l) := fun l => (hsure'.mem l).mpr
        (Phase.inserted_of_passed (Phase.passed_of_returned (hfin l)))
      exact iff_of_true (hins j) (hins k)
    · rw [hmem j x hxq, hmem k x hxq]
      refine h.agree x (fun r' q' hq' hun' hid => ?_) j k
      by_cases hr' : r' = r
      · subst hr'
        obtain rfl : q = q' := Option.some.inj (hq.symm.trans hq')
        exact ⟨hsure, Ne.symm hxq⟩
      · have hun₁ : ¬ Finished s' r' := fun hfin =>
          hun' fun l => hs.phase_other_request hr' l ▸ hfin l
        obtain ⟨hsure₁, hne⟩ := hx r' q' (by rw [hs.requests]; exact hq') hun₁ hid
        refine ⟨hsure₁.frame (fun l => (hs.phase_other_request hr' l).symm) fun l => ?_, hne⟩
        exact (hmem l _ (hdoc hr' hq' hun')).symm

/-- A step of a request that is not sure, and so the only one under way on its
data id. -/
theorem inv_handled_lone {s s' : State n} {i : Fin n} {r : ℕ} {q : Request n} (h : Inv s)
    (hq : s.requests[r]? = some q) (hs : Handled s i r q s') (hnot : ¬ SureRun s r q) :
    Inv s' := by
  have hun : ¬ Finished s r := hs.unfinished
  have hbar := h.barrier hq hun hnot
  obtain ⟨base, hiso, hbase, hharmless⟩ := (h.mode r q hq hun).resolve_left hnot
  have hiso' : Isolated s' r q base := hiso.handled h.wellFormed hbar hs
  have hreq : ∀ {r' : ℕ} {q'}, s'.requests[r']? = some q' → s.requests[r']? = some q' := by
    intro r' q' hq'
    rw [hs.requests] at hq'
    exact hq'
  have hid : ∀ {r' q'}, r' ≠ r → s.requests[r']? = some q' → ¬ Finished s r' →
      ¬ Related q' q := fun hr' hq' hun' hrel =>
    hnot (h.related _ r _ q hr' hq' hq hun' hun hrel).2.1
  have hmem : ∀ j x, x.data_id ≠ q.data_id → (x ∈ keys (s'.stores j) ↔ x ∈ keys (s.stores j)) := by
    intro j x hx
    have hdocs : docsOf x.data_id (s'.stores j) = docsOf x.data_id (s.stores j) :=
      hs.docsOf_of_ne hx
    have hown : ∀ docs : List Doc, x ∈ keys docs ↔ x ∈ keys (docsOf x.data_id docs) := fun docs =>
      ((mem_keys_docsOf).trans (and_iff_left rfl)).symm
    rw [hown, hdocs, ← hown]
  -- the outcomes of the parties are settled, so the request does not become sure
  have hnot' : ¬ SureRun s' r q := by
    intro hsure'
    have hcounted' : Counted s' := h.counted.handled h.wellFormed hq hs
    have hbar' : ∀ i j, (s'.phase i r).passed = true → (s'.phase j r).inserted = true := by
      intro i j hpassed
      refine Registration.barrier hcounted' (by rw [hs.requests]; exact hq) ?_ hpassed j
      intro r' q' hr' hq' hkey k
      by_contra hk
      rw [hs.phase_other_request hr'] at hk
      exact hid hr' (hreq hq') (fun hfin => hk (Phase.passed_of_returned (hfin k))) (.inr hkey)
    exact hnot (hiso.sureRun hbar fun j => (hiso'.storesAt_iff hbar' j).mp (hsure'.stored j))
  constructor
  case wellFormed => exact h.wellFormed.handled hq hs
  case counted => exact h.counted.handled h.wellFormed hq hs
  case mode =>
    intro r' q' hq' hun'
    have hun₀ := unfinished_of_handled hs hun hun'
    by_cases hr' : r' = r
    · subst hr'
      obtain rfl : q = q' := Option.some.inj (hq.symm.trans (hreq hq'))
      exact .inr ⟨base, hiso', hbase, hharmless⟩
    · have hne : q'.data_id ≠ q.data_id := fun heq => hid hr' (hreq hq') hun₀ (.inl heq)
      rcases h.mode r' q' (hreq hq') hun₀ with hsure | ⟨base', hiso₁, hbase', hharmless'⟩
      · exact .inl (hsure.frame (hs.phase_other_request hr') fun j => hmem j q'.key hne)
      · exact .inr ⟨base', hiso₁.frame (hs.phase_other_request hr')
          fun j => hs.docsOf_of_ne hne, hbase',
          hharmless'⟩
  case related =>
    intro r₁ r₂ q₁ q₂ hne hq₁ hq₂ hun₁ hun₂ hrel
    have hun₁ := unfinished_of_handled hs hun hun₁
    have hun₂ := unfinished_of_handled hs hun hun₂
    have hall := h.related r₁ r₂ q₁ q₂ hne (hreq hq₁) (hreq hq₂) hun₁ hun₂ hrel
    -- neither of the two is the request that takes the step
    have hkeep : ∀ {r' q'}, s.requests[r']? = some q' → ¬ Finished s r' → SureRun s r' q' →
        SureRun s' r' q' := by
      intro r' q' hq' hun' hsure
      have hr' : r' ≠ r := by
        intro hcase
        subst hcase
        obtain rfl : q = q' := Option.some.inj (hq.symm.trans hq')
        exact hnot hsure
      exact hsure.frame (hs.phase_other_request hr') fun j =>
        hmem j q'.key fun heq => hid hr' hq' hun' (.inl heq)
    exact ⟨hkeep (hreq hq₁) hun₁ hall.1, hkeep (hreq hq₂) hun₂ hall.2.1, hall.2.2⟩
  case agree =>
    intro x hx j k
    by_cases hxq : x.data_id = q.data_id
    · have hfin : Finished s' r := by
        by_contra hun'
        exact hnot' (hx r q (by rw [hs.requests]; exact hq) hun' hxq.symm).1
      exact LoneRun.agree ⟨base, hiso', hbase, hharmless⟩ hfin hxq j k
    · rw [hmem j x hxq, hmem k x hxq]
      refine h.agree x (fun r' q' hq' hun' hid' => ?_) j k
      have hr' : r' ≠ r := by
        intro hcase
        subst hcase
        obtain rfl : q = q' := Option.some.inj (hq.symm.trans hq')
        exact hxq hid'.symm
      have hun₁ : ¬ Finished s' r' := fun hfin =>
        hun' fun l => hs.phase_other_request hr' l ▸ hfin l
      obtain ⟨hsure, hne⟩ := hx r' q' (by rw [hs.requests]; exact hq') hun₁ hid'
      refine ⟨hsure.frame (fun l => (hs.phase_other_request hr' l).symm)
        fun l => (hmem l _ ?_).symm, hne⟩
      exact fun heq => hxq (hid'.symm.trans heq)

/-- **Careful steps keep the invariant.** -/
theorem inv_step (s : State n) (a : Action n) (s' : State n) (h : Inv s)
    (hok : careful s a = true) (hs : step s a = some s') : Inv s' := by
  cases a with
  | sendShares q =>
      obtain rfl := Option.some.inj hs
      exact inv_sendShares h hok
  | handle i r =>
      obtain ⟨q, hq, hh⟩ := handled_of_step hs
      by_cases hsure : SureRun s r q
      · exact inv_handled_sure h hq hh hsure
      · exact inv_handled_lone h hq hh hsure

end QuickMpc.Registration
