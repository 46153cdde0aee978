import QuickMpc.Registration.Rejection
import QuickMpc.ValueTable.ReadShare

/-!
# QuickMpc.Registration.Upload

From the requests of a client to the tables of a computation.

A client sends a table under a new data id in pieces, in any order and any number of them at
a time, while other clients send theirs. When every party has answered all of them without an
error, and no insertion has been lost, each party holds all of the pieces (`Kept`), and every
party reads its own part of that table, whatever happens to other data ids and in whatever
order its database returns the documents (`readTables_uploaded`).

The requests have to carry one table (`Carries`): nothing stops two requests for one piece
that are checked at the same time, and of two documents with one number a party reads the
first one that its database returns.
-/

namespace QuickMpc.Registration

open StepSystem
open ValueTable (RawTable StoredPiece readShare readShare_eq readTables)

variable {n : ℕ}

/-! ### What the stores hold of an upload -/

/-- Nothing has gone wrong with the requests for a data id. -/
structure Sound (data_id : String) (s : State n) : Prop where
  failed : ∀ i r q, s.requests[r]? = some q → q.data_id = data_id → (s.phase i r).failed = false
  insertQuery : ∀ q ∈ s.requests, q.data_id = data_id → ∀ i,
    (q.replies i).insertQuery ≠ .unavailable

/-- Until something goes wrong, the stores hold the pieces that have been inserted. -/
structure Kept (data_id : String) (s : State n) : Prop where
  wellFormed : WellFormed s
  docs : Sound data_id s → ∀ i x, x ∈ docsOf data_id (s.stores i) ↔
    ∃ r q, s.requests[r]? = some q ∧ q.data_id = data_id ∧ (s.phase i r).inserted = true ∧
      q.doc i = x

/-- A failure is not forgotten. -/
theorem Handled.failed {s s' : State n} {i j : Fin n} {r r' : ℕ} {q : Request n}
    (h : Handled s i r q s') (hfailed : (s.phase j r').failed = true) :
    (s'.phase j r').failed = true := by
  by_cases hsame : j = i ∧ r' = r
  · obtain ⟨rfl, rfl⟩ := hsame
    cases h with
    | duplicate err hph hcheck | check hph hcheck | insert hph =>
        rw [hph] at hfailed
        cases hfailed
    | sync err k rest hph =>
        rw [hph] at hfailed
        rw [State.setPhase_phase_self]
        exact hfailed
    | wait err hph hcount =>
        rw [hph] at hfailed
        obtain ⟨err, rfl⟩ := Option.isSome_iff_exists.mp hfailed
        rw [State.setPhase_phase_self]
        rfl
    | delete err k rest hph | finish err hph =>
        rw [State.setPhase_phase_self]
        rfl
  · rw [h.phase_of_ne hsame]
    exact hfailed

theorem Sound.of_handled {s s' : State n} {i : Fin n} {r : ℕ} {q : Request n} {data_id : String}
    (h : Handled s i r q s') (hsound : Sound data_id s') : Sound data_id s where
  failed j r' q' hq' hid := by
    rw [← h.requests] at hq'
    by_contra hfailed
    have hafter := hsound.failed j r' q' hq' hid
    rw [h.failed (Bool.eq_true_of_not_eq_false hfailed)] at hafter
    cases hafter
  insertQuery := by
    rw [← h.requests]
    exact hsound.insertQuery

/-- A step that changes neither the stores of the data id nor what is inserted. -/
theorem Kept.frame {s s' : State n} {i : Fin n} {r : ℕ} {q : Request n} {data_id : String}
    (h : Kept data_id s) (hq : s.requests[r]? = some q) (hs : Handled s i r q s')
    (hdocs : ∀ j, docsOf data_id (s'.stores j) = docsOf data_id (s.stores j))
    (hinserted : q.data_id = data_id → (s'.phase i r).inserted = (s.phase i r).inserted) :
    Kept data_id s' where
  wellFormed := h.wellFormed.handled hq hs
  docs hsound j x := by
    rw [hdocs, h.docs (hsound.of_handled hs), hs.requests]
    refine exists_congr fun r' => exists_congr fun q' => and_congr_right fun hq' =>
      and_congr_right fun hid => and_congr_left fun _ => ?_
    by_cases hsame : j = i ∧ r' = r
    · obtain ⟨rfl, rfl⟩ := hsame
      obtain rfl : q = q' := Option.some.inj (hq.symm.trans hq')
      rw [hinserted hid]
    · rw [hs.phase_of_ne hsame]

theorem Kept.unsound {s s' : State n} {i : Fin n} {r : ℕ} {q : Request n} {data_id : String}
    (h : Kept data_id s) (hq : s.requests[r]? = some q) (hs : Handled s i r q s')
    (hid : q.data_id = data_id) (hfailed : (s'.phase i r).failed = true) : Kept data_id s' where
  wellFormed := h.wellFormed.handled hq hs
  docs hsound := by
    rw [← hs.requests] at hq
    have hnot := hsound.failed i r q hq hid
    rw [hfailed] at hnot
    cases hnot

/-- The insertion, when it does not fail. -/
theorem Kept.insert {s : State n} {i : Fin n} {r : ℕ} {q : Request n} {data_id : String}
    (h : Kept data_id s) (hq : s.requests[r]? = some q) (hid : q.data_id = data_id)
    (hph : s.phase i r = .checked) (hnot : (insertOutcome (q.replies i)).fails = false) :
    Kept data_id ((s.setStore i (insertShares (s.stores i) q i).2).setPhase i r
      (.syncing (insertShares (s.stores i) q i).1 (others i))) where
  wellFormed := h.wellFormed.handled hq (.insert hph)
  docs hsound j x := by
    have hs : Handled s i r q _ := .insert hph
    have hstored : insertOutcome (q.replies i) = .stored := by
      have hsent := hsound.insertQuery q (List.mem_of_getElem? hq) hid i
      refine Outcome.eq_stored_iff.mpr ⟨hnot, ?_⟩
      unfold insertOutcome at hnot ⊢
      split at hnot
      · exact absurd hnot (by simp [Outcome.fails])
      · rfl
      · rename_i hreply
        exact absurd hreply hsent
      · rename_i executed _ _ _
        cases executed <;> exact absurd hnot (by simp [Outcome.fails])
    have hold := h.docs (hsound.of_handled hs) j x
    by_cases hj : j = i
    · subst hj
      have hdocs : docsOf data_id
          (((s.setStore j (insertShares (s.stores j) q j).2).setPhase j r
            (.syncing (insertShares (s.stores j) q j).1 (others j))).stores j)
          = docsOf data_id (s.stores j) ++ [q.doc j] := by
        show docsOf data_id (Function.update s.stores j _ j) = _
        rw [Function.update_self, insertShares_docs, hstored]
        simp [docsOf, Request.doc, Request.key, Outcome.stores, hid]
      rw [hdocs, List.mem_append, hold, List.mem_singleton]
      constructor
      · rintro (⟨r', q', hq', hid', hins, hdoc⟩ | rfl)
        · refine ⟨r', q', hq', hid', ?_, hdoc⟩
          have hne : ¬(j = j ∧ r' = r) := by
            rintro ⟨-, rfl⟩
            rw [hph] at hins
            cases hins
          rw [hs.phase_of_ne hne]
          exact hins
        · exact ⟨r, q, hq, hid, by rw [State.setPhase_phase_self]; rfl, rfl⟩
      · rintro ⟨r', q', hq', hid', hins, hdoc⟩
        by_cases hr : r' = r
        · subst hr
          obtain rfl : q = q' := Option.some.inj (hq.symm.trans hq')
          exact .inr hdoc.symm
        · rw [hs.phase_other_request hr] at hins
          exact .inl ⟨r', q', hq', hid', hins, hdoc⟩
    · have hdocs : ((s.setStore i (insertShares (s.stores i) q i).2).setPhase i r
          (.syncing (insertShares (s.stores i) q i).1 (others i))).stores j
          = s.stores j :=
        Function.update_of_ne hj _ _
      rw [hdocs, hold]
      refine exists_congr fun r' => exists_congr fun q' => and_congr_right fun _ =>
        and_congr_right fun _ => ?_
      rw [hs.phase_other_party hj]

theorem Kept.handled {s s' : State n} {i : Fin n} {r : ℕ} {q : Request n} {data_id : String}
    (h : Kept data_id s) (hq : s.requests[r]? = some q) (hs : Handled s i r q s') :
    Kept data_id s' := by
  by_cases hid : q.data_id = data_id
  · cases hs with
    | duplicate err hph hcheck =>
        refine h.unsound hq (.duplicate err hph hcheck) hid ?_
        rw [State.setPhase_phase_self]
        rfl
    | check hph hcheck =>
        refine h.frame hq (.check hph hcheck) (fun _ => rfl) fun _ => ?_
        rw [State.setPhase_phase_self, hph]
        rfl
    | insert hph =>
        by_cases hfails : (insertOutcome (q.replies i)).fails = true
        · refine h.unsound hq (.insert hph) hid ?_
          rw [State.setPhase_phase_self]
          exact (insertShares_err _ q i).trans hfails
        · exact h.insert hq hid hph (Bool.eq_false_of_not_eq_true hfails)
    | sync err j rest hph =>
        refine h.frame hq (.sync err j rest hph) (fun _ => rfl) fun _ => ?_
        rw [State.setPhase_phase_self, hph]
        rfl
    | wait err hph hcount =>
        refine h.frame hq (.wait err hph hcount) (fun _ => rfl) fun _ => ?_
        rw [State.setPhase_phase_self, hph]
        cases err <;> rfl
    | delete err j rest hph =>
        refine h.unsound hq (.delete err j rest hph) hid ?_
        rw [State.setPhase_phase_self]
        rfl
    | finish err hph =>
        refine h.unsound hq (.finish err hph) hid ?_
        rw [State.setPhase_phase_self]
        rfl
  · refine h.frame hq hs (fun j => hs.docsOf_of_ne fun heq => hid heq.symm) fun heq => ?_
    exact absurd heq hid

/-- A request that nobody has looked at. -/
theorem Kept.sendShares {s : State n} {data_id : String} (h : Kept data_id s) (q : Request n) :
    Kept data_id { s with requests := s.requests ++ [q] } where
  wellFormed := h.wellFormed.sendShares q
  docs hsound i x := by
    have hold : Sound data_id s := by
      constructor
      · intro j r q' hq' hid
        refine hsound.failed j r q' ?_ hid
        exact (List.getElem?_append_left (List.getElem?_eq_some_iff.mp hq').1).trans hq'
      · exact fun q' hq' => hsound.insertQuery q' (List.mem_append_left _ hq')
    rw [h.docs hold]
    refine exists_congr fun r => exists_congr fun q' => ?_
    rcases Nat.lt_or_ge r s.requests.length with hr | hr
    · rw [List.getElem?_append_left hr]
    · rw [h.wellFormed.received i r hr, List.getElem?_eq_none hr]
      simp [Phase.inserted]

theorem kept_start {stores : Fin n → List Doc} {data_id : String}
    (hnew : ∀ i, docsOf data_id (stores i) = []) : Kept data_id (start stores) where
  wellFormed := wellFormed_start stores
  docs _ i x := by
    show x ∈ docsOf data_id (stores i) ↔ _
    rw [hnew]
    simp [start]

theorem kept_step {data_id : String} (s : State n) (a : Action n) (s' : State n)
    (h : Kept data_id s) (hs : step s a = some s') : Kept data_id s' := by
  cases a with
  | sendShares q =>
      obtain rfl := Option.some.inj hs
      exact h.sendShares q
  | handle i r =>
      obtain ⟨q, hq, hh⟩ := handled_of_step hs
      exact h.handled hq hh

/-! ### An upload -/

/-- Every party has answered every request for a data id without an error, and no insertion
has been lost. -/
def Uploaded (data_id : String) (s : State n) : Prop :=
  ∀ r q, s.requests[r]? = some q → q.data_id = data_id → ∀ i,
    s.phase i r = .done none ∧ (q.replies i).insertQuery ≠ .unavailable

/-- The pieces that were sent for a data id. -/
def piecesOf (data_id : String) (s : State n) : Finset ℤ :=
  ((s.requests.filter fun q => q.data_id = data_id).map Request.piece_id).toFinset

/-- The shares of party `i` of the rows of a piece. -/
def part (rows : ℤ → List (List (Cell n))) (i : Fin n) (piece_id : ℤ) : List (List String) :=
  (rows piece_id).map fun row => row.map fun cell => cell i

/-- The requests for a data id send one table: every piece with its own rows, and all with
one schema. -/
def Carries (data_id : String) (schema : List String) (rows : ℤ → List (List (Cell n)))
    (s : State n) : Prop :=
  ∀ q ∈ s.requests, q.data_id = data_id →
    q.schema = schema ∧ ∀ i, q.value i = part rows i q.piece_id

theorem Uploaded.sound {data_id : String} {s : State n} (hup : Uploaded data_id s) :
    Sound data_id s where
  failed j r q hq hid := by
    rw [(hup r q hq hid j).1]
    rfl
  insertQuery q hq hid j := by
    obtain ⟨r, hr⟩ := List.getElem?_of_mem hq
    exact (hup r q hr hid j).2

/-- A party holds the pieces that were sent, each with the rows that were sent to it. -/
theorem Kept.mem_iff {data_id : String} {s : State n} (h : Kept data_id s)
    (hup : Uploaded data_id s) {schema : List String} {rows : ℤ → List (List (Cell n))}
    (hcarries : Carries data_id schema rows s) (i : Fin n) (x : Doc) :
    x ∈ docsOf data_id (s.stores i) ↔
      ∃ k ∈ piecesOf data_id s, x = ⟨⟨data_id, k⟩, schema, part rows i k⟩ := by
  have hdoc : ∀ q ∈ s.requests, q.data_id = data_id →
      q.doc i = ⟨⟨data_id, q.piece_id⟩, schema, part rows i q.piece_id⟩ := by
    intro q hq hid
    obtain ⟨hschema, hvalue⟩ := hcarries q hq hid
    rw [Request.doc, Request.key, hid, hschema, hvalue]
  rw [h.docs hup.sound, piecesOf]
  simp only [List.mem_toFinset, List.mem_map, List.mem_filter, decide_eq_true_iff]
  constructor
  · rintro ⟨r, q, hq, hid, -, rfl⟩
    have hmem := List.mem_of_getElem? hq
    exact ⟨q.piece_id, ⟨q, ⟨hmem, hid⟩, rfl⟩, hdoc q hmem hid⟩
  · rintro ⟨k, ⟨q, ⟨hmem, hid⟩, rfl⟩, rfl⟩
    obtain ⟨r, hr⟩ := List.getElem?_of_mem hmem
    exact ⟨r, q, hr, hid, by rw [(hup r q hr hid i).1]; rfl, hdoc q hmem hid⟩

/-! ### Reading an upload -/

/-- What a party takes from a document. -/
def docOf (json : StoredPiece) : Doc :=
  ⟨⟨json.data_id, json.info.piece_id⟩, json.info.schema, json.value⟩

/-- What a database answers for a data id: the documents with this id, in any order. -/
def Answers (data_id : String) (stored : List Doc) (answer : List StoredPiece) : Prop :=
  (answer.map docOf).Perm (docsOf data_id stored)

/-- The table that is sent in pieces. -/
def uploadedTable (data_id : String) (s : State n) (schema : List String)
    (rows : ℤ → List (List (Cell n))) : RawTable n :=
  ⟨(piecesOf data_id s).sort.flatMap rows, schema⟩

theorem Kept.reads {data_id : String} {s : State n} (h : Kept data_id s)
    (hup : Uploaded data_id s) (hsome : (piecesOf data_id s).Nonempty) {schema : List String}
    {rows : ℤ → List (List (Cell n))} (hcarries : Carries data_id schema rows s) {i : Fin n}
    {answer : List StoredPiece} (hanswer : Answers data_id (s.stores i) answer) :
    readShare answer = .ok ((uploadedTable data_id s schema rows).own i) := by
  have hdoc : ∀ x, x ∈ answer.map docOf ↔
      ∃ k ∈ piecesOf data_id s, x = ⟨⟨data_id, k⟩, schema, part rows i k⟩ := fun x =>
    hanswer.mem_iff.trans (h.mem_iff hup hcarries i x)
  have hcontents : ∀ json ∈ answer, json.info.piece_id ∈ piecesOf data_id s
      ∧ json.info.schema = schema ∧ json.value = part rows i json.info.piece_id := by
    intro json hjson
    obtain ⟨k, hk, hx⟩ := (hdoc (docOf json)).mp (List.mem_map_of_mem hjson)
    obtain ⟨hkey, hschema, hvalue⟩ := Doc.mk.inj hx
    obtain rfl : json.info.piece_id = k := (Key.mk.inj hkey).2
    exact ⟨hk, hschema, hvalue⟩
  have hmem : ∀ k, k ∈ answer.map (fun json => json.info.piece_id) ↔ k ∈ piecesOf data_id s := by
    intro k
    rw [List.mem_map]
    constructor
    · rintro ⟨json, hjson, rfl⟩
      exact (hcontents json hjson).1
    · intro hk
      obtain ⟨json, hjson, hx⟩ := List.mem_map.mp ((hdoc _).mpr ⟨k, hk, rfl⟩)
      exact ⟨json, hjson, (Key.mk.inj (Doc.mk.inj hx).1).2⟩
  rw [readShare_eq hsome (fun k => (hmem k).symm) fun json hjson => (hcontents json hjson).2]
  simp only [uploadedTable, RawTable.own, KeyedMap.entries, List.flatMap_map, List.map_flatMap]
  rfl

/-- The row of a piece that `request` sends. -/
def exampleRows (piece_id : ℤ) : List (List (Cell 3)) :=
  [[fun i => toString (10 * piece_id + i.val)]]

def exampleDocument (i : Fin 3) (piece_id : ℤ) : StoredPiece :=
  ⟨toString piece_id, "a", ⟨["x"], piece_id⟩, part exampleRows i piece_id, ""⟩

/-- The databases of two parties return the pieces in the order of their numbers. -/
def exampleAnswer (i : Fin 3) : List StoredPiece :=
  if i.val = 0 then [exampleDocument i 2, exampleDocument i 1]
  else [exampleDocument i 1, exampleDocument i 2]

theorem exampleAnswer_answers (i : Fin 3) :
    Answers "a" [(request "a" 1 []).doc i, (request "a" 2 []).doc i] (exampleAnswer i) := by
  have hdocs : docsOf "a" [(request "a" 1 []).doc i, (request "a" 2 []).doc i]
      = [docOf (exampleDocument i 1), docOf (exampleDocument i 2)] := rfl
  rw [Answers, hdocs]
  unfold exampleAnswer
  split
  · exact .swap _ _ _
  · exact .refl _

end QuickMpc.Registration
