import Mathlib.Data.Fintype.Basic
import Mathlib.Data.List.FinRange
import Mathlib.Logic.Function.Basic
import QuickMpc.Lib.StepSystem

/-!
# QuickMpc.Registration.SendShares

`SendShares` in the management containers, for any number of parties and any
number of requests in flight.

The handler of a request at one party inserts the piece into its own database,
calls `Sync` at the other parties and waits until all of them have called it,
and then, when its own insertion has failed, calls `DeleteShares` at the other
parties. Calls between the containers arrive, and the queries of `DeleteShares`
are answered. The queries of an insertion may fail in every way that
`ExecuteQuery` knows, and how they fail is part of the request here: the gate
executes a statement before it sends the first piece of its result, so an
`INSERT` that is reported as failed may have stored the piece.

* `Handled` is what one step of one handler can do.
* `docsOf` is what a store holds of one data id, and the part of the store that
  a handler of that data id reads or changes.
* `Outcome` is what becomes of the insertion at one party.
-/

namespace QuickMpc.Registration

open StepSystem

variable {n : ℕ}

/-! ### The database of one party -/

/-- What `ExecuteQuery` returns: the statement has been executed; the stream
could not be opened, which is reported as an empty result without an error; or
receiving failed, before the gate had executed the statement or after. -/
inductive QueryResult
  | ok
  | unavailable
  | error (executed : Bool) (message : String)
  deriving DecidableEq, Repr

/-- What identifies a piece. -/
structure Key where
  data_id : String
  piece_id : ℤ
  deriving DecidableEq, Repr

/-- A document of the bucket `share`. -/
structure Doc extends Key where
  schema : List String
  value : List (List String)
  deriving DecidableEq, Repr

/-- What happens when one party inserts its shares. -/
structure Replies where
  selectQuery : QueryResult
  /-- The error of `json.Unmarshal` on the received shares. -/
  shares_json : Option String
  insertQuery : QueryResult
  deriving DecidableEq, Repr

/-- A `SendSharesRequest` to all parties, each with its own shares, and what happens
at each of them. -/
structure Request (n : ℕ) where
  data_id : String
  piece_id : ℤ
  schema : List String
  /-- The shares, when they are JSON. -/
  value : Fin n → List (List String)
  replies : Fin n → Replies

def Request.key (q : Request n) : Key := ⟨q.data_id, q.piece_id⟩

/-- What party `i` inserts. -/
def Request.doc (q : Request n) (i : Fin n) : Doc := ⟨q.key, q.schema, q.value i⟩

/-- `fmt.Sprintf("%s%d", dataID, pieceID)`. -/
def Request.syncID (q : Request n) : String := q.data_id ++ toString q.piece_id

/-- Without a result `json.Unmarshal` fails, whether or not `ExecuteQuery`
reports an error. -/
def existPieceID (docs : List Doc) (reply : QueryResult) (dataID : String) (pieceID : ℤ) :
    Except String Bool :=
  match reply with
  | .ok => .ok (docs.any fun r => r.data_id = dataID ∧ r.piece_id = pieceID)
  | _ => .error "unexpected end of JSON input"

/-- The first part of `insertShares`, up to the duplicate check. -/
def checkDuplicate (docs : List Doc) (q : Request n) (replies : Replies) : Option String :=
  match existPieceID docs replies.selectQuery q.data_id q.piece_id with
  | .error err => some err
  | .ok true => some ("重複データ登録エラー: " ++ q.data_id ++ "は既に登録されています．")
  | .ok false => none

/-- The second part of `insertShares` at party `i`: the error and the documents
after it. -/
def insertShares (docs : List Doc) (q : Request n) (i : Fin n) : Option String × List Doc :=
  match (q.replies i).shares_json with
  | some err => (some err, docs)
  | none =>
    match (q.replies i).insertQuery with
    | .ok => (none, docs ++ [q.doc i])
    | .unavailable => (none, docs)
    | .error executed message => (some message, if executed then docs ++ [q.doc i] else docs)

/-- `deleteShares` refuses when one of the data ids has no document. -/
def deleteShares (docs : List Doc) (dataIDs : List String) : Except String (List Doc) :=
  let cnt := dataIDs.countP fun v => docs.any fun e => e.data_id = v
  if dataIDs.length ≠ cnt then .error "存在しないデータIDが含まれています."
  else .ok (docs.filter fun x => x.data_id ∉ dataIDs)

/-- The handler `DeleteShares` of another party's call. -/
def handleDeleteShares (docs : List Doc) (dataID : String) : List Doc :=
  match deleteShares docs [dataID] with
  | .ok docs' => docs'
  | .error _ => docs

theorem handleDeleteShares_eq (docs : List Doc) (dataID : String) :
    handleDeleteShares docs dataID = docs.filter fun x => x.data_id ≠ dataID := by
  by_cases h : docs.any fun e => e.data_id = dataID
  · simp [handleDeleteShares, deleteShares, h]
  · have hall : ∀ x ∈ docs, x.data_id ≠ dataID := by simpa using h
    simp only [handleDeleteShares, deleteShares, List.countP_singleton, if_neg h]
    exact (List.filter_eq_self.mpr (by simpa using hall)).symm

/-! ### The handlers -/

/-- Where the handler of a request is at one party. -/
inductive Phase (n : ℕ)
  | received
  /-- The piece is not stored yet; its shares are inserted next. -/
  | checked
  /-- Inserted, or failed with `err`. Calling `Sync` at the parties left, then
  waiting. -/
  | syncing (err : Option String) (rest : List (Fin n))
  /-- Failed. Calling `DeleteShares` at the parties left. -/
  | deleting (err : String) (rest : List (Fin n))
  | done (err : Option String)
  deriving DecidableEq, Repr

namespace Phase

/-- `insertShares` has returned. -/
def inserted : Phase n → Bool
  | received | checked => false
  | syncing _ _ | deleting _ _ | done _ => true

/-- `insertShares` has returned an error. -/
def failed : Phase n → Bool
  | received | checked => false
  | syncing err _ | done err => err.isSome
  | deleting _ _ => true

/-- `Sync` has been called at party `j`. -/
def synced (j : Fin n) : Phase n → Bool
  | received | checked => false
  | syncing _ rest => decide (j ∉ rest)
  | deleting _ _ | done _ => true

/-- `Sync` has returned. -/
def passed : Phase n → Bool
  | received | checked | syncing _ _ => false
  | deleting _ _ | done _ => true

/-- `DeleteShares` has been called at party `j`. -/
def deleted (j : Fin n) : Phase n → Bool
  | received | checked | syncing _ _ => false
  | deleting _ rest => decide (j ∉ rest)
  | done err => err.isSome

/-- The handler has returned. -/
def returned : Phase n → Bool
  | received | checked | syncing _ _ | deleting _ _ => false
  | done _ => true

theorem passed_of_returned {ph : Phase n} (h : ph.returned = true) : ph.passed = true := by
  cases ph with
  | done err => rfl
  | _ => exact absurd h (by simp [returned])

theorem inserted_of_synced {ph : Phase n} {j : Fin n} (h : ph.synced j = true) :
    ph.inserted = true := by
  cases ph with
  | received | checked => exact absurd h (by simp [synced])
  | _ => rfl

theorem inserted_of_passed {ph : Phase n} (h : ph.passed = true) : ph.inserted = true := by
  cases ph with
  | deleting _ _ | done _ => rfl
  | _ => exact absurd h (by simp [passed])

theorem passed_of_deleted {ph : Phase n} {j : Fin n} (h : ph.deleted j = true) :
    ph.passed = true := by
  cases ph with
  | deleting _ _ | done _ => rfl
  | _ => exact absurd h (by simp [deleted])

theorem failed_of_deleted {ph : Phase n} {j : Fin n} (h : ph.deleted j = true) :
    ph.failed = true := by
  cases ph with
  | deleting _ _ => rfl
  | done err => exact h
  | _ => exact absurd h (by simp [deleted])

/-- A handler that has returned with an error has called `DeleteShares`
everywhere. -/
theorem deleted_of_returned {ph : Phase n} (h : ph.returned = true) (j : Fin n) :
    ph.deleted j = ph.failed := by
  cases ph with
  | done err => rfl
  | _ => exact absurd h (by simp [returned])

end Phase

/-- The pieces among some documents. -/
def keys (docs : List Doc) : List Key := docs.map Doc.toKey

structure State (n : ℕ) where
  requests : List (Request n)
  phase : Fin n → ℕ → Phase n
  count_map : Fin n → String → ℕ
  stores : Fin n → List Doc

/-- The parties hold some documents, and nothing else has happened. -/
def start (stores : Fin n → List Doc) : State n where
  requests := []
  phase _ _ := .received
  count_map _ _ := 0
  stores := stores

inductive Action (n : ℕ)
  /-- A client sends a request to all parties. -/
  | sendShares (q : Request n)
  /-- The handler of the `r`-th request at party `i` takes its next step. -/
  | handle (i : Fin n) (r : ℕ)

namespace State

def setPhase (s : State n) (i : Fin n) (r : ℕ) (ph : Phase n) : State n :=
  { s with phase := fun j r' => if j = i ∧ r' = r then ph else s.phase j r' }

def setStore (s : State n) (i : Fin n) (docs : List Doc) : State n :=
  { s with stores := Function.update s.stores i docs }

/-- `count_map.Store` at party `i`; a deleted key counts `0`. -/
def setCount (s : State n) (i : Fin n) (key : String) (count : ℕ) : State n :=
  let count_map := Function.update (s.count_map i) key count
  { s with count_map := Function.update s.count_map i count_map }

end State

/-- The other parties, in the order of the configuration. -/
def others (i : Fin n) : List (Fin n) := (List.finRange n).filter (· ≠ i)

theorem mem_others {i j : Fin n} : j ∈ others i ↔ j ≠ i := by
  simp [others]

theorem nodup_others (i : Fin n) : (others i).Nodup := (List.nodup_finRange n).filter _

/-- What `SendShares` goes on with after `Sync`. -/
def afterSync (i : Fin n) : Option String → Phase n
  | some err => .deleting err (others i)
  | none => .done none

/-- One step of the containers. -/
def step (s : State n) : Action n → Option (State n)
  | .sendShares q => some { s with requests := s.requests ++ [q] }
  | .handle i r =>
    match s.requests[r]? with
    | none => none
    | some q =>
      match s.phase i r with
      | .received =>
        match checkDuplicate (s.stores i) q (q.replies i) with
        | some err => some (s.setPhase i r (.syncing (some err) (others i)))
        | none => some (s.setPhase i r .checked)
      | .checked =>
        let inserted := insertShares (s.stores i) q i
        some ((s.setStore i inserted.2).setPhase i r (.syncing inserted.1 (others i)))
      | .syncing err (j :: rest) =>
        some ((s.setCount j q.syncID (s.count_map j q.syncID + 1)).setPhase i r
          (.syncing err rest))
      | .syncing err [] =>
        -- `Wait` until all others have called
        if s.count_map i q.syncID < (others i).length then none
        else some ((s.setCount i q.syncID 0).setPhase i r (afterSync i err))
      | .deleting err (j :: rest) =>
        some ((s.setStore j (handleDeleteShares (s.stores j) q.data_id)).setPhase i r
          (.deleting err rest))
      | .deleting err [] => some (s.setPhase i r (.done (some err)))
      | .done _ => none

/-- What one step of the handler of request `q`, the `r`-th one, does at party
`i`. -/
inductive Handled (s : State n) (i : Fin n) (r : ℕ) (q : Request n) : State n → Prop
  | duplicate (err : String) (hph : s.phase i r = .received)
      (hcheck : checkDuplicate (s.stores i) q (q.replies i) = some err) :
      Handled s i r q (s.setPhase i r (.syncing (some err) (others i)))
  | check (hph : s.phase i r = .received)
      (hcheck : checkDuplicate (s.stores i) q (q.replies i) = none) :
      Handled s i r q (s.setPhase i r .checked)
  | insert (hph : s.phase i r = .checked) :
      Handled s i r q
        ((s.setStore i (insertShares (s.stores i) q i).2).setPhase i r
          (.syncing (insertShares (s.stores i) q i).1 (others i)))
  | sync (err : Option String) (j : Fin n) (rest : List (Fin n))
      (hph : s.phase i r = .syncing err (j :: rest)) :
      Handled s i r q
        ((s.setCount j q.syncID (s.count_map j q.syncID + 1)).setPhase i r (.syncing err rest))
  | wait (err : Option String) (hph : s.phase i r = .syncing err [])
      (hcount : (others i).length ≤ s.count_map i q.syncID) :
      Handled s i r q ((s.setCount i q.syncID 0).setPhase i r (afterSync i err))
  | delete (err : String) (j : Fin n) (rest : List (Fin n))
      (hph : s.phase i r = .deleting err (j :: rest)) :
      Handled s i r q
        ((s.setStore j (handleDeleteShares (s.stores j) q.data_id)).setPhase i r
          (.deleting err rest))
  | finish (err : String) (hph : s.phase i r = .deleting err []) :
      Handled s i r q (s.setPhase i r (.done (some err)))

theorem handled_of_step {s s' : State n} {i : Fin n} {r : ℕ}
    (h : step s (.handle i r) = some s') :
    ∃ q, s.requests[r]? = some q ∧ Handled s i r q s' := by
  simp only [step] at h
  split at h
  · exact absurd h (by simp)
  · rename_i q hq
    refine ⟨q, hq, ?_⟩
    split at h
    · rename_i hph
      split at h
      · rename_i err hcheck
        obtain rfl := Option.some.inj h
        exact .duplicate err hph hcheck
      · rename_i hcheck
        obtain rfl := Option.some.inj h
        exact .check hph hcheck
    · rename_i hph
      obtain rfl := Option.some.inj h
      exact .insert hph
    · rename_i err j rest hph
      obtain rfl := Option.some.inj h
      exact .sync err j rest hph
    · rename_i err hph
      split at h
      · exact absurd h (by simp)
      · rename_i hcount
        obtain rfl := Option.some.inj h
        exact .wait err hph (Nat.not_lt.mp hcount)
    · rename_i err j rest hph
      obtain rfl := Option.some.inj h
      exact .delete err j rest hph
    · rename_i err hph
      obtain rfl := Option.some.inj h
      exact .finish err hph
    · exact absurd h (by simp)

/-! ### What a step leaves alone -/

@[simp] theorem State.setPhase_phase_self (s : State n) (i : Fin n) (r : ℕ) (ph : Phase n) :
    (s.setPhase i r ph).phase i r = ph := by
  simp [State.setPhase]

theorem Handled.requests {s s' : State n} {i : Fin n} {r : ℕ} {q : Request n}
    (h : Handled s i r q s') : s'.requests = s.requests := by
  cases h <;> rfl

/-- A step changes one phase. -/
theorem Handled.phase_of_ne {s s' : State n} {i j : Fin n} {r r' : ℕ} {q : Request n}
    (h : Handled s i r q s') (hne : ¬ (j = i ∧ r' = r)) : s'.phase j r' = s.phase j r' := by
  cases h <;> exact if_neg hne

/-- Nothing changes at the other parties. -/
theorem Handled.phase_other_party {s s' : State n} {i j : Fin n} {r : ℕ} {q : Request n}
    (h : Handled s i r q s') (hj : j ≠ i) (r' : ℕ) : s'.phase j r' = s.phase j r' :=
  h.phase_of_ne fun hboth => hj hboth.1

theorem Handled.phase_other_request {s s' : State n} {i : Fin n} {r r' : ℕ} {q : Request n}
    (h : Handled s i r q s') (hr' : r' ≠ r) (j : Fin n) : s'.phase j r' = s.phase j r' :=
  h.phase_of_ne fun hboth => hr' hboth.2

/-- The parts of the lists still to be called, and the requests still to come. -/
structure WellFormed (s : State n) : Prop where
  received : ∀ i r, s.requests.length ≤ r → s.phase i r = .received
  syncing : ∀ i r err rest, s.phase i r = .syncing err rest → rest.Sublist (others i)
  deleting : ∀ i r err rest, s.phase i r = .deleting err rest → rest.Sublist (others i)

theorem wellFormed_start (stores : Fin n → List Doc) : WellFormed (start stores) where
  received := by simp [start]
  syncing := by simp [start]
  deleting := by simp [start]

theorem WellFormed.sendShares {s : State n} (h : WellFormed s) (q : Request n) :
    WellFormed { s with requests := s.requests ++ [q] } where
  received i r hr := h.received i r (Nat.le_trans (by simp) hr)
  syncing := h.syncing
  deleting := h.deleting

/-- The phase that a step enters keeps to the other parties. -/
theorem WellFormed.setPhase {s s' : State n} (h : WellFormed s) {i : Fin n} {r : ℕ} {q : Request n}
    (hq : s.requests[r]? = some q) (hs : Handled s i r q s')
    (hsync : ∀ err rest, s'.phase i r = .syncing err rest → rest.Sublist (others i))
    (hdel : ∀ err rest, s'.phase i r = .deleting err rest → rest.Sublist (others i)) :
    WellFormed s' := by
  have hr : r < s.requests.length := (List.getElem?_eq_some_iff.mp hq).1
  constructor
  case received =>
    intro j r' hr'
    rw [hs.requests] at hr'
    have hne : ¬ (j = i ∧ r' = r) := by
      intro h'
      obtain ⟨-, rfl⟩ := h'
      exact Nat.not_lt.mpr hr' hr
    rw [hs.phase_of_ne hne]
    exact h.received j r' hr'
  case syncing =>
    intro j r' err rest hph
    by_cases hj : j = i ∧ r' = r
    · obtain ⟨rfl, rfl⟩ := hj
      exact hsync err rest hph
    · rw [hs.phase_of_ne hj] at hph
      exact h.syncing j r' err rest hph
  case deleting =>
    intro j r' err rest hph
    by_cases hj : j = i ∧ r' = r
    · obtain ⟨rfl, rfl⟩ := hj
      exact hdel err rest hph
    · rw [hs.phase_of_ne hj] at hph
      exact h.deleting j r' err rest hph

theorem WellFormed.handled {s s' : State n} {i : Fin n} {r : ℕ} {q : Request n} (h : WellFormed s)
    (hq : s.requests[r]? = some q) (hs : Handled s i r q s') : WellFormed s' := by
  refine h.setPhase hq hs ?_ ?_
  · intro err' rest' hph'
    cases hs with
    | duplicate err hph hcheck | insert hph =>
        rw [State.setPhase_phase_self] at hph'
        obtain ⟨-, rfl⟩ := Phase.syncing.inj hph'
        exact List.Sublist.refl _
    | sync err j rest hph =>
        rw [State.setPhase_phase_self] at hph'
        obtain ⟨-, rfl⟩ := Phase.syncing.inj hph'
        exact (List.sublist_cons_self j rest).trans (h.syncing i r _ _ hph)
    | wait err hph hcount =>
        rw [State.setPhase_phase_self] at hph'
        cases err <;> exact absurd hph' (by simp [afterSync])
    | check hph hcheck | delete err j rest hph | finish err hph =>
        rw [State.setPhase_phase_self] at hph'
        exact absurd hph' (by simp)
  · intro err' rest' hph'
    cases hs with
    | wait err hph hcount =>
        rw [State.setPhase_phase_self] at hph'
        cases err with
        | none => exact absurd hph' (by simp [afterSync])
        | some err =>
            obtain ⟨-, rfl⟩ := Phase.deleting.inj hph'
            exact List.Sublist.refl _
    | delete err j rest hph =>
        rw [State.setPhase_phase_self] at hph'
        obtain ⟨-, rfl⟩ := Phase.deleting.inj hph'
        exact (List.sublist_cons_self j rest).trans (h.deleting i r _ _ hph)
    | duplicate err hph hcheck | check hph hcheck | insert hph | sync err j rest hph
    | finish err hph =>
        rw [State.setPhase_phase_self] at hph'
        exact absurd hph' (by simp)

/-! ### One data id -/

/-- What a store holds of one data id. -/
def docsOf (dataID : String) (docs : List Doc) : List Doc := docs.filter fun x => x.data_id = dataID

theorem mem_docsOf {dataID : String} {docs : List Doc} {x : Doc} :
    x ∈ docsOf dataID docs ↔ x ∈ docs ∧ x.data_id = dataID := by
  simp [docsOf]

theorem mem_keys_docsOf {dataID : String} {docs : List Doc} {x : Key} :
    x ∈ keys (docsOf dataID docs) ↔ x ∈ keys docs ∧ x.data_id = dataID := by
  simp only [keys, List.mem_map, mem_docsOf]
  constructor
  · rintro ⟨doc, ⟨hdoc, hid⟩, rfl⟩
    exact ⟨⟨doc, hdoc, rfl⟩, hid⟩
  · rintro ⟨⟨doc, hdoc, rfl⟩, hid⟩
    exact ⟨doc, ⟨hdoc, hid⟩, rfl⟩

/-- The duplicate check looks at one data id only. -/
theorem checkDuplicate_docsOf (docs : List Doc) (q : Request n) (replies : Replies) :
    checkDuplicate (docsOf q.data_id docs) q replies = checkDuplicate docs q replies := by
  have hany : ((docsOf q.data_id docs).any
      fun x => x.data_id = q.data_id ∧ x.piece_id = q.piece_id)
      = docs.any fun x => x.data_id = q.data_id ∧ x.piece_id = q.piece_id := by
    rw [docsOf, List.any_filter]
    congr 1
    funext x
    by_cases hx : x.data_id = q.data_id <;> simp [hx]
  simp only [checkDuplicate, existPieceID, hany]

theorem docsOf_handleDeleteShares_self (dataID : String) (docs : List Doc) :
    docsOf dataID (handleDeleteShares docs dataID) = [] := by
  rw [handleDeleteShares_eq, docsOf, List.filter_eq_nil_iff]
  intro x hx
  simpa using (List.mem_filter.mp hx).2

theorem docsOf_handleDeleteShares_of_ne {dataID dataID' : String} (h : dataID' ≠ dataID)
    (docs : List Doc) : docsOf dataID' (handleDeleteShares docs dataID) = docsOf dataID' docs := by
  rw [handleDeleteShares_eq, docsOf, docsOf, List.filter_filter]
  refine List.filter_congr fun x _ => ?_
  by_cases hx : x.data_id = dataID'
  · simp [hx, h]
  · simp [hx]

/-- What becomes of the insertion at one party. -/
inductive Outcome
  | failed
  /-- The insertion is reported as failed, but the piece is stored. -/
  | broken
  /-- The insertion is reported as done, but nothing is stored. -/
  | lost
  | stored
  deriving DecidableEq, Repr

namespace Outcome

/-- `insertShares` returns an error. -/
def fails : Outcome → Bool
  | failed | broken => true
  | lost | stored => false

/-- The piece is stored. -/
def stores : Outcome → Bool
  | broken | stored => true
  | failed | lost => false

theorem eq_stored_iff {o : Outcome} : o = .stored ↔ o.fails = false ∧ o.stores = true := by
  cases o <;> simp [fails, stores]

end Outcome

/-- The outcome when the duplicate check has passed. -/
def insertOutcome (replies : Replies) : Outcome :=
  match replies.shares_json, replies.insertQuery with
  | some _, _ => .failed
  | none, .ok => .stored
  | none, .unavailable => .lost
  | none, .error executed _ => if executed then .broken else .failed

/-- The outcome at a party that holds `docs`. -/
def outcome (docs : List Doc) (q : Request n) (replies : Replies) : Outcome :=
  if (checkDuplicate docs q replies).isSome then .failed else insertOutcome replies

theorem insertShares_err (docs : List Doc) (q : Request n) (i : Fin n) :
    (insertShares docs q i).1.isSome = (insertOutcome (q.replies i)).fails := by
  unfold insertShares insertOutcome
  cases (q.replies i).shares_json with
  | some err => rfl
  | none =>
      cases (q.replies i).insertQuery with
      | ok | unavailable => rfl
      | error executed message => cases executed <;> rfl

theorem insertShares_docs (docs : List Doc) (q : Request n) (i : Fin n) :
    (insertShares docs q i).2
      = if (insertOutcome (q.replies i)).stores then docs ++ [q.doc i] else docs := by
  unfold insertShares insertOutcome
  cases (q.replies i).shares_json with
  | some err => rfl
  | none =>
      cases (q.replies i).insertQuery with
      | ok | unavailable => rfl
      | error executed message => cases executed <;> rfl

/-- A handler changes what the stores hold of its own data id only. -/
theorem Handled.docsOf_of_ne {s s' : State n} {i j : Fin n} {r : ℕ} {q : Request n}
    {dataID : String} (h : Handled s i r q s') (hne : dataID ≠ q.data_id) :
    docsOf dataID (s'.stores j) = docsOf dataID (s.stores j) := by
  cases h with
  | duplicate | check | sync | wait | finish => rfl
  | insert hph =>
      show docsOf dataID (Function.update s.stores i _ j) = _
      by_cases hj : j = i
      · subst hj
        rw [Function.update_self, insertShares_docs]
        split
        · have hdoc : docsOf dataID [q.doc j] = [] := by
            simp [docsOf, Request.doc, Request.key, hne.symm]
          rw [docsOf, List.filter_append, ← docsOf, ← docsOf, hdoc, List.append_nil]
        · rfl
      · rw [Function.update_of_ne hj]
  | delete err k rest hph =>
      show docsOf dataID (Function.update s.stores k _ j) = _
      by_cases hj : j = k
      · subst hj
        rw [Function.update_self, docsOf_handleDeleteShares_of_ne hne]
      · rw [Function.update_of_ne hj]

end QuickMpc.Registration
