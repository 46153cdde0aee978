import QuickMpc.DbGate.Client

/-!
# QuickMpc.DbGate.WriteOutcome

Whether a call that writes reports what has happened, for every outcome of the streams of
its queries.

The gate executes a query before it sends the first piece of its result, so a stream that
breaks leaves open whether the query was executed. `ExecuteQuery` returns no error for a
stream that cannot be opened, and an error for every stream that breaks.

Each call is run from its first query to its last one, with the parts of
`QuickMpc.DbGate.Client`. `writes_tell_iff` says when the three calls tell the truth.
-/

namespace QuickMpc.DbGate

open Registration (QueryResult)

variable {J : Type}

/-- What happens to a query that is sent to the gate. -/
inductive Stream
  | notOpened
  /-- `Recv` returns an error. -/
  | broken (executed : Bool) (message : String)
  | finished
  deriving DecidableEq, Repr

/-- What `ExecuteQuery` returns. -/
def Stream.reply : Stream → QueryResult
  | .notOpened => .unavailable
  | .broken executed message => .error executed message
  | .finished => .ok

def Stream.executed : Stream → Bool
  | .notOpened => false
  | .broken executed _ => executed
  | .finished => true

/-- The end of a call: the database, what the call returns, and whether its write was
executed. -/
structure Written (J : Type) where
  db : Db J
  out : Outcome J
  executed : Bool

/-- The call ends before its write. -/
def refuse (db : Db J) (err : Err) : Written J := ⟨db, .error err, false⟩

/-- The write of a call, which leads from `db` to `db'`. -/
def write (query : Stream) (db db' : Db J) : Written J where
  db := if query.executed then db' else db
  out := (execute query.reply db db').2
  executed := query.executed

/-! ### The calls -/

/-- `insertShares`, with the streams of its `SELECT` and its `INSERT`. -/
def runInsertShares (env : Externals J) (db : Db J) (select insert : Stream)
    (uuid dataID : String) (schema : List String) (pieceID : ℤ) (shares sent_at : String) :
    Written J :=
  match existPieceID env db select.reply dataID pieceID with
  | .error err => refuse db err
  | .ok true => refuse db (.duplicate dataID)
  | .ok false =>
    match env.unmarshal shares with
    | .error message => refuse db (.json message)
    | .ok shares_json =>
      let share : Share J := ⟨uuid, dataID, ⟨schema, pieceID⟩, shares_json, sent_at⟩
      write insert db { db with share := db.share ++ [share] }

/-- `insertModelParams`, with the streams of its `SELECT` and its `INSERT`. -/
def runInsertModelParams (env : Externals J) (db : Db J) (select insert : Stream)
    (uuid jobUUID params : String) : Written J :=
  match count env db select.reply .job_uuid jobUUID with
  | .error err => refuse db err
  | .ok cnt =>
    if 0 < cnt then refuse db (.duplicate jobUUID)
    else
      match env.unmarshal params with
      | .error message => refuse db (.json message)
      | .ok paramsJSON =>
        let saveParams : ComputationResult J := ⟨uuid, jobUUID, 0, paramsJSON⟩
        write insert db { db with result := db.result ++ [saveParams] }

/-- `deleteShares`, with the streams of its `SELECT` and its `DELETE`. -/
def runDeleteShares (env : Externals J) (db : Db J) (select delete : Stream)
    (dataIDs : List String) : Written J :=
  match checkShares env db select.reply dataIDs with
  | .error err => refuse db err
  | .ok () =>
    write delete db { db with share := db.share.filter fun x => !env.isIn dataIDs x.data_id }

/-! ### Telling the truth -/

/-- The call returns nil only if its write was executed, and an error only if it changed
nothing. -/
def Tells (db : Db J) (w : Written J) : Prop :=
  (w.out = .ok → w.executed) ∧ (w.out ≠ .ok → w.db = db)

/-- The stream opens and, if it breaks, the query was not executed. -/
def Stream.Settles (query : Stream) : Prop :=
  query ≠ .notOpened ∧ ∀ message, query ≠ .broken true message

theorem tells_refuse (db : Db J) (err : Err) : Tells db (refuse db err) :=
  ⟨nofun, fun _ => rfl⟩

/-- A write that changes the database is told if its stream settles. -/
theorem tells_write_iff {db db' : Db J} (query : Stream) :
    Tells db (write query db db') ↔
      query ≠ .notOpened ∧ ((∃ message, query = .broken true message) → db' = db) := by
  cases query with
  | notOpened =>
      refine iff_of_false (fun h => ?_) fun h => h.1 rfl
      exact absurd (h.1 rfl) Bool.false_ne_true
  | broken executed message =>
      cases executed with
      | false =>
          refine iff_of_true ⟨nofun, fun _ => rfl⟩ ⟨nofun, ?_⟩
          intro h'
          obtain ⟨_, h⟩ := h'
          exact absurd (Stream.broken.inj h).1 Bool.false_ne_true
      | true =>
          constructor
          · exact fun h => ⟨nofun, fun _ => h.2 nofun⟩
          · exact fun h => ⟨nofun, fun _ => h.2 ⟨message, rfl⟩⟩
  | finished =>
      refine iff_of_true ⟨fun _ => rfl, fun h => absurd rfl h⟩ ⟨nofun, ?_⟩
      intro h'
      obtain ⟨_, h⟩ := h'
      cases h

theorem tells_write_iff_settles {db db' : Db J} (hne : db' ≠ db) (query : Stream) :
    Tells db (write query db db') ↔ query.Settles := by
  rw [tells_write_iff, Stream.Settles]
  simp [hne]

/-! ### The parts of the calls -/

/-- A stream acts as its reply says. -/
theorem write_eq_execute (query : Stream) (db db' : Db J) :
    ((write query db db').db, (write query db db').out) = execute query.reply db db' := by
  cases query <;> rfl

/-- `insertShares` ends as the step of a call that holds its lock does. -/
theorem runInsertShares_eq (env : Externals J) {db : Db J} {select : Stream} (insert : Stream)
    {dataID : String} {pieceID : ℤ}
    (hexist : existPieceID env db select.reply dataID pieceID = .ok false) (uuid : String)
    (schema : List String) (shares sent_at : String) :
    let w := runInsertShares env db select insert uuid dataID schema pieceID shares sent_at
    (w.db, w.out)
      = insertShares env db insert.reply uuid dataID schema pieceID shares sent_at := by
  intro w
  simp only [w, runInsertShares, hexist, insertShares]
  cases env.unmarshal shares with
  | error message => rfl
  | ok shares_json => exact write_eq_execute insert db _

/-- `insertModelParams` likewise. -/
theorem runInsertModelParams_eq (env : Externals J) (db : Db J) (select insert : Stream)
    (uuid jobUUID params : String) :
    let w := runInsertModelParams env db select insert uuid jobUUID params
    (w.db, w.out) = insertModelParams env db
      (check env db select.reply (.insertModelParams jobUUID params)) insert.reply uuid jobUUID
      params := by
  intro w
  simp only [w, runInsertModelParams, check, insertModelParams]
  cases count env db select.reply .job_uuid jobUUID with
  | error err => rfl
  | ok cnt =>
      by_cases hcnt : 0 < cnt
      · simp [Except.map, hcnt, refuse]
      · simp only [Except.map, hcnt, if_false, decide_false]
        cases env.unmarshal params with
        | error message => rfl
        | ok paramsJSON => exact write_eq_execute insert db _

/-- `deleteShares` likewise. -/
theorem runDeleteShares_eq (env : Externals J) {db : Db J} {select : Stream} (delete : Stream)
    {dataIDs : List String} (hcheck : checkShares env db select.reply dataIDs = .ok ()) :
    let w := runDeleteShares env db select delete dataIDs
    (w.db, w.out) = deleteShares env db delete.reply dataIDs := by
  intro w
  simp only [w, runDeleteShares, hcheck]
  exact write_eq_execute delete db _

/-! ### When the calls tell the truth -/

section Tells

variable (env : Externals J) (db : Db J) (select query : Stream) (uuid : String)

theorem runInsertShares_tells_iff (dataID : String) (schema : List String) (pieceID : ℤ)
    (shares sent_at : String) :
    Tells db (runInsertShares env db select query uuid dataID schema pieceID shares sent_at) ↔
      (existPieceID env db select.reply dataID pieceID = .ok false →
        (∃ shares_json, env.unmarshal shares = .ok shares_json) → query.Settles) := by
  unfold runInsertShares
  cases existPieceID env db select.reply dataID pieceID with
  | error err => exact iff_of_true (tells_refuse db err) nofun
  | ok exist =>
      cases exist with
      | true => exact iff_of_true (tells_refuse db _) nofun
      | false =>
          cases env.unmarshal shares with
          | error message => exact iff_of_true (tells_refuse db _) nofun
          | ok shares_json =>
              have hne : ∀ share : Share J, { db with share := db.share ++ [share] } ≠ db := by
                intro share h
                simpa using congrArg Db.share h
              rw [tells_write_iff_settles (hne _)]
              exact ⟨fun h _ _ => h, fun h => h rfl ⟨shares_json, rfl⟩⟩

theorem runInsertModelParams_tells_iff (jobUUID params : String) :
    Tells db (runInsertModelParams env db select query uuid jobUUID params) ↔
      ((∃ cnt, count env db select.reply .job_uuid jobUUID = .ok cnt ∧ ¬0 < cnt) →
        (∃ paramsJSON, env.unmarshal params = .ok paramsJSON) → query.Settles) := by
  unfold runInsertModelParams
  cases count env db select.reply .job_uuid jobUUID with
  | error err => exact iff_of_true (tells_refuse db err) (by simp)
  | ok cnt =>
      by_cases hcnt : 0 < cnt
      · simp only [hcnt, if_true]
        exact iff_of_true (tells_refuse db _) (by simp [hcnt])
      · simp only [hcnt, if_false]
        cases env.unmarshal params with
        | error message => exact iff_of_true (tells_refuse db _) (by simp)
        | ok paramsJSON =>
            have hne : ∀ result : ComputationResult J,
                { db with result := db.result ++ [result] } ≠ db := by
              intro result h
              simpa using congrArg Db.result h
            simp only [tells_write_iff_settles (hne _)]
            exact ⟨fun h _ _ => h, fun h => h ⟨cnt, rfl, hcnt⟩ ⟨paramsJSON, rfl⟩⟩

/-- Every id that passes the check of `deleteShares` is one that its queries ask for. -/
theorem isIn_of_checkShares {dataIDs : List String}
    (hcheck : checkShares env db select.reply dataIDs = .ok ()) :
    ∀ v ∈ dataIDs, env.isIn dataIDs v = true := by
  intro v hv
  unfold checkShares at hcheck
  cases hreply : select.reply with
  | ok =>
      rw [hreply] at hcheck
      simp only [DbGate.select] at hcheck
      split at hcheck
      · cases hcheck
      · rename_i hlength
        have hall := List.countP_eq_length.mp (not_ne_iff.mp hlength).symm v hv
        obtain ⟨x, hx, hdata⟩ := List.any_eq_true.mp hall
        have hx := (List.mem_filter.mp hx).2
        rwa [of_decide_eq_true hdata] at hx
  | unavailable =>
      rw [hreply] at hcheck
      cases hcheck
  | error executed message =>
      rw [hreply] at hcheck
      cases hcheck

theorem runDeleteShares_tells_iff (dataIDs : List String) :
    Tells db (runDeleteShares env db select query dataIDs) ↔
      (checkShares env db select.reply dataIDs = .ok () →
        query ≠ .notOpened ∧ ((∃ message, query = .broken true message) →
          ∀ x ∈ db.share, env.isIn dataIDs x.data_id = false)) := by
  unfold runDeleteShares
  cases checkShares env db select.reply dataIDs with
  | error err => exact iff_of_true (tells_refuse db err) nofun
  | ok u =>
      have hsame : ({ db with share := db.share.filter fun x => !env.isIn dataIDs x.data_id } : Db J)
          = db ↔ ∀ x ∈ db.share, env.isIn dataIDs x.data_id = false := by
        constructor
        · intro h x hx
          have hshare := congrArg Db.share h
          simpa using List.filter_eq_self.mp hshare x hx
        · intro h
          have hshare : (db.share.filter fun x => !env.isIn dataIDs x.data_id) = db.share :=
            List.filter_eq_self.mpr fun x hx => by simp [h x hx]
          rw [hshare]
      rw [tells_write_iff, hsame]
      exact ⟨fun h _ => h, fun h => h rfl⟩

/-- A `DELETE` that was executed has left no document of the given ids. -/
theorem runDeleteShares_deleted {dataIDs : List String}
    (hexecuted : (runDeleteShares env db select query dataIDs).executed) :
    ∀ x ∈ (runDeleteShares env db select query dataIDs).db.share, x.data_id ∉ dataIDs := by
  unfold runDeleteShares at hexecuted ⊢
  cases hcheck : checkShares env db select.reply dataIDs with
  | error err =>
      rw [hcheck] at hexecuted
      cases hexecuted
  | ok u =>
      rw [hcheck] at hexecuted
      intro x hx hid
      simp only [write, show query.executed = true from hexecuted, if_true] at hx
      have hno := (List.mem_filter.mp hx).2
      rw [isIn_of_checkShares env db select hcheck x.data_id hid] at hno
      exact Bool.false_ne_true hno

/-- **When the writing calls tell the truth.** `insertShares` and `insertModelParams` return
nil only if their `INSERT` was executed and otherwise change nothing, and `deleteShares`
returns nil only if its `DELETE` was executed and has removed all documents of the given
ids, and otherwise changes nothing, exactly when the write is not reached or its stream
opens and, if it breaks, the write was not executed (or, for the `DELETE`, had nothing to
remove). -/
theorem writes_tell_iff :
    (∀ (dataID : String) (schema : List String) (pieceID : ℤ) (shares sent_at : String),
      Tells db (runInsertShares env db select query uuid dataID schema pieceID shares sent_at) ↔
        (existPieceID env db select.reply dataID pieceID = .ok false →
          (∃ shares_json, env.unmarshal shares = .ok shares_json) → query.Settles))
      ∧ (∀ jobUUID params : String,
        Tells db (runInsertModelParams env db select query uuid jobUUID params) ↔
          ((∃ cnt, count env db select.reply .job_uuid jobUUID = .ok cnt ∧ ¬0 < cnt) →
            (∃ paramsJSON, env.unmarshal params = .ok paramsJSON) → query.Settles))
      ∧ ∀ dataIDs : List String,
        (Tells db (runDeleteShares env db select query dataIDs)
          ∧ ((runDeleteShares env db select query dataIDs).out = .ok →
            ∀ x ∈ (runDeleteShares env db select query dataIDs).db.share, x.data_id ∉ dataIDs)) ↔
          (checkShares env db select.reply dataIDs = .ok () →
            query ≠ .notOpened ∧ ((∃ message, query = .broken true message) →
              ∀ x ∈ db.share, env.isIn dataIDs x.data_id = false)) := by
  refine ⟨runInsertShares_tells_iff env db select query uuid,
    runInsertModelParams_tells_iff env db select query uuid, fun dataIDs => ?_⟩
  rw [← runDeleteShares_tells_iff]
  constructor
  · exact fun h => h.1
  · exact fun h => ⟨h, fun hok => runDeleteShares_deleted env db select query (h.1 hok)⟩

end Tells

/-- An `INSERT` whose stream cannot be opened is not executed, and `insertShares` returns
nil. -/
theorem runInsertShares_notOpened :
    let w := runInsertShares plainDatabase ⟨[], []⟩ .finished .notOpened "u" "id" ["x"] 0 "1" "now"
    w.out = .ok ∧ w.executed = false ∧ w.db.share = [] ∧ ¬Tells ⟨[], []⟩ w := by
  intro w
  have hout : w.out = .ok := rfl
  have hexecuted : w.executed = false := rfl
  refine ⟨hout, hexecuted, rfl, fun h => ?_⟩
  have := h.1 hout
  rw [hexecuted] at this
  exact absurd this Bool.false_ne_true

end QuickMpc.DbGate
