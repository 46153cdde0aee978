import Mathlib.Algebra.Order.Ring.Int
import QuickMpc.DbGate.LockSet
import QuickMpc.Registration.SendShares

/-!
# QuickMpc.DbGate.Client

The database calls of one management container, lock by lock and query by query, for
any number of calls at the same time.

`insertShares` and `insertModelParams` first look for the key under its lock, release
the lock, and take it again to insert; `insertModelParams` looks at what it has found
only then. `deleteShares` takes the locks of its data ids one after the other and
keeps them all. The other calls are one query under one lock. All locks are of one
`lockSet`, and deferred unlocks run in reverse order.

A query is one step, with the answer of `ExecuteQuery` chosen freely. Texts that are
put into a query without escaping are read by the database, hence `Externals`.
-/

namespace QuickMpc.DbGate

open Registration (QueryResult)

variable {J : Type}

/-! ### The database -/

structure Meta where
  schema : List String
  piece_id : ℤ
  deriving DecidableEq, Repr

/-- A document of the bucket `share`; `id` is its `meta().id`. -/
structure Share (J : Type) where
  id : String
  data_id : String
  info : Meta
  value : J
  sent_at : String
  deriving DecidableEq, Repr

/-- A document of the bucket `result`. -/
structure ComputationResult (J : Type) where
  id : String
  job_uuid : String
  status : ℤ
  result : J
  deriving DecidableEq, Repr

structure Db (J : Type) where
  share : List (Share J)
  result : List (ComputationResult J)

/-- What the client relies on and does not contain. -/
structure Externals (J : Type) where
  /-- `json.Unmarshal` into an `interface{}`. -/
  unmarshal : String → Except String J
  /-- Whether the database takes `x.f = '<text>'` to hold for a value of `x.f`. -/
  eq : String → String → Bool
  /-- Whether it takes `x.f IN ['<text>', …]` to hold. -/
  isIn : List String → String → Bool

/-! ### The calls -/

/-- The buckets that `count` is used for, with the field. -/
inductive Field
  | data_id
  | job_uuid
  deriving DecidableEq, Repr

inductive Request
  | insertShares (dataID : String) (schema : List String) (pieceID : ℤ) (shares sent_at : String)
  | insertModelParams (jobUUID params : String)
  | deleteShares (dataIDs : List String)
  | getSchema (dataID : String)
  | count (field : Field) (id : String)
  | getComputationResult (jobUUID : String)
  deriving DecidableEq, Repr

/-- The keys of the locks, in the order in which they are taken. -/
def Request.ids : Request → List String
  | .insertShares dataID _ _ _ _ => [dataID]
  | .insertModelParams jobUUID _ => [jobUUID]
  | .deleteShares dataIDs => dataIDs
  | .getSchema dataID => [dataID]
  | .count _ id => [id]
  | .getComputationResult jobUUID => [jobUUID]

inductive Err
  | duplicate (id : String)
  | missing
  | noSchema
  | notUnique (len : ℕ)
  /-- An error of `json.Unmarshal`. -/
  | json (message : String)
  /-- An error of `ExecuteQuery`. -/
  | query (message : String)
  deriving DecidableEq, Repr

/-- The text of an error. -/
def Err.text : Err → String
  | .duplicate id => "重複データ登録エラー: " ++ id ++ "は既に登録されています．"
  | .missing => "存在しないデータIDが含まれています."
  | .noSchema => "schema could not be found."
  | .notUnique len => "unique computation result could not be found: " ++ toString len
  | .json message => message
  | .query message => message

inductive Outcome (J : Type)
  | error (err : Err)
  | ok
  | schema (schema : List String)
  | count (cnt : ℤ)
  | computationResult (result : ComputationResult J)
  deriving DecidableEq, Repr

/-- `ExecuteQuery` and `json.Unmarshal` of its result. Without a result the latter
fails. -/
def select {α : Type} (reply : QueryResult) (rows : List α) : Except Err (List α) :=
  match reply with
  | .ok => .ok rows
  | .unavailable => .error (.json "unexpected end of JSON input")
  | .error _ message => .error (.query message)

/-- The error of the query is overwritten by the one of `json.Unmarshal`. -/
def existPieceID (env : Externals J) (db : Db J) (reply : QueryResult) (dataID : String)
    (pieceID : ℤ) : Except Err Bool :=
  match reply with
  | .ok => .ok ((db.share.filter fun x => env.eq dataID x.data_id).any fun r =>
      r.info.piece_id = pieceID)
  | _ => .error (.json "unexpected end of JSON input")

/-- The conversion to `int32`. -/
def int32 (k : ℤ) : ℤ := Int.bmod k (2 ^ 32)

def count (env : Externals J) (db : Db J) (reply : QueryResult) (field : Field) (id : String) :
    Except Err ℤ :=
  match field with
  | .data_id =>
    (select reply (db.share.filter fun x => env.eq id x.data_id)).map fun rows =>
      int32 rows.length
  | .job_uuid =>
    (select reply (db.result.filter fun x => env.eq id x.job_uuid)).map fun rows =>
      int32 rows.length

/-- What `insertShares` and `insertModelParams` find out first: whether the key is
taken. -/
def check (env : Externals J) (db : Db J) (reply : QueryResult) : Request → Except Err Bool
  | .insertShares dataID _ pieceID _ _ => existPieceID env db reply dataID pieceID
  | .insertModelParams jobUUID _ => (count env db reply .job_uuid jobUUID).map fun cnt => 0 < cnt
  | _ => .ok false

/-- `EscapeInjection` with `Where`. -/
def escapeInjection (text : String) : String := (text.replace "'" "''").replace "\"" "\"\""

/-- `SELECT … ORDER BY meta(s).id LIMIT 1`, where `meta(s)` is read as the `meta()` of the
document. -/
def first (rows : List (Share J)) : List (Share J) :=
  (rows.mergeSort fun x y => x.id ≤ y.id).take 1

def getSchema (env : Externals J) (db : Db J) (reply : QueryResult) (dataID : String) :
    Outcome J :=
  match select reply (first (db.share.filter fun x => env.eq (escapeInjection dataID) x.data_id)) with
  | .error err => .error err
  | .ok [] => .error .noSchema
  | .ok (x :: _) => .schema x.info.schema

def getComputationResult (env : Externals J) (db : Db J) (reply : QueryResult)
    (jobUUID : String) : Outcome J :=
  match select reply (db.result.filter fun x => env.eq (escapeInjection jobUUID) x.job_uuid) with
  | .error err => .error err
  | .ok [result] => .computationResult result
  | .ok rows => .error (.notUnique rows.length)

/-- A statement whose result is not looked at, which leads from `db` to `db'`. -/
def execute (reply : QueryResult) (db db' : Db J) : Db J × Outcome J :=
  match reply with
  | .ok => (db', .ok)
  | .unavailable => (db, .ok)
  -- the gate executes a statement before it streams the result
  | .error executed message => (if executed then db' else db, .error (.query message))

/-- `deleteShares` up to its check that there are documents for all data ids. -/
def checkShares (env : Externals J) (db : Db J) (reply : QueryResult) (dataIDs : List String) :
    Except Err Unit :=
  match select reply (db.share.filter fun x => env.isIn dataIDs x.data_id) with
  | .error err => .error err
  | .ok res =>
    let cnt := dataIDs.countP fun v => res.any fun e => e.data_id = v
    if dataIDs.length ≠ cnt then .error .missing else .ok ()

/-! ### The steps of a call -/

/-- Where a call is. -/
inductive Phase (J : Type)
  | checkLock
  | checkQuery
  | checkUnlock (answer : Except Err Bool)
  /-- Takes the lock of its id at index `taken`. -/
  | lock (taken : ℕ) (answer : Except Err Bool)
  /-- Has taken all locks. -/
  | body (answer : Except Err Bool)
  /-- The second query of `deleteShares`. -/
  | delete
  /-- Releases the lock of its id at index `left`. -/
  | unlock (left : ℕ) (out : Outcome J)
  | returned (out : Outcome J)

def Phase.isReturned : Phase J → Bool
  | .returned _ => true
  | _ => false

structure Call (J : Type) where
  req : Request
  phase : Phase J

/-- On to the lock at index `taken`. -/
def locking (req : Request) (taken : ℕ) (answer : Except Err Bool) : Phase J :=
  if taken < req.ids.length then .lock taken answer else .body answer

/-- On to the deferred unlocks, when `held` locks are held. -/
def leave (held : ℕ) (out : Outcome J) : Phase J :=
  match held with
  | 0 => .returned out
  | left + 1 => .unlock left out

def begin (req : Request) : Phase J :=
  match req with
  | .insertShares _ _ _ _ _ | .insertModelParams _ _ => .checkLock
  | _ => locking req 0 (.ok false)

/-- After the first unlock. -/
def checked (req : Request) (answer : Except Err Bool) : Phase J :=
  match req, answer with
  | .insertShares _ _ _ _ _, .error err => .returned (.error err)
  | .insertShares dataID _ _ _ _, .ok true => .returned (.error (.duplicate dataID))
  | _, _ => locking req 0 answer

/-- `insertShares` after its second `Lock`. -/
def insertShares (env : Externals J) (db : Db J) (reply : QueryResult) (uuid dataID : String)
    (schema : List String) (pieceID : ℤ) (shares sent_at : String) : Db J × Outcome J :=
  match env.unmarshal shares with
  | .error message => (db, .error (.json message))
  | .ok shares_json =>
    let share : Share J := ⟨uuid, dataID, ⟨schema, pieceID⟩, shares_json, sent_at⟩
    execute reply db { db with share := db.share ++ [share] }

/-- `insertModelParams` after its second `Lock`. -/
def insertModelParams (env : Externals J) (db : Db J) (answer : Except Err Bool)
    (reply : QueryResult) (uuid jobUUID params : String) : Db J × Outcome J :=
  match answer with
  | .error err => (db, .error err)
  | .ok true => (db, .error (.duplicate jobUUID))
  | .ok false =>
    match env.unmarshal params with
    | .error message => (db, .error (.json message))
    | .ok paramsJSON =>
      let saveParams : ComputationResult J := ⟨uuid, jobUUID, 0, paramsJSON⟩
      execute reply db { db with result := db.result ++ [saveParams] }

/-- What a call does while it holds its locks, up to the second query of `deleteShares`. -/
def body (env : Externals J) (db : Db J) (answer : Except Err Bool) (reply : QueryResult)
    (uuid : String) (req : Request) : Db J × Phase J :=
  let left := req.ids.length
  match req with
  | .insertShares dataID schema pieceID shares sent_at =>
    (insertShares env db reply uuid dataID schema pieceID shares sent_at).map id (leave left)
  | .insertModelParams jobUUID params =>
    (insertModelParams env db answer reply uuid jobUUID params).map id (leave left)
  | .deleteShares dataIDs =>
    match checkShares env db reply dataIDs with
    | .error err => (db, leave left (.error err))
    | .ok () => (db, .delete)
  | .getSchema dataID => (db, leave left (getSchema env db reply dataID))
  | .count field id =>
    match count env db reply field id with
    | .error err => (db, leave left (.error err))
    | .ok cnt => (db, leave left (.count cnt))
  | .getComputationResult jobUUID => (db, leave left (getComputationResult env db reply jobUUID))

/-- The `DELETE` of `deleteShares`. -/
def deleteShares (env : Externals J) (db : Db J) (reply : QueryResult) (dataIDs : List String) :
    Db J × Outcome J :=
  execute reply db { db with share := db.share.filter fun x => !env.isIn dataIDs x.data_id }

structure State (J : Type) where
  ls : LockSet
  db : Db J
  calls : List (Call J)

/-- The container starts. -/
def start (db : Db J) : State J := ⟨.newLockSet, db, []⟩

inductive Action
  | call (req : Request)
  /-- The next step of the call `c`, with the answer to its query and the new key of an
  insertion. -/
  | next (c : ℕ) (reply : QueryResult) (uuid : String)

/-- The next step of a call: the locks, the database and the phase after it. -/
def advance (env : Externals J) (ls : LockSet) (db : Db J) (call : Call J) (reply : QueryResult)
    (uuid : String) : Option (LockSet × Db J × Phase J) :=
  let ids := call.req.ids
  match call.phase with
  | .checkLock => do
    let id ← ids[0]?
    let ls' ← ls.lock id
    return (ls', db, .checkQuery)
  | .checkQuery => some (ls, db, .checkUnlock (check env db reply call.req))
  | .checkUnlock answer => do
    let id ← ids[0]?
    return (ls.unlock id, db, checked call.req answer)
  | .lock taken answer => do
    let id ← ids[taken]?
    let ls' ← ls.lock id
    return (ls', db, locking call.req (taken + 1) answer)
  | .body answer => some (ls, body env db answer reply uuid call.req)
  | .delete =>
    some (ls, (deleteShares env db reply ids).map id (leave ids.length))
  | .unlock left out => do
    let id ← ids[left]?
    return (ls.unlock id, db, leave left out)
  | .returned _ => none

/-- One step of the container. -/
def step (env : Externals J) (s : State J) : Action → Option (State J)
  | .call req => some { s with calls := s.calls ++ [⟨req, begin req⟩] }
  | .next c reply uuid =>
    match s.calls[c]? with
    | none => none
    | some call =>
      (advance env s.ls s.db call reply uuid).map fun r =>
        ⟨r.1, r.2.1, s.calls.set c ⟨call.req, r.2.2⟩⟩

/-- A step of a call in a phase: the locks, the database and the phase after it. -/
inductive Advanced (env : Externals J) (ls : LockSet) (db : Db J) (req : Request)
    (reply : QueryResult) (uuid : String) : Phase J → LockSet → Db J → Phase J → Prop
  | checkLock {id : String} {ls' : LockSet} : req.ids[0]? = some id → ls.lock id = some ls' →
      Advanced env ls db req reply uuid .checkLock ls' db .checkQuery
  | checkQuery : Advanced env ls db req reply uuid .checkQuery ls db
      (.checkUnlock (check env db reply req))
  | checkUnlock {id : String} {answer : Except Err Bool} : req.ids[0]? = some id →
      Advanced env ls db req reply uuid (.checkUnlock answer) (ls.unlock id) db
        (checked req answer)
  | lock {id : String} {ls' : LockSet} {taken : ℕ} {answer : Except Err Bool} :
      req.ids[taken]? = some id → ls.lock id = some ls' →
      Advanced env ls db req reply uuid (.lock taken answer) ls' db
        (locking req (taken + 1) answer)
  | body {answer : Except Err Bool} : Advanced env ls db req reply uuid (.body answer) ls
      (body env db answer reply uuid req).1 (body env db answer reply uuid req).2
  | delete : Advanced env ls db req reply uuid .delete ls (deleteShares env db reply req.ids).1
      (leave req.ids.length (deleteShares env db reply req.ids).2)
  | unlock {id : String} {left : ℕ} {out : Outcome J} : req.ids[left]? = some id →
      Advanced env ls db req reply uuid (.unlock left out) (ls.unlock id) db (leave left out)

theorem advance_cases {env : Externals J} {ls ls' : LockSet} {db db' : Db J} {req : Request}
    {ph ph' : Phase J} {reply : QueryResult} {uuid : String}
    (h : advance env ls db ⟨req, ph⟩ reply uuid = some (ls', db', ph')) :
    Advanced env ls db req reply uuid ph ls' db' ph' := by
  cases ph with
  | checkLock =>
      simp only [advance, Option.bind_eq_bind, Option.bind_eq_some_iff, Option.pure_def,
        Option.some.injEq, Prod.mk.injEq] at h
      obtain ⟨id, hid, ls₁, hlock, rfl, rfl, rfl⟩ := h
      exact .checkLock hid hlock
  | checkQuery =>
      simp only [advance, Option.some.injEq, Prod.mk.injEq] at h
      obtain ⟨rfl, rfl, rfl⟩ := h
      exact .checkQuery
  | checkUnlock answer =>
      simp only [advance, Option.bind_eq_bind, Option.bind_eq_some_iff, Option.pure_def,
        Option.some.injEq, Prod.mk.injEq] at h
      obtain ⟨id, hid, rfl, rfl, rfl⟩ := h
      exact .checkUnlock hid
  | lock taken answer =>
      simp only [advance, Option.bind_eq_bind, Option.bind_eq_some_iff, Option.pure_def,
        Option.some.injEq, Prod.mk.injEq] at h
      obtain ⟨id, hid, ls₁, hlock, rfl, rfl, rfl⟩ := h
      exact .lock hid hlock
  | body answer =>
      simp only [advance, Option.some.injEq] at h
      obtain ⟨rfl, hbody⟩ := Prod.mk.inj h
      obtain ⟨rfl, rfl⟩ := Prod.ext_iff.mp hbody
      exact .body
  | delete =>
      simp only [advance, Option.some.injEq, Prod.mk.injEq] at h
      obtain ⟨rfl, rfl, rfl⟩ := h
      exact .delete
  | unlock left out =>
      simp only [advance, Option.bind_eq_bind, Option.bind_eq_some_iff, Option.pure_def,
        Option.some.injEq, Prod.mk.injEq] at h
      obtain ⟨id, hid, rfl, rfl, rfl⟩ := h
      exact .unlock hid
  | returned out => cases h

theorem next_eq_some {env : Externals J} {s s' : State J} {c : ℕ} {reply : QueryResult}
    {uuid : String} (hs : step env s (.next c reply uuid) = some s') :
    ∃ call ls' db' ph', s.calls[c]? = some call ∧
      Advanced env s.ls s.db call.req reply uuid call.phase ls' db' ph' ∧
      s' = ⟨ls', db', s.calls.set c ⟨call.req, ph'⟩⟩ := by
  simp only [step] at hs
  split at hs
  · cases hs
  · rename_i call hc
    obtain ⟨r, hr, rfl⟩ := Option.map_eq_some_iff.mp hs
    exact ⟨call, r.1, r.2.1, r.2.2, hc, advance_cases hr, rfl⟩

/-- A database that reads every id as it is written. -/
def plainDatabase : Externals String where
  unmarshal := .ok
  eq := fun id v => v = id
  isIn := fun ids v => v ∈ ids

end QuickMpc.DbGate
