import QuickMpc.DbGate.Client
import QuickMpc.Lib.ListSet
import QuickMpc.Lib.StepSystem

/-!
# QuickMpc.DbGate.UniqueKeys

`insertShares` and `insertModelParams` at the same time. A document has a key: its data
id and piece id in the bucket `share`, its job uuid in the bucket `result`.

The check for the key and the insertion are two critical sections under the lock of the
id, and other calls run between them. Under `careful` no call checks a key between the
check and the insertion of another call for this key; then the keys are unique
(`UniqueKeys`) and one of the calls for a new key succeeds.
-/

namespace QuickMpc.DbGate

open StepSystem
open Registration (QueryResult)

variable {J : Type}

/-! ### Keys -/

inductive Key
  | share (data_id : String) (piece_id : ℤ)
  | params (job_uuid : String)
  deriving DecidableEq, Repr

/-- The text that is put into the query. -/
def Key.id : Key → String
  | .share data_id _ => data_id
  | .params job_uuid => job_uuid

/-- What a call inserts. -/
def Request.key : Request → Option Key
  | .insertShares dataID _ pieceID _ _ => some (.share dataID pieceID)
  | .insertModelParams jobUUID _ => some (.params jobUUID)
  | _ => none

/-- How many documents have a key. -/
def docs (db : Db J) : Key → ℕ
  | .share data_id piece_id =>
    db.share.countP fun x => x.data_id = data_id ∧ x.info.piece_id = piece_id
  | .params job_uuid => db.result.countP fun x => x.job_uuid = job_uuid

/-- No character ends or changes the text between single quotes: neither the quote nor
the backslash. -/
def plain (id : String) : Bool := id.toList.all fun c => c.toNat ≠ 39 && c.toNat ≠ 92

/-- The database reads plain texts as they are written. -/
def Externals.ReadsPlain (env : Externals J) : Prop :=
  ∀ id, plain id = true → ∀ v, env.eq id v = decide (v = id)

def Err.isDuplicate : Err → Bool
  | .duplicate _ => true
  | _ => false

namespace Outcome

def isOk : Outcome J → Bool
  | ok => true
  | _ => false

def isDuplicate : Outcome J → Bool
  | error err => err.isDuplicate
  | _ => false

end Outcome

/-- The key has not been found. -/
def absent : Except Err Bool → Bool
  | .ok found => !found
  | .error _ => false

namespace Phase

/-- Has not found its key, and not inserted it yet. -/
def passed : Phase J → Bool
  | checkUnlock answer | lock _ answer | body answer => absent answer
  | _ => false

/-- Has inserted. -/
def inserted : Phase J → Bool
  | unlock _ out | returned out => out.isOk
  | _ => false

/-- Has returned without an error. -/
def succeeded : Phase J → Bool
  | returned out => out.isOk
  | _ => false

/-- Has returned because it has found its key. -/
def duplicated : Phase J → Bool
  | returned out => out.isDuplicate
  | _ => false

end Phase

/-- The calls for a key that have found it absent and not inserted it yet. -/
def inWindow (s : State J) (key : Key) : ℕ :=
  s.calls.countP fun call => call.req.key = some key ∧ call.phase.passed

/-- The calls that have inserted a key. -/
def insertions (s : State J) (key : Key) : ℕ :=
  s.calls.countP fun call => call.req.key = some key ∧ call.phase.inserted

/-- The calls for a key that have reported success. -/
def successes (s : State J) (key : Key) : ℕ :=
  s.calls.countP fun call => call.req.key = some key ∧ call.phase.succeeded

/-- A statement was executed exactly if no error is reported. -/
def settles : QueryResult → Bool
  | .ok | .error false _ => true
  | .unavailable | .error true _ => false

/-- The calls are insertions of plain ids, or only read. A call checks its key when no
other call is between its own check and its insertion, and the number of documents fits
into an `int32`; when it inserts, the stream can be opened, and an `INSERT` that is answered
with an error was not executed. -/
def careful (s : State J) : Action → Bool
  | .call (.deleteShares _) => false
  | .call req => req.key.all fun key => plain key.id
  | .next c reply _ =>
    match s.calls[c]? with
    | none => true
    | some call =>
      match call.phase with
      | .checkQuery =>
        call.req.key.all fun key => inWindow s key = 0 && docs s.db key < 2 ^ 31
      | .body _ => call.req.key.isNone || settles reply
      | _ => true

/-- What insertions preserve from the database `db` on. -/
structure UniqueKeys (db : Db J) (s : State J) : Prop where
  shares : ∀ data_id piece_id, docs s.db (.share data_id piece_id) ≤ 1
  params : ∀ job_uuid, docs s.db (.params job_uuid) ≤ max 1 (docs db (.params job_uuid))
  /-- Nothing is inserted for a key with documents. -/
  taken : ∀ key, docs db key ≠ 0 → successes s key = 0
  /-- When all calls for a new key have returned, and not all of them because of some
  other error, exactly one has reported success. -/
  one : ∀ key, docs db key = 0 →
    (∀ call ∈ s.calls, call.req.key = some key → call.phase.isReturned = true) →
    (∃ call ∈ s.calls, call.req.key = some key ∧
      (call.phase.succeeded = true ∨ call.phase.duplicated = true)) → successes s key = 1

/-! ### The check -/

theorem int32_of_lt {k : ℕ} (hk : k < 2 ^ 31) : int32 k = k := by
  unfold int32
  rw [Int.bmod_def]
  split
  · exact Int.emod_eq_of_lt (Int.natCast_nonneg k) (by omega)
  · rename_i hge
    omega

/-- What the check of a call finds out. -/
theorem check_spec {env : Externals J} (henv : env.ReadsPlain) {db : Db J} (reply : QueryResult)
    {req : Request} {key : Key} (hkey : req.key = some key) (hid : plain key.id = true)
    (hfew : docs db key < 2 ^ 31) :
    (check env db reply req = .ok false → docs db key = 0) ∧
      (check env db reply req = .ok true → 0 < docs db key) ∧
      ∀ id, check env db reply req ≠ .error (.duplicate id) := by
  cases req with
  | insertShares dataID schema pieceID shares sent_at =>
      obtain rfl := Option.some.inj hkey
      have hany : ((db.share.filter fun x => env.eq dataID x.data_id).any fun r =>
          r.info.piece_id = pieceID) = decide (0 < docs db (.share dataID pieceID)) := by
        rw [Bool.eq_iff_iff, decide_eq_true_iff, docs, List.countP_pos_iff, List.any_eq_true]
        simp only [List.mem_filter, henv dataID hid, decide_eq_true_iff, and_assoc]
      simp only [check, existPieceID, hany]
      cases reply with
      | ok => simp
      | unavailable => simp
      | error executed message => simp
  | insertModelParams jobUUID params =>
      obtain rfl := Option.some.inj hkey
      have hrows : (db.result.filter fun x => env.eq jobUUID x.job_uuid).length
          = docs db (.params jobUUID) := by
        rw [← List.countP_eq_length_filter]
        exact List.countP_congr fun x _ => by rw [henv jobUUID hid]
      cases reply with
      | ok =>
          simp only [check, count, select, Except.map, hrows, int32_of_lt hfew]
          simp
      | unavailable => simp [check, count, select, Except.map]
      | error executed message => simp [check, count, select, Except.map]
  | _ => cases hkey

/-! ### What a step does to the keys -/

/-- The key has been found. -/
def refusal : Except Err Bool → Bool
  | .ok found => found
  | .error err => err.isDuplicate

theorem eq_ok_false_of_absent {answer : Except Err Bool} (h : absent answer = true) :
    answer = .ok false := by
  cases answer with
  | error err => cases h
  | ok found =>
      cases found with
      | true => cases h
      | false => rfl

theorem refusal_cases {answer : Except Err Bool} (h : refusal answer = true) :
    answer = .ok true ∨ ∃ id, answer = .error (.duplicate id) := by
  cases answer with
  | ok found => exact .inl (congrArg Except.ok h)
  | error err =>
      cases err with
      | duplicate id => exact .inr ⟨id, rfl⟩
      | _ => cases h

/-- Has found its key. -/
def Phase.refused : Phase J → Bool
  | checkUnlock answer | lock _ answer | body answer => refusal answer
  | unlock _ out | returned out => out.isDuplicate
  | _ => false

/-- The call deletes nothing, and `insertShares` goes on only without its key. -/
def Sound (call : Call J) : Prop :=
  match call.req, call.phase with
  | .deleteShares _, _ | _, .delete => False
  | .insertShares _ _ _ _ _, .lock _ answer | .insertShares _ _ _ _ _, .body answer =>
    answer = .ok false
  | _, _ => True

/-- What a step of a call for a key does to the documents and to its place. -/
inductive Effect (env : Externals J) (db : Db J) (reply : QueryResult) (call : Call J) (key : Key) :
    Db J → Phase J → Prop
  | check : call.phase = .checkQuery →
      Effect env db reply call key db (.checkUnlock (check env db reply call.req))
  | insert {db' : Db J} {ph' : Phase J} : call.phase.passed = true → call.phase.inserted = false →
      (∀ key', docs db' key' = docs db key' + if key' = key then 1 else 0) →
      ph'.passed = false → ph'.inserted = true → ph'.refused = false →
      Effect env db reply call key db' ph'
  | keep {ph' : Phase J} : (ph'.passed = true → call.phase.passed = true) →
      ph'.inserted = call.phase.inserted → (ph'.refused = true → call.phase.refused = true) →
      Effect env db reply call key db ph'

theorem docs_insertShare (db : Db J) (x : Share J) (key : Key) :
    docs { db with share := db.share ++ [x] } key
      = docs db key + if key = .share x.data_id x.info.piece_id then 1 else 0 := by
  cases key with
  | share data_id piece_id =>
      rw [docs, docs, List.countP_append, List.countP_singleton]
      simp only [decide_eq_true_iff, Key.share.injEq, @eq_comm _ data_id, @eq_comm _ piece_id]
  | params job_uuid => simp only [docs, reduceCtorEq, if_false, Nat.add_zero]

theorem docs_insertParams (db : Db J) (x : ComputationResult J) (key : Key) :
    docs { db with result := db.result ++ [x] } key
      = docs db key + if key = .params x.job_uuid then 1 else 0 := by
  cases key with
  | share data_id piece_id => simp only [docs, reduceCtorEq, if_false, Nat.add_zero]
  | params job_uuid =>
      rw [docs, docs, List.countP_append, List.countP_singleton]
      simp only [decide_eq_true_iff, Key.params.injEq, @eq_comm _ job_uuid]

theorem sound_elsewhere {req : Request} {key : Key} (hkey : req.key = some key) {ph : Phase J}
    (hph : match ph with | .lock _ _ | .body _ | .delete => False | _ => True) :
    Sound ⟨req, ph⟩ := by
  cases req with
  | insertShares _ _ _ _ _ => cases ph <;> trivial
  | insertModelParams _ _ => cases ph <;> trivial
  | _ => cases hkey

/-- The `INSERT` of a call. -/
theorem effect_execute {env : Externals J} {db db' : Db J} {reply : QueryResult} {call : Call J}
    {key : Key} (hpassed : call.phase.passed = true) (hinserted : call.phase.inserted = false)
    (hsettles : settles reply = true)
    (hdocs : ∀ key', docs db' key' = docs db key' + if key' = key then 1 else 0) :
    Effect env db reply call key (execute reply db db').1 (.unlock 0 (execute reply db db').2) := by
  cases reply with
  | ok => exact .insert hpassed hinserted hdocs rfl rfl rfl
  | unavailable => cases hsettles
  | error executed message =>
      cases executed with
      | true => cases hsettles
      | false => exact .keep (fun h => by cases h) hinserted.symm fun h => by cases h

theorem effect_body (env : Externals J) (db : Db J) (uuid : String) {req : Request}
    {answer : Except Err Bool} {reply : QueryResult} {key : Key}
    (hsound : Sound (J := J) ⟨req, .body answer⟩) (hkey : req.key = some key)
    (hsettles : settles reply = true) :
    Sound ⟨req, (body env db answer reply uuid req).2⟩ ∧
      Effect env db reply ⟨req, .body answer⟩ key (body env db answer reply uuid req).1
        (body env db answer reply uuid req).2 := by
  cases req with
  | insertShares dataID schema pieceID shares sent_at =>
      obtain rfl := Option.some.inj hkey
      obtain rfl : answer = .ok false := hsound
      refine ⟨trivial, ?_⟩
      simp only [body, insertShares, Prod.map]
      cases env.unmarshal shares with
      | error message => exact .keep (fun h => by cases h) rfl fun h => by cases h
      | ok shares_json => exact effect_execute rfl rfl hsettles (docs_insertShare db _)
  | insertModelParams jobUUID params =>
      obtain rfl := Option.some.inj hkey
      refine ⟨trivial, ?_⟩
      simp only [body, insertModelParams, Prod.map]
      cases answer with
      | error err => exact .keep (fun h => by cases h) rfl id
      | ok found =>
          cases found with
          | true => exact .keep (fun h => by cases h) rfl fun _ => rfl
          | false =>
              cases env.unmarshal params with
              | error message => exact .keep (fun h => by cases h) rfl fun h => by cases h
              | ok paramsJSON => exact effect_execute rfl rfl hsettles (docs_insertParams db _)
  | _ => cases hkey

theorem advance_effect {env : Externals J} {ls ls' : LockSet} {db db' : Db J} {req : Request}
    {reply : QueryResult} {uuid : String} {ph ph' : Phase J} {key : Key} (hsound : Sound ⟨req, ph⟩)
    (hkey : req.key = some key) (hsettles : ∀ answer, ph = .body answer → settles reply = true)
    (h : Advanced env ls db req reply uuid ph ls' db' ph') :
    Sound ⟨req, ph'⟩ ∧ Effect env db reply ⟨req, ph⟩ key db' ph' := by
  cases h with
  | checkLock _ _ =>
      exact ⟨sound_elsewhere hkey trivial, .keep (fun h => by cases h) rfl fun h => by cases h⟩
  | checkQuery => exact ⟨sound_elsewhere hkey trivial, .check rfl⟩
  | @checkUnlock id answer _ =>
      cases req with
      | insertShares _ _ _ _ _ =>
          cases answer with
          | error err => exact ⟨trivial, .keep (fun h => by cases h) rfl fun h => h⟩
          | ok found =>
              cases found with
              | true => exact ⟨trivial, .keep (fun h => by cases h) rfl fun _ => rfl⟩
              | false => exact ⟨rfl, .keep (fun _ => rfl) rfl fun h => h⟩
      | insertModelParams _ _ => exact ⟨trivial, .keep (fun h => h) rfl fun h => h⟩
      | _ => cases hkey
  | @lock id ls' taken answer _ _ =>
      have hgoesOn : Sound (J := J) ⟨req, .lock (taken + 1) answer⟩ ∧
          Sound (J := J) ⟨req, .body answer⟩ := by
        cases req with
        | insertShares _ _ _ _ _ => exact ⟨hsound, hsound⟩
        | insertModelParams _ _ => exact ⟨trivial, trivial⟩
        | _ => cases hkey
      unfold locking
      split
      · exact ⟨hgoesOn.1, .keep (fun h => h) rfl fun h => h⟩
      · exact ⟨hgoesOn.2, .keep (fun h => h) rfl fun h => h⟩
  | @body answer => exact effect_body env db uuid hsound hkey (hsettles answer rfl)
  | delete => cases req <;> cases hsound
  | @unlock id left out _ =>
      cases left with
      | zero => exact ⟨sound_elsewhere hkey trivial, .keep (fun h => by cases h) rfl fun h => h⟩
      | succ left =>
          exact ⟨sound_elsewhere hkey trivial, .keep (fun h => by cases h) rfl fun h => h⟩

theorem sound_of_reads {req : Request} (hkey : req.key = none)
    (hreq : ∀ ids, req ≠ .deleteShares ids) {ph : Phase J} (hph : ph ≠ .delete) :
    Sound ⟨req, ph⟩ := by
  cases req with
  | deleteShares ids => exact absurd rfl (hreq ids)
  | insertShares _ _ _ _ _ => cases hkey
  | insertModelParams _ _ => cases hkey
  | _ =>
      cases ph with
      | delete => exact absurd rfl hph
      | _ => trivial

theorem leave_ne_delete (left : ℕ) (out : Outcome J) : leave left out ≠ .delete := by
  cases left <;> simp [leave]

theorem locking_ne_delete (req : Request) (taken : ℕ) (answer : Except Err Bool) :
    (locking req taken answer : Phase J) ≠ .delete := by
  unfold locking
  split <;> simp

/-- A call without a key only reads. -/
theorem body_reads (env : Externals J) (db : Db J) (answer : Except Err Bool) (reply : QueryResult)
    (uuid : String) {req : Request} (hkey : req.key = none)
    (hreq : ∀ ids, req ≠ .deleteShares ids) :
    (body env db answer reply uuid req).2 ≠ .delete ∧
      (body env db answer reply uuid req).1 = db := by
  cases req with
  | deleteShares ids => exact absurd rfl (hreq ids)
  | insertShares _ _ _ _ _ => cases hkey
  | insertModelParams _ _ => cases hkey
  | getSchema dataID =>
      show leave 1 (getSchema env db reply dataID) ≠ .delete ∧ db = db
      exact ⟨leave_ne_delete _ _, rfl⟩
  | getComputationResult jobUUID =>
      show leave 1 (getComputationResult env db reply jobUUID) ≠ .delete ∧ db = db
      exact ⟨leave_ne_delete _ _, rfl⟩
  | count field id =>
      simp only [body]
      split
      · rename_i err _
        show leave 1 (.error err) ≠ .delete ∧ db = db
        exact ⟨leave_ne_delete _ _, rfl⟩
      · rename_i cnt _
        show leave 1 (.count cnt) ≠ .delete ∧ db = db
        exact ⟨leave_ne_delete _ _, rfl⟩

theorem advance_reads {env : Externals J} {ls ls' : LockSet} {db db' : Db J} {req : Request}
    {reply : QueryResult} {uuid : String} {ph ph' : Phase J} (hsound : Sound ⟨req, ph⟩)
    (hkey : req.key = none) (h : Advanced env ls db req reply uuid ph ls' db' ph') :
    Sound ⟨req, ph'⟩ ∧ db' = db := by
  have hreq : ∀ ids, req ≠ .deleteShares ids := by
    intro ids hids
    subst hids
    cases ph <;> exact hsound
  suffices hph : ph' ≠ .delete ∧ db' = db from ⟨sound_of_reads hkey hreq hph.1, hph.2⟩
  cases h with
  | checkLock _ _ => exact ⟨by simp, rfl⟩
  | checkQuery => exact ⟨by simp, rfl⟩
  | checkUnlock _ =>
      refine ⟨?_, rfl⟩
      unfold checked
      split
      · simp
      · simp
      · exact locking_ne_delete _ _ _
  | lock _ _ => exact ⟨locking_ne_delete _ _ _, rfl⟩
  | body => exact body_reads env db _ reply uuid hkey hreq
  | delete => cases req <;> cases hsound
  | unlock _ => exact ⟨leave_ne_delete _ _, rfl⟩

/-! ### The invariant -/

/-- What careful steps preserve. -/
structure Guarded (db : Db J) (s : State J) : Prop where
  sound : ∀ call ∈ s.calls, Sound call
  plainIds : ∀ call ∈ s.calls, ∀ key, call.req.key = some key → plain key.id = true
  balance : ∀ key, docs s.db key = docs db key + insertions s key
  /-- At most one call is about to insert, and only a new key. -/
  bound : ∀ key, docs s.db key + inWindow s key ≤ max 1 (docs db key)
  found : ∀ call ∈ s.calls, ∀ key, call.req.key = some key → call.phase.refused = true →
    0 < docs s.db key

theorem Guarded.start (db : Db J) : Guarded db (start db) where
  sound := fun call hcall => by cases hcall
  plainIds := fun call hcall => by cases hcall
  balance := fun key => rfl
  bound := fun key => Nat.le_max_right _ _
  found := fun call hcall => by cases hcall

theorem Guarded.call {db : Db J} {env : Externals J} {s s' : State J} (h : Guarded db s)
    {req : Request} (hok : careful s (.call req) = true) (hs : step env s (.call req) = some s') :
    Guarded db s' := by
  obtain rfl := Option.some.inj hs
  have hbegin : Sound (J := J) ⟨req, begin req⟩ ∧ (begin req : Phase J).refused = false ∧
      ∀ key, req.key = some key → (begin req : Phase J).passed = false ∧
        (begin req : Phase J).inserted = false := by
    cases req with
    | deleteShares ids => cases hok
    | insertShares _ _ _ _ _ => exact ⟨trivial, rfl, fun _ _ => ⟨rfl, rfl⟩⟩
    | insertModelParams _ _ => exact ⟨trivial, rfl, fun _ _ => ⟨rfl, rfl⟩⟩
    | _ => exact ⟨trivial, rfl, fun _ hkey => by cases hkey⟩
  obtain ⟨hsound, hrefused, hnew⟩ := hbegin
  have hcounts : ∀ key, inWindow (⟨s.ls, s.db, s.calls ++ [⟨req, begin req⟩]⟩ : State J) key
      = inWindow s key ∧
      insertions (⟨s.ls, s.db, s.calls ++ [⟨req, begin req⟩]⟩ : State J) key = insertions s key := by
    intro key
    have hone : ¬ (req.key = some key ∧ (begin req : Phase J).passed = true) ∧
        ¬ (req.key = some key ∧ (begin req : Phase J).inserted = true) := by
      refine ⟨fun hboth => ?_, fun hboth => ?_⟩
      · exact absurd hboth.2 (by simp [(hnew key hboth.1).1])
      · exact absurd hboth.2 (by simp [(hnew key hboth.1).2])
    simp [inWindow, insertions, List.countP_append, hone.1, hone.2]
  refine ⟨fun call hcall => ?_, fun call hcall => ?_, fun key => ?_, fun key => ?_,
    fun call hcall => ?_⟩
  · rcases List.mem_append.mp hcall with hold | hlast
    · exact h.sound call hold
    · rw [List.mem_singleton.mp hlast]
      exact hsound
  · rcases List.mem_append.mp hcall with hold | hlast
    · exact h.plainIds call hold
    · rw [List.mem_singleton.mp hlast]
      intro key hkey
      cases req with
      | deleteShares ids => cases hok
      | insertShares _ _ _ _ _ =>
          obtain rfl := Option.some.inj hkey
          exact hok
      | insertModelParams _ _ =>
          obtain rfl := Option.some.inj hkey
          exact hok
      | _ => cases hkey
  · exact (h.balance key).trans (congrArg _ (hcounts key).2.symm)
  · exact (hcounts key).1.symm ▸ h.bound key
  · rcases List.mem_append.mp hcall with hold | hlast
    · exact h.found call hold
    · rw [List.mem_singleton.mp hlast, hrefused]
      intro key _ hfalse
      cases hfalse

/-- A call takes a step. -/
theorem Guarded.set {db db' : Db J} {s : State J} (h : Guarded db s) {c : ℕ} {call : Call J}
    (hc : s.calls[c]? = some call) {ls' : LockSet} {ph' : Phase J} (hsound : Sound ⟨call.req, ph'⟩)
    (hdocs : ∀ key, docs db' key
        + (if call.req.key = some key ∧ call.phase.inserted = true then 1 else 0)
      = docs s.db key + if call.req.key = some key ∧ ph'.inserted = true then 1 else 0)
    (hmore : ∀ key, docs s.db key ≤ docs db' key)
    (hwindow : ∀ key, docs db' key + inWindow s key
        + (if call.req.key = some key ∧ ph'.passed = true then 1 else 0)
      ≤ max 1 (docs db key)
        + if call.req.key = some key ∧ call.phase.passed = true then 1 else 0)
    (hfound : ∀ key, call.req.key = some key → ph'.refused = true → 0 < docs db' key) :
    Guarded db ⟨ls', db', s.calls.set c ⟨call.req, ph'⟩⟩ where
  sound := fun call' hcall' => by
    rcases List.mem_or_eq_of_mem_set hcall' with hold | hnew
    · exact h.sound call' hold
    · exact hnew ▸ hsound
  plainIds := fun call' hcall' key hkey => by
    rcases List.mem_or_eq_of_mem_set hcall' with hold | hnew
    · exact h.plainIds call' hold key hkey
    · rw [hnew] at hkey
      exact h.plainIds call (List.mem_of_getElem? hc) key hkey
  balance := fun key => by
    have hcount := ListSet.countP_set_add
      (fun call => call.req.key = some key ∧ call.phase.inserted) hc ⟨call.req, ph'⟩
    have hold := h.balance key
    have hnew := hdocs key
    simp only [decide_eq_true_iff] at hcount
    simp only [insertions] at hold ⊢
    omega
  bound := fun key => by
    have hcount := ListSet.countP_set_add
      (fun call => call.req.key = some key ∧ call.phase.passed) hc ⟨call.req, ph'⟩
    have hnew := hwindow key
    simp only [decide_eq_true_iff] at hcount
    simp only [inWindow] at hnew ⊢
    omega
  found := fun call' hcall' key hkey hrefused => by
    rcases List.mem_or_eq_of_mem_set hcall' with hold | hnew
    · exact (h.found call' hold key hkey hrefused).trans_le (hmore key)
    · rw [hnew] at hkey hrefused
      exact hfound key hkey hrefused

theorem Guarded.next {db : Db J} {env : Externals J} (henv : env.ReadsPlain) {s s' : State J}
    (h : Guarded db s) {c : ℕ} {reply : QueryResult} {uuid : String}
    (hok : careful s (.next c reply uuid) = true)
    (hs : step env s (.next c reply uuid) = some s') : Guarded db s' := by
  obtain ⟨call, ls', db', ph', hc, hadvance, rfl⟩ := next_eq_some hs
  have hmem := List.mem_of_getElem? hc
  have hbound := h.bound
  cases hkey : call.req.key with
  | none =>
      obtain ⟨hsound, rfl⟩ := advance_reads (h.sound call hmem) hkey hadvance
      refine h.set hc hsound (fun key => ?_) (fun key => le_rfl) (fun key => ?_) fun key hkey' => ?_
      · simp [hkey]
      · simpa [hkey] using hbound key
      · rw [hkey] at hkey'
        cases hkey'
  | some key =>
      have hsettles : ∀ answer, call.phase = .body answer → settles reply = true := by
        intro answer hphase
        simp only [careful, hc, hphase, hkey] at hok
        simpa using hok
      obtain ⟨hsound, heffect⟩ := advance_effect (h.sound call hmem) hkey hsettles hadvance
      cases heffect with
      | check hcheckQuery =>
          have hphase : call.phase = .checkQuery := hcheckQuery
          have hcheck : inWindow s key = 0 ∧ docs s.db key < 2 ^ 31 := by
            simp only [careful, hc, hphase, hkey] at hok
            simpa using hok
          obtain ⟨habsent, htaken, hnoDuplicate⟩ :=
            check_spec henv reply hkey (h.plainIds call hmem key hkey) hcheck.2
          refine h.set hc hsound (fun key' => ?_) (fun key' => le_rfl) (fun key' => ?_)
            fun key' hkey' hrefused => ?_
          · simp [hphase, Phase.inserted]
          · have hold := hbound key'
            by_cases hnew : call.req.key = some key' ∧
                (Phase.checkUnlock (check env s.db reply call.req) : Phase J).passed = true
            · -- the key is new, and no other call is about to insert it
              obtain rfl : key = key' := Option.some.inj (hkey.symm.trans hnew.1)
              have hnone := habsent (eq_ok_false_of_absent hnew.2)
              rw [if_pos hnew, hnone, hcheck.1]
              omega
            · rw [if_neg hnew]
              omega
          · obtain rfl : key = key' := Option.some.inj (hkey.symm.trans hkey')
            rcases refusal_cases hrefused with hyes | ⟨id, herr⟩
            · exact htaken hyes
            · exact absurd herr (hnoDuplicate id)
      | insert hpassed hinserted hdocs hpassed' hinserted' hrefused' =>
          refine h.set hc hsound (fun key' => ?_) (fun key' => ?_) (fun key' => ?_)
            fun key' hkey' hrefused => ?_
          · rw [hdocs key', hinserted, hinserted', hkey]
            simp [eq_comm]
          · rw [hdocs key']
            exact Nat.le_add_right _ _
          · have hold := hbound key'
            rw [hdocs key', hpassed, hpassed', hkey]
            by_cases hk : key' = key
            · simp only [hk, if_true, and_true, Bool.false_eq_true, and_false, if_false] at hold ⊢
              omega
            · simp only [hk, Ne.symm hk, Option.some.injEq, false_and, if_false] at hold ⊢
              omega
          · rw [hrefused'] at hrefused
            cases hrefused
      | keep hpassed hinserted hrefused =>
          refine h.set hc hsound (fun key' => by rw [hinserted]) (fun key' => le_rfl)
            (fun key' => ?_)
            fun key' hkey' hrefused' => h.found call hmem key' hkey' (hrefused hrefused')
          have hold := hbound key'
          by_cases hnew : call.req.key = some key' ∧ ph'.passed = true
          · rw [if_pos hnew, if_pos ⟨hnew.1, hpassed hnew.2⟩]
            omega
          · rw [if_neg hnew]
            omega

/-! ### Unique keys -/

theorem successes_le (s : State J) (key : Key) : successes s key ≤ insertions s key := by
  refine List.countP_mono_left fun call _ hcall => ?_
  obtain ⟨hkey, hsucceeded⟩ := of_decide_eq_true hcall
  refine decide_eq_true ⟨hkey, ?_⟩
  cases hphase : call.phase with
  | returned out => rwa [hphase] at hsucceeded
  | _ =>
      rw [hphase] at hsucceeded
      cases hsucceeded

theorem Guarded.uniqueKeys {db : Db J} {s : State J} (h : Guarded db s)
    (hdb : ∀ data_id piece_id, docs db (.share data_id piece_id) ≤ 1) : UniqueKeys db s where
  shares := fun data_id piece_id => by
    have hbound := h.bound (.share data_id piece_id)
    have hold := hdb data_id piece_id
    omega
  params := fun job_uuid => by
    have hbound := h.bound (.params job_uuid)
    omega
  taken := fun key hkey => by
    have hbound := h.bound key
    have hbalance := h.balance key
    have hle := successes_le s key
    omega
  one := fun key hnew hreturned hsome => by
    have hbound := h.bound key
    have hbalance := h.balance key
    -- a call that has inserted has returned, and so has reported success
    have hsame : successes s key = insertions s key := by
      refine List.countP_congr fun call hcall => ?_
      rw [decide_eq_true_iff, decide_eq_true_iff]
      refine and_congr_right fun hkey => ?_
      have hout := hreturned call hcall hkey
      cases hphase : call.phase with
      | returned out => exact Iff.rfl
      | _ =>
          rw [hphase] at hout
          cases hout
    obtain ⟨call, hcall, hkey, hout⟩ := hsome
    have hpos : 0 < insertions s key := by
      rcases hout with hsucceeded | hduplicated
      · rw [← hsame]
        exact List.countP_pos_iff.mpr ⟨call, hcall, decide_eq_true ⟨hkey, hsucceeded⟩⟩
      · have hrefused : call.phase.refused = true := by
          cases hphase : call.phase with
          | returned out => rwa [hphase] at hduplicated
          | _ =>
              rw [hphase] at hduplicated
              cases hduplicated
        have hfound := h.found call hcall key hkey hrefused
        omega
    omega

/-- **Unique keys**, in every run of insertions and reading calls in which no call checks a key
while another call is about to insert it, and no `INSERT` is executed and reported as an error:
a key never gets a second document, and of the calls for a new key exactly one reports success,
unless all of them report other errors. -/
theorem keys_unique {env : Externals J} (henv : env.ReadsPlain) {db : Db J}
    (hdb : ∀ data_id piece_id, docs db (.share data_id piece_id) ≤ 1) {s : State J}
    (h : Reach (step env) (fun s a => careful s a = true) (start db) s) : UniqueKeys db s := by
  have hguarded : Guarded db s := by
    refine h.invariant (.start db) fun s a s' hs hok hstep => ?_
    cases a with
    | call req => exact hs.call hok hstep
    | next c reply uuid => exact hs.next henv hok hstep
  exact hguarded.uniqueKeys hdb

/-- `k` steps of the call `c`. -/
def steps (c k : ℕ) : List Action := List.replicate k (.next c .ok "")

/-- Two calls for one piece. The second one comes while the first one inserts, and
checks after it. -/
theorem keys_unique_two : ∃ s : State String,
    (s.calls.all fun call => call.phase.isReturned) = true ∧ successes s (.share "a" 1) = 1 ∧
      UniqueKeys ⟨[], []⟩ s := by
  let request : Request := .insertShares "a" [] 1 "[]" ""
  let run : List Action := [.call request] ++ steps 0 3 ++ [.call request] ++ steps 0 3 ++ steps 1 3
  have hrun : (exec (restrict (step plainDatabase) fun s a => careful s a = true) run
      (start ⟨[], []⟩)).map (fun s : State String =>
        (s.calls.all fun call => call.phase.isReturned, successes s (.share "a" 1)))
      = some (true, 1) := by decide
  obtain ⟨s, hs, hparts⟩ := Option.map_eq_some_iff.mp hrun
  obtain ⟨hreturned, hsuccesses⟩ := Prod.mk.inj hparts
  refine ⟨s, hreturned, hsuccesses, keys_unique ?_ ?_ (Reach.exec_restrict run .refl hs)⟩
  · exact fun id _ v => rfl
  · exact fun data_id piece_id => Nat.zero_le 1

/-- Two calls for one piece that both check before one of them inserts. -/
theorem keys_not_unique : ∃ s : State String,
    Reach (step plainDatabase) (fun _ _ => True) (start ⟨[], []⟩) s ∧ ¬ UniqueKeys ⟨[], []⟩ s := by
  let request : Request := .insertShares "a" [] 1 "[]" ""
  let run : List Action :=
    [.call request, .call request] ++ steps 0 3 ++ steps 1 3 ++ steps 0 3 ++ steps 1 3
  have hrun : (exec (step plainDatabase) run (start ⟨[], []⟩)).map
      (fun s : State String => docs s.db (.share "a" 1)) = some 2 := by decide
  obtain ⟨s, hs, hdocs⟩ := Option.map_eq_some_iff.mp hrun
  refine ⟨s, .of_exec hs, fun hunique => ?_⟩
  have hone := hunique.shares "a" 1
  omega

end QuickMpc.DbGate
