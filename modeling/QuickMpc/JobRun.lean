import QuickMpc.FixedPoint

/-!
# QuickMpc.JobRun

How a failed job and a failed prediction are reported.

A run reads the joined table, computes and writes, and moves its status on before and
after each; what goes wrong inside is caught, and the status it got to is returned. Three
layers follow: the handlers of `JobBase::run` and `ModelBase::run`, `ModelManager::push`,
and `Server::Predict`, which turns the status into a gRPC status by numbers of its own.
What a run calls is a parameter (`Env`), and may throw at any call; `RaisedAt` lists the
points.

`failures_reported_iff` says which failures are reported.
-/

namespace QuickMpc.JobRun

/-! ### Model -/

/-- `pb_common_types::JobStatus`. -/
inductive JobStatus
  | UNKNOWN
  | PRE_JOB
  | READ_DB
  | COMPUTE
  | WRITE_DB
  | COMPLETED
  deriving DecidableEq, Repr

/-- The number of a status in the enumeration. -/
def JobStatus.number : JobStatus → ℕ
  | .UNKNOWN => 0
  | .PRE_JOB => 1
  | .READ_DB => 2
  | .COMPUTE => 3
  | .WRITE_DB => 4
  | .COMPLETED => 5

/-- The values of the enumeration in the order of the descriptor. -/
def descriptor : List JobStatus :=
  [.UNKNOWN, .PRE_JOB, .READ_DB, .COMPUTE, .WRITE_DB, .COMPLETED]

/-- What `catch` clauses tell apart. -/
inductive ThrownType
  /-- `std::runtime_error`, or derived from it. -/
  | runtime_error
  /-- Any other `std::exception`. -/
  | exception
  /-- Not a `std::exception`, such as the text that `CSPRNG::GetRand` throws. -/
  | other
  deriving DecidableEq, Repr

/-- What is thrown; `traced` is the trace that `throw_with_trace` attaches. -/
structure Thrown where
  type : ThrownType
  what : String
  traced : Option String
  deriving DecidableEq, Repr

structure JoinOrder where
  dataIds : List String
  join : List ℤ
  index : List ℤ
  deriving DecidableEq, Repr

/-- A joined table: its texts, and its column names. The joins of stored tables make rows
as wide as the names. -/
structure JoinTable where
  table : List (List String)
  schemas : List String
  rectangular : ∀ row ∈ table, row.length = schemas.length

abbrev ShareTable := List (List FixedPoint)

structure ExecuteComputationRequest where
  job_uuid : String
  table : JoinOrder
  src : List ℤ
  target : List ℤ

structure PredictRequest where
  job_uuid : String
  model_param_job_uuid : String
  model_id : ℤ
  table : JoinOrder
  src : List ℤ

/-- What a run calls: the client of the database, and the reading of a text. -/
structure Env (R : Type) where
  registerJob : String → ℕ → Except Thrown Unit
  updateJobStatus : String → ℕ → Except Thrown Unit
  readTable : JoinOrder → Except Thrown JoinTable
  parse : String → Except Thrown FixedPoint
  writeComputationResult : String → R → Except Thrown Unit

structure StatusManager where
  job_uuid : Option String
  status : JobStatus
  deriving DecidableEq, Repr

/-- How a call ends other than by returning. -/
inductive Fault
  | raised (e : Thrown)
  /-- A row is accessed that does not exist, which is undefined in C++. -/
  | outOfRange

/-- A call that uses the status manager. -/
abbrev Managed := EStateM Fault StatusManager

variable {R α β : Type}

/-- A call to the outside. -/
def call (x : Except Thrown α) : Managed α := fun manager =>
  match x with
  | .ok a => .ok a manager
  | .error e => .error (.raised e) manager

section Calls

variable (env : Env R)

/-- `job_uuid.value()`. -/
def value (job_uuid : Option String) : Except Thrown String :=
  match job_uuid with
  | some job_uuid => .ok job_uuid
  | none => .error ⟨.exception, "bad optional access", none⟩

/-- `StatusManager::initJobID`. -/
def initJobID (job_uuid : String) : Managed Unit := do
  let manager ← get
  if manager.job_uuid.isSome then
    call (.error ⟨.exception, "JobStatusError: JobUUID is already initialized", some "initJobID"⟩)
  set (⟨some job_uuid, .PRE_JOB⟩ : StatusManager)
  call (env.registerJob job_uuid JobStatus.PRE_JOB.number)

/-- `StatusManager::nextStatus`. -/
def nextStatus : Managed Unit := do
  let manager ← get
  let next_index := descriptor.idxOf manager.status + 1
  match descriptor[next_index]? with
  | none =>
    let value_count := descriptor.length
    call (.error ⟨.exception, s!"next status value:({next_index}) is going to out of "
      ++ s!"range:([0, {value_count}))", some "nextStatus"⟩)
  | some next =>
    set { manager with status := next }
    let job_uuid ← call (value manager.job_uuid)
    call (env.updateJobStatus job_uuid next.number)

/-- `JobBase::readDb` and `ModelBase::readDb`. -/
def readDb (table : JoinOrder) : Managed (ShareTable × List String) := do
  nextStatus env
  let joinTable ← call (env.readTable table)
  match joinTable.table with
  | [] => throw .outOfRange
  | _ :: _ =>
    -- the rows are as wide as `values[0]`
    let share_table ← call (joinTable.table.mapM fun row => row.mapM env.parse)
    nextStatus env
    return (share_table, joinTable.schemas)

/-- `JobBase::writeDb` and `ModelBase::writeDb`. -/
def writeDb (job_uuid : String) (values : R) : Managed Unit := do
  nextStatus env
  call (env.writeComputationResult job_uuid values)
  nextStatus env

/-- The `try` block of `JobBase::run` and of `ModelBase::run`. -/
def tryBlock (job_uuid : String) (table : JoinOrder)
    (compute : ShareTable → List String → Except Thrown R) : Managed Unit := do
  let tables ← readDb env table
  let result ← call (compute tables.1 tables.2)
  writeDb env job_uuid result

end Calls

/-- How a call of a handler or a thread ends. -/
inductive Exit (α : Type)
  | returned (a : α)
  /-- What is thrown reaches the caller. -/
  | escaped (e : Thrown)
  /-- A null pointer is dereferenced, or a row is accessed that does not exist; both are undefined
  in C++. -/
  | crashed
  deriving DecidableEq, Repr

/-- `JobBase::run`, from the status that the constructor has set. Both `catch` clauses
dereference the trace. -/
def JobBase.run (env : Env R) (request : ExecuteComputationRequest)
    (compute : ShareTable → List String → List (List ℤ) → Except Thrown R) : Exit ℕ :=
  let arg := [request.src, request.target]
  let body := tryBlock env request.job_uuid request.table fun share_table schemas =>
    compute share_table schemas arg
  match body ⟨some request.job_uuid, .PRE_JOB⟩ with
  | .ok () manager => .returned manager.status.number
  | .error .outOfRange _ => .crashed
  | .error (.raised e) manager =>
    match e.type, e.traced with
    | .other, _ => .escaped e
    | .runtime_error, some _ | .exception, some _ => .returned manager.status.number
    | .runtime_error, none | .exception, none => .crashed

/-- `ModelBase::run`. -/
def ModelBase.run (env : Env R) (request : PredictRequest)
    (predict : ShareTable → List String → List ℤ → String → Except Thrown R) : Exit ℕ :=
  match initJobID env request.job_uuid ⟨none, .UNKNOWN⟩ with
  | .error .outOfRange _ => .crashed
  | .error (.raised e) _ => .escaped e
  | .ok () manager =>
    let body := tryBlock env request.job_uuid request.table fun share_table schemas =>
      predict share_table schemas request.src request.model_param_job_uuid
    match body manager with
    | .ok () manager => .returned manager.status.number
    | .error .outOfRange _ => .crashed
    | .error (.raised e) manager =>
      match e.type with
      | .other => .escaped e
      | .runtime_error | .exception => .returned manager.status.number

/-- `ModelManager::select` returns a model for the methods `1, …, 4`. -/
def select (model_id : ℤ) : Bool := decide (1 ≤ model_id ∧ model_id ≤ 4)

/-- `ModelManager::push`; `f.get()` throws what the run has thrown. -/
def ModelManager.push (env : Env R) (request : PredictRequest)
    (predict : ShareTable → List String → List ℤ → String → Except Thrown R) : Exit ℕ :=
  if select request.model_id then ModelBase.run env request predict else .returned 0

/-- `grpc::StatusCode`, as far as `Predict` uses it. -/
inductive StatusCode
  | OK
  | INVALID_ARGUMENT
  | INTERNAL
  | ABORTED
  deriving DecidableEq, Repr

/-- `grpc::Status`. -/
structure GrpcStatus where
  code : StatusCode
  message : String
  deriving DecidableEq, Repr

/-- The reply of `Predict` for what `push` returns. -/
def reply : ℕ → GrpcStatus
  | 0 => ⟨.INVALID_ARGUMENT, "Predict Method Error"⟩
  | 1 => ⟨.INTERNAL, "Read Db Error"⟩
  | 2 => ⟨.ABORTED, "Computation Error"⟩
  | _ => ⟨.OK, ""⟩

/-- `Server::Predict`. -/
def Server.Predict (env : Env R) (request : PredictRequest)
    (predict : ShareTable → List String → List ℤ → String → Except Thrown R) :
    Exit GrpcStatus :=
  match ModelManager.push env request predict with
  | .returned status => .returned (reply status)
  | .escaped e => .escaped e
  | .crashed => .crashed

/-! ### The points of a run -/

section Points

variable (env : Env R) (job_uuid : String) (table : JoinOrder)
  (compute : ShareTable → List String → Except Thrown R)

/-- The share table is read. -/
structure Reads (joinTable : JoinTable) (share_table : ShareTable) : Prop where
  update : env.updateJobStatus job_uuid JobStatus.READ_DB.number = .ok ()
  readTable : env.readTable table = .ok joinTable
  rows : joinTable.table ≠ []
  convert : (joinTable.table.mapM fun row => row.mapM env.parse) = .ok share_table

/-- The result is computed. -/
structure Computes (joinTable : JoinTable) (share_table : ShareTable) (result : R) : Prop
    extends Reads env job_uuid table joinTable share_table where
  updateCompute : env.updateJobStatus job_uuid JobStatus.COMPUTE.number = .ok ()
  compute : compute share_table joinTable.schemas = .ok result

/-- The result is written. -/
structure Writes (joinTable : JoinTable) (share_table : ShareTable) (result : R) : Prop
    extends Computes env job_uuid table compute joinTable share_table result where
  updateWrite : env.updateJobStatus job_uuid JobStatus.WRITE_DB.number = .ok ()
  write : env.writeComputationResult job_uuid result = .ok ()

/-- The points at which a run raises an exception, with the status there. -/
inductive RaisedAt : JobStatus → Thrown → Prop
  | updateRead {e : Thrown} :
      env.updateJobStatus job_uuid JobStatus.READ_DB.number = .error e → RaisedAt .READ_DB e
  | readTable {e : Thrown} :
      env.updateJobStatus job_uuid JobStatus.READ_DB.number = .ok () →
      env.readTable table = .error e → RaisedAt .READ_DB e
  | convert {joinTable : JoinTable} {e : Thrown} :
      env.updateJobStatus job_uuid JobStatus.READ_DB.number = .ok () →
      env.readTable table = .ok joinTable → joinTable.table ≠ [] →
      (joinTable.table.mapM fun row => row.mapM env.parse) = .error e → RaisedAt .READ_DB e
  | updateCompute {joinTable : JoinTable} {share_table : ShareTable} {e : Thrown} :
      Reads env job_uuid table joinTable share_table →
      env.updateJobStatus job_uuid JobStatus.COMPUTE.number = .error e → RaisedAt .COMPUTE e
  | compute {joinTable : JoinTable} {share_table : ShareTable} {e : Thrown} :
      Reads env job_uuid table joinTable share_table →
      env.updateJobStatus job_uuid JobStatus.COMPUTE.number = .ok () →
      compute share_table joinTable.schemas = .error e → RaisedAt .COMPUTE e
  | updateWrite {joinTable : JoinTable} {share_table : ShareTable} {result : R} {e : Thrown} :
      Computes env job_uuid table compute joinTable share_table result →
      env.updateJobStatus job_uuid JobStatus.WRITE_DB.number = .error e → RaisedAt .WRITE_DB e
  | write {joinTable : JoinTable} {share_table : ShareTable} {result : R} {e : Thrown} :
      Computes env job_uuid table compute joinTable share_table result →
      env.updateJobStatus job_uuid JobStatus.WRITE_DB.number = .ok () →
      env.writeComputationResult job_uuid result = .error e → RaisedAt .WRITE_DB e
  | updateCompleted {joinTable : JoinTable} {share_table : ShareTable} {result : R}
      {e : Thrown} :
      Writes env job_uuid table compute joinTable share_table result →
      env.updateJobStatus job_uuid JobStatus.COMPLETED.number = .error e → RaisedAt .COMPLETED e

end Points

/-! ### Calls -/

theorem bind_ok {x : Managed α} {m m' : StatusManager} {a : α} (h : x m = .ok a m')
    (f : α → Managed β) : (x >>= f) m = f a m' := by
  simp only [bind, EStateM.bind, h]

theorem bind_error {x : Managed α} {m m' : StatusManager} {fault : Fault}
    (h : x m = .error fault m') (f : α → Managed β) : (x >>= f) m = .error fault m' := by
  simp only [bind, EStateM.bind, h]

theorem call_ok {x : Except Thrown α} {a : α} (h : x = .ok a) (m : StatusManager) :
    call x m = .ok a m := by
  simp only [call, h]

theorem call_error {x : Except Thrown α} {e : Thrown} (h : x = .error e) (m : StatusManager) :
    call x m = .error (.raised e) m := by
  simp only [call, h]

section Run

variable {env : Env R} {job_uuid : String} {table : JoinOrder}
  {compute : ShareTable → List String → Except Thrown R}

/-- The status moves on before the database is told. -/
theorem nextStatus_eq {status next : JobStatus}
    (h : descriptor[descriptor.idxOf status + 1]? = some next) :
    nextStatus env ⟨some job_uuid, status⟩
      = call (env.updateJobStatus job_uuid next.number) ⟨some job_uuid, next⟩ := by
  have hget : (get : Managed StatusManager) ⟨some job_uuid, status⟩
      = .ok ⟨some job_uuid, status⟩ ⟨some job_uuid, status⟩ := rfl
  rw [nextStatus, bind_ok hget]
  simp only [h]
  rfl

theorem nextStatus_ok {status next : JobStatus}
    (hnext : descriptor[descriptor.idxOf status + 1]? = some next)
    (h : env.updateJobStatus job_uuid next.number = .ok ()) :
    nextStatus env ⟨some job_uuid, status⟩ = .ok () ⟨some job_uuid, next⟩ := by
  rw [nextStatus_eq hnext, call_ok h]

theorem nextStatus_error {status next : JobStatus} {e : Thrown}
    (hnext : descriptor[descriptor.idxOf status + 1]? = some next)
    (h : env.updateJobStatus job_uuid next.number = .error e) :
    nextStatus env ⟨some job_uuid, status⟩ = .error (.raised e) ⟨some job_uuid, next⟩ := by
  rw [nextStatus_eq hnext, call_error h]

theorem Reads.readDb_eq {joinTable : JoinTable} {share_table : ShareTable}
    (h : Reads env job_uuid table joinTable share_table) :
    readDb env table ⟨some job_uuid, .PRE_JOB⟩
      = (nextStatus env >>= fun _ => pure (share_table, joinTable.schemas))
        ⟨some job_uuid, .READ_DB⟩ := by
  obtain ⟨row, rows, htable⟩ := List.exists_cons_of_ne_nil h.rows
  have hconvert := h.convert
  rw [htable] at hconvert
  rw [readDb, bind_ok (nextStatus_ok rfl h.update), bind_ok (call_ok h.readTable _), htable]
  exact bind_ok (call_ok hconvert _) _

theorem Computes.tryBlock_eq {joinTable : JoinTable} {share_table : ShareTable} {result : R}
    (h : Computes env job_uuid table compute joinTable share_table result) :
    tryBlock env job_uuid table compute ⟨some job_uuid, .PRE_JOB⟩
      = writeDb env job_uuid result ⟨some job_uuid, .COMPUTE⟩ := by
  have hread : readDb env table ⟨some job_uuid, .PRE_JOB⟩
      = .ok (share_table, joinTable.schemas) ⟨some job_uuid, .COMPUTE⟩ :=
    h.readDb_eq.trans (bind_ok (nextStatus_ok rfl h.updateCompute) _)
  rw [tryBlock, bind_ok hread, bind_ok (call_ok h.compute _)]

theorem Writes.tryBlock_eq {joinTable : JoinTable} {share_table : ShareTable} {result : R}
    (h : Writes env job_uuid table compute joinTable share_table result) :
    tryBlock env job_uuid table compute ⟨some job_uuid, .PRE_JOB⟩
      = nextStatus env ⟨some job_uuid, .WRITE_DB⟩ := by
  rw [h.toComputes.tryBlock_eq, writeDb, bind_ok (nextStatus_ok rfl h.updateWrite),
    bind_ok (call_ok h.write _)]

/-- What is raised at a point ends the block there. -/
theorem RaisedAt.tryBlock_eq {status : JobStatus} {e : Thrown}
    (h : RaisedAt env job_uuid table compute status e) :
    tryBlock env job_uuid table compute ⟨some job_uuid, .PRE_JOB⟩
      = .error (.raised e) ⟨some job_uuid, status⟩ := by
  cases h with
  | updateRead he => exact bind_error (bind_error (nextStatus_error rfl he) _) _
  | readTable hread he =>
      refine bind_error ?_ _
      rw [readDb, bind_ok (nextStatus_ok rfl hread)]
      exact bind_error (call_error he _) _
  | @convert joinTable _ hread htable hrows he =>
      refine bind_error ?_ _
      obtain ⟨row, rows, hcons⟩ := List.exists_cons_of_ne_nil hrows
      rw [hcons] at he
      rw [readDb, bind_ok (nextStatus_ok rfl hread), bind_ok (call_ok htable _), hcons]
      exact bind_error (call_error he _) _
  | updateCompute hreads he =>
      refine bind_error ?_ _
      rw [hreads.readDb_eq]
      exact bind_error (nextStatus_error rfl he) _
  | compute hreads hupdate he =>
      have hread := hreads.readDb_eq.trans (bind_ok (nextStatus_ok rfl hupdate) _)
      rw [tryBlock, bind_ok hread]
      exact bind_error (call_error he _) _
  | updateWrite hcomputes he =>
      rw [hcomputes.tryBlock_eq]
      exact bind_error (nextStatus_error rfl he) _
  | write hcomputes hupdate he =>
      rw [hcomputes.tryBlock_eq, writeDb, bind_ok (nextStatus_ok rfl hupdate)]
      exact bind_error (call_error he _) _
  | updateCompleted hwrites he => exact hwrites.tryBlock_eq.trans (nextStatus_error rfl he)

variable (compute) in
theorem Reads.cases {joinTable : JoinTable} {share_table : ShareTable}
    (h : Reads env job_uuid table joinTable share_table) :
    (∃ e, RaisedAt env job_uuid table compute .COMPUTE e)
      ∨ ∃ result, Computes env job_uuid table compute joinTable share_table result := by
  cases hupdate : env.updateJobStatus job_uuid JobStatus.COMPUTE.number with
  | error e => exact .inl ⟨e, .updateCompute h hupdate⟩
  | ok _ =>
      cases hcompute : compute share_table joinTable.schemas with
      | error e => exact .inl ⟨e, .compute h hupdate hcompute⟩
      | ok result => exact .inr ⟨result, h, hupdate, hcompute⟩

theorem Computes.cases {joinTable : JoinTable} {share_table : ShareTable} {result : R}
    (h : Computes env job_uuid table compute joinTable share_table result) :
    (∃ status e, RaisedAt env job_uuid table compute status e)
      ∨ tryBlock env job_uuid table compute ⟨some job_uuid, .PRE_JOB⟩
        = .ok () ⟨some job_uuid, .COMPLETED⟩ := by
  cases hupdate : env.updateJobStatus job_uuid JobStatus.WRITE_DB.number with
  | error e => exact .inl ⟨_, e, .updateWrite h hupdate⟩
  | ok _ =>
      cases hwrite : env.writeComputationResult job_uuid result with
      | error e => exact .inl ⟨_, e, .write h hupdate hwrite⟩
      | ok _ =>
          have hwrites : Writes env job_uuid table compute joinTable share_table result :=
            ⟨h, hupdate, hwrite⟩
          cases hdone : env.updateJobStatus job_uuid JobStatus.COMPLETED.number with
          | error e => exact .inl ⟨_, e, .updateCompleted hwrites hdone⟩
          | ok _ => exact .inr (hwrites.tryBlock_eq.trans (nextStatus_ok rfl hdone))

variable (env job_uuid table compute)

theorem reads_cases :
    (∃ e, RaisedAt env job_uuid table compute .READ_DB e)
      ∨ (∃ manager, tryBlock env job_uuid table compute ⟨some job_uuid, .PRE_JOB⟩
        = .error .outOfRange manager)
      ∨ ∃ joinTable share_table, Reads env job_uuid table joinTable share_table := by
  cases hread : env.updateJobStatus job_uuid JobStatus.READ_DB.number with
  | error e => exact .inl ⟨e, .updateRead hread⟩
  | ok _ =>
      cases htable : env.readTable table with
      | error e => exact .inl ⟨e, .readTable hread htable⟩
      | ok joinTable =>
          by_cases hrows : joinTable.table = []
          · have hempty : readDb env table ⟨some job_uuid, .PRE_JOB⟩
                = .error .outOfRange ⟨some job_uuid, .READ_DB⟩ := by
              rw [readDb, bind_ok (nextStatus_ok rfl hread), bind_ok (call_ok htable _), hrows]
              rfl
            exact .inr (.inl ⟨_, bind_error hempty _⟩)
          · cases hconvert : joinTable.table.mapM fun row => row.mapM env.parse with
            | error e => exact .inl ⟨e, .convert hread htable hrows hconvert⟩
            | ok share_table =>
                exact .inr (.inr ⟨joinTable, share_table, hread, htable, hrows, hconvert⟩)

/-- The block raises an exception at one of the points, accesses a first row that is not
there, or completes. -/
theorem tryBlock_cases :
    (∃ status e, RaisedAt env job_uuid table compute status e)
      ∨ (∃ manager, tryBlock env job_uuid table compute ⟨some job_uuid, .PRE_JOB⟩
        = .error .outOfRange manager)
      ∨ tryBlock env job_uuid table compute ⟨some job_uuid, .PRE_JOB⟩
        = .ok () ⟨some job_uuid, .COMPLETED⟩ := by
  rcases reads_cases env job_uuid table compute with ⟨e, he⟩ | hempty | ⟨_, _, hreads⟩
  · exact .inl ⟨_, e, he⟩
  · exact .inr (.inl hempty)
  · rcases hreads.cases compute with ⟨e, he⟩ | ⟨result, hcomputes⟩
    · exact .inl ⟨_, e, he⟩
    · exact hcomputes.cases.imp_right .inr

end Run

/-! ### Reports -/

section Reports

variable (env : Env R)

/-- Every failure of a job is reported with a status below `COMPLETED`. -/
def JobReported (request : ExecuteComputationRequest)
    (compute : ShareTable → List String → List (List ℤ) → Except Thrown R) : Prop :=
  ∀ status e, RaisedAt env request.job_uuid request.table
      (fun share_table schemas => compute share_table schemas [request.src, request.target])
      status e →
    ∃ status', JobBase.run env request compute = .returned status'
      ∧ status' < JobStatus.COMPLETED.number

/-- A prediction is answered by OK only if its run has completed. -/
def PredictReported (request : PredictRequest)
    (predict : ShareTable → List String → List ℤ → String → Except Thrown R) : Prop :=
  ∀ grpcStatus, Server.Predict env request predict = .returned grpcStatus →
    grpcStatus.code = .OK →
      select request.model_id
        ∧ ModelBase.run env request predict = .returned JobStatus.COMPLETED.number

/-- What a job raises is a `std::exception` with a trace, and the result is not written. -/
def JobTraced (request : ExecuteComputationRequest)
    (compute : ShareTable → List String → List (List ℤ) → Except Thrown R) : Prop :=
  ∀ status e, RaisedAt env request.job_uuid request.table
      (fun share_table schemas => compute share_table schemas [request.src, request.target])
      status e →
    e.type ≠ .other ∧ e.traced ≠ none ∧ status ≠ .COMPLETED

/-- What a registered prediction raises while it computes or writes is no
`std::exception`. -/
def PredictNotSilenced (request : PredictRequest)
    (predict : ShareTable → List String → List ℤ → String → Except Thrown R) : Prop :=
  select request.model_id →
    env.registerJob request.job_uuid JobStatus.PRE_JOB.number = .ok () →
      ∀ status e, RaisedAt env request.job_uuid request.table
          (fun share_table schemas =>
            predict share_table schemas request.src request.model_param_job_uuid) status e →
        status = .COMPUTE ∨ status = .WRITE_DB → e.type = .other

variable {env}

theorem initJobID_eq (job_uuid : String) :
    initJobID env job_uuid ⟨none, .UNKNOWN⟩
      = call (env.registerJob job_uuid JobStatus.PRE_JOB.number) ⟨some job_uuid, .PRE_JOB⟩ := rfl

theorem jobReported_iff {request : ExecuteComputationRequest}
    {compute : ShareTable → List String → List (List ℤ) → Except Thrown R} :
    JobReported env request compute ↔ JobTraced env request compute := by
  refine forall₃_congr fun status e he => ?_
  rw [JobBase.run, he.tryBlock_eq]
  obtain ⟨type, what, traced⟩ := e
  have hbelow : status.number < JobStatus.COMPLETED.number ↔ status ≠ .COMPLETED := by
    cases status <;> decide
  cases type with
  | other => simp
  | runtime_error => cases traced <;> simp [hbelow]
  | exception => cases traced <;> simp [hbelow]

theorem reply_code_eq_ok {status : ℕ} : (reply status).code = .OK ↔ 3 ≤ status := by
  match status with
  | 0 | 1 | 2 => decide
  | status + 3 => simp [reply]

section Predict

variable {request : PredictRequest}
  {predict : ShareTable → List String → List ℤ → String → Except Thrown R}

/-- The status that a raised exception leaves behind is what is returned. -/
theorem ModelBase.run_of_raisedAt {status : JobStatus} {e : Thrown}
    (hregister : env.registerJob request.job_uuid JobStatus.PRE_JOB.number = .ok ())
    (he : RaisedAt env request.job_uuid request.table
      (fun share_table schemas =>
        predict share_table schemas request.src request.model_param_job_uuid) status e) :
    ModelBase.run env request predict
      = if e.type = .other then .escaped e else .returned status.number := by
  rw [ModelBase.run, initJobID_eq, call_ok hregister]
  simp only [he.tryBlock_eq]
  cases e.type <;> rfl

/-- What `Predict` answers by OK is a run that has returned `COMPUTE` or more. -/
theorem Server.predict_ok {grpcStatus : GrpcStatus}
    (h : Server.Predict env request predict = .returned grpcStatus)
    (hcode : grpcStatus.code = .OK) :
    select request.model_id
      ∧ ∃ status, ModelBase.run env request predict = .returned status ∧ 3 ≤ status := by
  unfold Server.Predict ModelManager.push at h
  by_cases hselect : select request.model_id
  · rw [if_pos hselect] at h
    refine ⟨hselect, ?_⟩
    cases hrun : ModelBase.run env request predict with
    | returned status =>
        rw [hrun] at h
        obtain rfl := Exit.returned.inj h
        exact ⟨status, rfl, reply_code_eq_ok.mp hcode⟩
    | escaped e =>
        rw [hrun] at h
        cases h
    | crashed =>
        rw [hrun] at h
        cases h
  · rw [if_neg hselect] at h
    obtain rfl := Exit.returned.inj h
    exact absurd (reply_code_eq_ok.mp hcode) (by decide)

theorem predictReported_iff :
    PredictReported env request predict ↔ PredictNotSilenced env request predict := by
  constructor
  · intro hreported hselect hregister status e he hstatus
    by_contra hother
    have hrun := ModelBase.run_of_raisedAt hregister he
    rw [if_neg hother] at hrun
    have hreply : Server.Predict env request predict = .returned (reply status.number) := by
      rw [Server.Predict, ModelManager.push, if_pos hselect, hrun]
    have hcode : (reply status.number).code = .OK := by
      rcases hstatus with rfl | rfl <;> rfl
    have hcompleted := (hreported _ hreply hcode).2
    rw [hrun] at hcompleted
    rcases hstatus with rfl | rfl <;> exact absurd hcompleted (by decide)
  · intro hnot grpcStatus hreply hcode
    obtain ⟨hselect, status, hrun, hge⟩ := Server.predict_ok hreply hcode
    refine ⟨hselect, ?_⟩
    cases hregister : env.registerJob request.job_uuid JobStatus.PRE_JOB.number with
    | error e =>
        rw [ModelBase.run, initJobID_eq, call_error hregister] at hrun
        cases hrun
    | ok _ =>
        rcases tryBlock_cases env request.job_uuid request.table (fun share_table schemas =>
            predict share_table schemas request.src request.model_param_job_uuid) with
          ⟨status', e, he⟩ | ⟨manager, hempty⟩ | hdone
        · have hraised := ModelBase.run_of_raisedAt hregister he
          rw [hraised] at hrun ⊢
          split at hrun
          · cases hrun
          next hother =>
            have hsilenced := mt (hnot hselect hregister status' e he) hother
            obtain rfl := Exit.returned.inj hrun
            rw [if_neg hother]
            cases status' with
            | UNKNOWN | PRE_JOB | READ_DB => exact absurd hge (by decide)
            | COMPUTE | WRITE_DB => simp at hsilenced
            | COMPLETED => rfl
        · rw [ModelBase.run, initJobID_eq, call_ok hregister] at hrun
          simp only [hempty] at hrun
          cases hrun
        · rw [ModelBase.run, initJobID_eq, call_ok hregister]
          simp only [hdone]

end Predict

/-- **Which failures are reported.** A job reports every failure exactly when what it raises
is a `std::exception` with a trace, raised before the result is written. A prediction is
answered by OK only when it has completed exactly when nothing that its handlers catch is
raised while it computes or writes. -/
theorem failures_reported_iff (env : Env R) (request : ExecuteComputationRequest)
    (compute : ShareTable → List String → List (List ℤ) → Except Thrown R)
    (predictRequest : PredictRequest)
    (predict : ShareTable → List String → List ℤ → String → Except Thrown R) :
    (JobReported env request compute ↔ JobTraced env request compute)
      ∧ (PredictReported env predictRequest predict
        ↔ PredictNotSilenced env predictRequest predict) :=
  ⟨jobReported_iff, predictReported_iff⟩

end Reports

/-! ### Two failures -/

/-- A database that answers every call, with a table of one cell; only "abc" is not a
number. -/
def oneCell (cell : String) : Env String where
  registerJob _ _ := .ok ()
  updateJobStatus _ _ := .ok ()
  readTable _ := .ok ⟨[[cell]], ["x"], by simp⟩
  parse s := if s = "abc" then .error ⟨.runtime_error, "not a number", none⟩ else .ok 0
  writeComputationResult _ _ := .ok ()

/-- A text that is no number crashes the job, and a prediction that fails while it computes
is answered by OK. -/
theorem failure_not_reported :
    let request : ExecuteComputationRequest := ⟨"job", ⟨["id"], [], [1]⟩, [], []⟩
    let predictRequest : PredictRequest := ⟨"job", "model", 1, ⟨["id"], [], [1]⟩, []⟩
    let compute : ShareTable → List String → List (List ℤ) → Except Thrown String :=
      fun _ _ _ => .ok "0"
    let predict : ShareTable → List String → List ℤ → String → Except Thrown String :=
      fun _ _ _ _ => .error ⟨.runtime_error, "Not Equal Length", some "operator+"⟩
    ¬JobReported (oneCell "abc") request compute
      ∧ JobBase.run (oneCell "abc") request compute = .crashed
      ∧ ¬PredictReported (oneCell "1") predictRequest predict
      ∧ ModelBase.run (oneCell "1") predictRequest predict = .returned JobStatus.COMPUTE.number
      ∧ Server.Predict (oneCell "1") predictRequest predict = .returned ⟨.OK, ""⟩ := by
  intro request predictRequest compute predict
  have hcrash : JobBase.run (oneCell "abc") request compute = .crashed := by decide
  have hrun : ModelBase.run (oneCell "1") predictRequest predict
      = .returned JobStatus.COMPUTE.number := by decide
  have hreply : Server.Predict (oneCell "1") predictRequest predict = .returned ⟨.OK, ""⟩ := by
    decide
  refine ⟨fun h => ?_, hcrash, fun h => ?_, hrun, hreply⟩
  · obtain ⟨status, hstatus, -⟩ := h _ _ (.convert rfl rfl (by simp) rfl)
    rw [hcrash] at hstatus
    cases hstatus
  · have hcompleted := (h _ hreply rfl).2
    rw [hrun] at hcompleted
    exact absurd hcompleted (by decide)

end QuickMpc.JobRun
