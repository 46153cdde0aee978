import Mathlib.Data.Fin.Basic
import Mathlib.Data.List.Nodup
import Mathlib.Data.List.Perm.Basic
import Mathlib.Logic.Function.Basic
import QuickMpc.Lib.ListSet
import QuickMpc.Lib.StepSystem

/-!
# QuickMpc.JobManager

The dispatcher of jobs and the computation threads of the parties.

`runJobManager` at the party `sp` pops a request and a free job id and calls
`ExecuteComputeFromSP` at every party in turn, each call until it returns OK; the
handler starts a thread, even when the caller has seen the call fail before. The
thread at the party `sp` is the trigger: when it ends, whatever the other parties
are doing, its id goes back to the pool.
Predictions run in threads of their own, all under the job id `1000`.

A thread builds the `AddressId`s of its shares from its own counter and its job
id, so two live threads of one party with the same job id build the same
addresses. `jobIds_exclusive` says in which runs that does not happen.
-/

namespace QuickMpc.JobManager

open StepSystem

/-! ### Model -/

/-- `JobManager::MAX_JOB_NUM`. -/
def MAX_JOB_NUM : ℕ := 5

/-- The job id that `ModelBase::run` sets, above those of the pool. -/
def predictJobId : ℕ := 1000

/-- `ComputationMethod`, as received. -/
abbrev MethodId := ℕ

/-- `JobSelector` returns a job for the methods `1, …, 9`, and `nullptr`
otherwise. -/
def selector (method_id : MethodId) : Bool := decide (1 ≤ method_id ∧ method_id ≤ 9)

/-- `AddressId`. -/
structure AddressId where
  share_id : ℕ
  job_id : ℕ
  thread_id : ℕ
  deriving DecidableEq, Repr

/-- A thread that has not ended: a job, or a prediction. -/
structure Thread where
  job_id : ℕ
  is_job_trigger_party : Bool
  /-- The thread computes. A thread with an unknown method ends at once. -/
  computes : Bool
  /-- The thread-local counter of `AddressId`. -/
  share_id_generator : ℕ
  deriving DecidableEq, Repr

/-- The addresses that a thread has built so far. -/
def Thread.addresses (t : Thread) : List AddressId :=
  (List.range t.share_id_generator).map fun share_id => ⟨share_id, t.job_id, 0⟩

/-- Where `runJobManager` is. -/
inductive Dispatcher
  /-- In `pollingPopJobReq`. -/
  | waiting
  /-- In `pollingPopJobId`. -/
  | popping (method_id : MethodId)
  /-- In `sendJobInfo`, calling the party with index `pt_id`; `started` says
  whether the handler of the current attempt has run. -/
  | sending (method_id : MethodId) (job_id pt_id : ℕ) (started : Bool)
  deriving DecidableEq, Repr

/-- The job id the dispatcher is handing out. -/
def Dispatcher.held : Dispatcher → Option ℕ
  | .sending _ job_id _ _ => some job_id
  | _ => none

/-- A call that has failed before its handler ran. -/
structure LateCall where
  method_id : MethodId
  job_id : ℕ
  pt_id : ℕ
  deriving DecidableEq, Repr

structure State (n : ℕ) where
  job_req_queue : List MethodId
  job_id_queue : List ℕ
  dispatcher : Dispatcher
  late : List LateCall
  threads : Fin n → List Thread

/-- `JobManager()` fills the pool with `1, …, MAX_JOB_NUM`. -/
def initial (n : ℕ) : State n where
  job_req_queue := []
  job_id_queue := (List.range MAX_JOB_NUM).map (· + 1)
  dispatcher := .waiting
  late := []
  threads _ := []

inductive Action (n : ℕ)
  /-- A request arrives at the party `sp`. -/
  | pushJobReq (method_id : MethodId)
  | pollingPopJobReq
  | pollingPopJobId
  /-- The handler `ExecuteComputeFromSP` runs `asyncRun` at the called party. -/
  | asyncRun
  /-- The call returns OK; the dispatcher goes on to the next party. -/
  | callOk
  /-- The call fails; the dispatcher will repeat it. -/
  | callFail
  /-- The handler of the `k`-th call that has failed runs after all. -/
  | asyncRunLate (k : ℕ)
  /-- The `k`-th thread of party `i` builds an address. -/
  | newAddress (i : Fin n) (k : ℕ)
  /-- The `k`-th thread of party `i` ends, having succeeded or failed. -/
  | endThread (i : Fin n) (k : ℕ)
  /-- A prediction starts at party `i`. -/
  | startPrediction (i : Fin n)
  deriving DecidableEq, Repr

variable {n : ℕ}

/-- Change the threads of one party. -/
def State.setThreads (s : State n) (i : Fin n) (threads : List Thread) : State n :=
  { s with threads := Function.update s.threads i threads }

/-- The thread that `asyncRun` starts at the party `i`. -/
def jobThread (sp i : Fin n) (method_id : MethodId) (job_id : ℕ) : Thread :=
  ⟨job_id, decide (i = sp), selector method_id, 0⟩

/-- One step of the system whose dispatcher runs at the party `sp`. -/
def step (sp : Fin n) (s : State n) : Action n → Option (State n)
  | .pushJobReq method_id => some { s with job_req_queue := s.job_req_queue ++ [method_id] }
  | .pollingPopJobReq =>
    match s.dispatcher, s.job_req_queue with
    | .waiting, method_id :: rest =>
      some { s with job_req_queue := rest, dispatcher := .popping method_id }
    | _, _ => none
  | .pollingPopJobId =>
    match s.dispatcher, s.job_id_queue with
    | .popping method_id, job_id :: rest =>
      some { s with job_id_queue := rest, dispatcher := .sending method_id job_id 0 false }
    | _, _ => none
  | .asyncRun =>
    match s.dispatcher with
    | .sending method_id job_id pt_id false =>
      if h : pt_id < n then
        let i : Fin n := ⟨pt_id, h⟩
        let s' : State n := { s with dispatcher := .sending method_id job_id pt_id true }
        some (s'.setThreads i (s.threads i ++ [jobThread sp i method_id job_id]))
      else none
    | _ => none
  | .callOk =>
    match s.dispatcher with
    | .sending method_id job_id pt_id true =>
      some { s with
        dispatcher := if pt_id + 1 < n then .sending method_id job_id (pt_id + 1) false
          else .waiting }
    | _ => none
  | .callFail =>
    match s.dispatcher with
    | .sending method_id job_id pt_id started =>
      some { s with
        dispatcher := .sending method_id job_id pt_id false
        late := if started then s.late else s.late ++ [⟨method_id, job_id, pt_id⟩] }
    | _ => none
  | .asyncRunLate k =>
    match s.late[k]? with
    | some call =>
      if h : call.pt_id < n then
        let i : Fin n := ⟨call.pt_id, h⟩
        let s' : State n := { s with late := s.late.eraseIdx k }
        some (s'.setThreads i (s.threads i ++ [jobThread sp i call.method_id call.job_id]))
      else none
    | none => none
  | .newAddress i k =>
    match (s.threads i)[k]? with
    | some t =>
      if t.computes then
        some (s.setThreads i
          ((s.threads i).set k { t with share_id_generator := t.share_id_generator + 1 }))
      else none
    | none => none
  | .endThread i k =>
    match (s.threads i)[k]? with
    | some t =>
      let s' := s.setThreads i ((s.threads i).eraseIdx k)
      some (if t.is_job_trigger_party then
          { s' with job_id_queue := s'.job_id_queue ++ [t.job_id] }
        else s')
    | none => none
  | .startPrediction i =>
    some (s.setThreads i (s.threads i ++ [⟨predictJobId, false, true, 0⟩]))

/-- What one step can do. -/
inductive Stepped (sp : Fin n) (s : State n) : Action n → State n → Prop
  | pushJobReq (method_id : MethodId) : Stepped sp s (.pushJobReq method_id)
      { s with job_req_queue := s.job_req_queue ++ [method_id] }
  | pollingPopJobReq (method_id : MethodId) (rest : List MethodId) : s.dispatcher = .waiting →
      s.job_req_queue = method_id :: rest → Stepped sp s .pollingPopJobReq
        { s with job_req_queue := rest, dispatcher := .popping method_id }
  | pollingPopJobId (method_id : MethodId) (job_id : ℕ) (rest : List ℕ) :
      s.dispatcher = .popping method_id → s.job_id_queue = job_id :: rest →
      Stepped sp s .pollingPopJobId
        { s with job_id_queue := rest, dispatcher := .sending method_id job_id 0 false }
  | asyncRun (method_id : MethodId) (job_id : ℕ) (i : Fin n) :
      s.dispatcher = .sending method_id job_id i false →
      Stepped sp s .asyncRun
        (({ s with dispatcher := .sending method_id job_id i true } : State n).setThreads i
          (s.threads i ++ [jobThread sp i method_id job_id]))
  | callNext (method_id : MethodId) (job_id pt_id : ℕ) :
      s.dispatcher = .sending method_id job_id pt_id true → pt_id + 1 < n →
      Stepped sp s .callOk { s with dispatcher := .sending method_id job_id (pt_id + 1) false }
  | callLast (method_id : MethodId) (job_id pt_id : ℕ) :
      s.dispatcher = .sending method_id job_id pt_id true → ¬ pt_id + 1 < n →
      Stepped sp s .callOk { s with dispatcher := .waiting }
  | callFail (method_id : MethodId) (job_id pt_id : ℕ) (started : Bool) :
      s.dispatcher = .sending method_id job_id pt_id started →
      Stepped sp s .callFail { s with
        dispatcher := .sending method_id job_id pt_id false
        late := if started then s.late else s.late ++ [⟨method_id, job_id, pt_id⟩] }
  | asyncRunLate (k : ℕ) (method_id : MethodId) (job_id : ℕ) (i : Fin n) :
      s.late[k]? = some ⟨method_id, job_id, i⟩ →
      Stepped sp s (.asyncRunLate k)
        (({ s with late := s.late.eraseIdx k } : State n).setThreads i
          (s.threads i ++ [jobThread sp i method_id job_id]))
  | newAddress (i : Fin n) (k : ℕ) (t : Thread) : (s.threads i)[k]? = some t → t.computes = true →
      Stepped sp s (.newAddress i k) (s.setThreads i
        ((s.threads i).set k { t with share_id_generator := t.share_id_generator + 1 }))
  | endTrigger (i : Fin n) (k : ℕ) (t : Thread) : (s.threads i)[k]? = some t →
      t.is_job_trigger_party = true → Stepped sp s (.endThread i k)
        { s.setThreads i ((s.threads i).eraseIdx k) with
          job_id_queue := s.job_id_queue ++ [t.job_id] }
  | endOther (i : Fin n) (k : ℕ) (t : Thread) : (s.threads i)[k]? = some t →
      t.is_job_trigger_party = false → Stepped sp s (.endThread i k)
        (s.setThreads i ((s.threads i).eraseIdx k))
  | startPrediction (i : Fin n) : Stepped sp s (.startPrediction i)
      (s.setThreads i (s.threads i ++ [⟨predictJobId, false, true, 0⟩]))

theorem step_cases {sp : Fin n} {s s' : State n} {a : Action n} (hs : step sp s a = some s') :
    Stepped sp s a s' := by
  cases a with
  | pushJobReq method_id =>
      obtain rfl := Option.some.inj hs
      exact .pushJobReq method_id
  | pollingPopJobReq =>
      simp only [step] at hs
      split at hs
      · rename_i method_id rest hdisp hqueue
        obtain rfl := Option.some.inj hs
        exact .pollingPopJobReq method_id rest hdisp hqueue
      · cases hs
  | pollingPopJobId =>
      simp only [step] at hs
      split at hs
      · rename_i method_id job_id rest hdisp hqueue
        obtain rfl := Option.some.inj hs
        exact .pollingPopJobId method_id job_id rest hdisp hqueue
      · cases hs
  | asyncRun =>
      simp only [step] at hs
      split at hs
      · rename_i method_id job_id pt_id hdisp
        split at hs
        · rename_i hpt
          obtain rfl := Option.some.inj hs
          exact .asyncRun method_id job_id ⟨pt_id, hpt⟩ hdisp
        · cases hs
      · cases hs
  | callOk =>
      simp only [step] at hs
      split at hs
      · rename_i method_id job_id pt_id hdisp
        obtain rfl := Option.some.inj hs
        by_cases hnext : pt_id + 1 < n
        · simp only [if_pos hnext]
          exact .callNext method_id job_id pt_id hdisp hnext
        · simp only [if_neg hnext]
          exact .callLast method_id job_id pt_id hdisp hnext
      · cases hs
  | callFail =>
      simp only [step] at hs
      split at hs
      · rename_i method_id job_id pt_id started hdisp
        obtain rfl := Option.some.inj hs
        exact .callFail method_id job_id pt_id started hdisp
      · cases hs
  | asyncRunLate k =>
      simp only [step] at hs
      split at hs
      · rename_i call hcall
        split at hs
        · rename_i hpt
          obtain rfl := Option.some.inj hs
          exact .asyncRunLate k call.method_id call.job_id ⟨call.pt_id, hpt⟩ hcall
        · cases hs
      · cases hs
  | newAddress i k =>
      simp only [step] at hs
      split at hs
      · rename_i t hget
        split at hs
        · rename_i hcomputes
          obtain rfl := Option.some.inj hs
          exact .newAddress i k t hget hcomputes
        · cases hs
      · cases hs
  | endThread i k =>
      simp only [step] at hs
      split at hs
      · rename_i t hget
        obtain rfl := Option.some.inj hs
        cases hrole : t.is_job_trigger_party with
        | true => exact .endTrigger i k t hget hrole
        | false => exact .endOther i k t hget hrole
      · cases hs
  | startPrediction i =>
      obtain rfl := Option.some.inj hs
      exact .startPrediction i

/-! ### Exclusiveness -/

/-- No party has two unfinished computations with the same job id. -/
def JobIdsExclusive (s : State n) : Prop := ∀ i, ((s.threads i).map Thread.job_id).Nodup

/-- No two live threads of a party have built the same address. -/
def AddressesDisjoint (s : State n) : Prop :=
  ∀ i, (s.threads i).Pairwise fun t t' => ∀ a ∈ t.addresses, a ∉ t'.addresses

instance (s : State n) : Decidable (JobIdsExclusive s) :=
  inferInstanceAs (Decidable (∀ i, ((s.threads i).map Thread.job_id).Nodup))

instance (s : State n) : Decidable (AddressesDisjoint s) :=
  inferInstanceAs (Decidable (∀ i, (s.threads i).Pairwise fun t t' =>
    ∀ a ∈ t.addresses, a ∉ t'.addresses))

/-- Some other party has an unfinished thread with this job id. -/
def runsElsewhere (s : State n) (i : Fin n) (job_id : ℕ) : Bool :=
  decide (∃ j, j ≠ i ∧ ∃ t ∈ s.threads j, t.job_id = job_id)

/-- The steps that keep job ids exclusive: the trigger ends last of all parties
(and not while the job is being started), a call that has been served is not
repeated and one that has failed is not served any more, and a party runs one
prediction at a time. -/
def careful (s : State n) : Action n → Bool
  | .endThread i k =>
    match (s.threads i)[k]? with
    | some t =>
      !t.is_job_trigger_party
        || !runsElsewhere s i t.job_id && decide (s.dispatcher.held ≠ some t.job_id)
    | none => true
  | .callFail =>
    match s.dispatcher with
    | .sending _ _ _ started => !started
    | _ => true
  | .asyncRunLate _ => false
  | .startPrediction i => decide (∀ t ∈ s.threads i, t.job_id ≠ predictJobId)
  | _ => true

/-- What careful runs preserve: the pool, the dispatcher and the threads never
hold the same id, and the job being started runs only at the parties whose
handler has been called. -/
structure Inv (s : State n) : Prop where
  pool_nodup : s.job_id_queue.Nodup
  pool_le : ∀ id ∈ s.job_id_queue, id ≤ MAX_JOB_NUM
  held_le : ∀ id ∈ s.dispatcher.held, id ≤ MAX_JOB_NUM
  held_free : ∀ id ∈ s.dispatcher.held, id ∉ s.job_id_queue
  thread_free : ∀ i, ∀ t ∈ s.threads i, t.job_id ∉ s.job_id_queue
  trigger_le : ∀ i, ∀ t ∈ s.threads i, t.is_job_trigger_party = true → t.job_id ≤ MAX_JOB_NUM
  started : ∀ method_id job_id pt_id b, s.dispatcher = .sending method_id job_id pt_id b →
    ∀ i, ∀ t ∈ s.threads i, t.job_id = job_id → i.val < pt_id ∨ i.val = pt_id ∧ b = true
  exclusive : JobIdsExclusive s

theorem inv_initial : Inv (initial n) where
  pool_nodup := (by decide : ((List.range MAX_JOB_NUM).map (· + 1)).Nodup)
  pool_le := (by decide : ∀ id ∈ (List.range MAX_JOB_NUM).map (· + 1), id ≤ MAX_JOB_NUM)
  held_le := by simp [initial, Dispatcher.held]
  held_free := by simp [initial, Dispatcher.held]
  thread_free := by simp [initial]
  trigger_le := by simp [initial]
  started := by simp [initial]
  exclusive := by simp [JobIdsExclusive, initial]

/-- Exclusiveness is a matter of the changed party. -/
theorem exclusive_setThreads {s : State n} {i : Fin n} {ts : List Thread}
    (h : JobIdsExclusive s) (hts : (ts.map Thread.job_id).Nodup) :
    JobIdsExclusive (s.setThreads i ts) := by
  intro j
  by_cases hj : j = i
  · subst hj
    simpa [State.setThreads] using hts
  · simpa [State.setThreads, hj] using h j

/-- A new thread keeps the ids of its party distinct when its id is new there. -/
theorem nodup_append_thread {ts : List Thread} {t : Thread} (h : (ts.map Thread.job_id).Nodup)
    (hnew : ∀ t' ∈ ts, t'.job_id ≠ t.job_id) : ((ts ++ [t]).map Thread.job_id).Nodup := by
  rw [List.map_append, List.nodup_append]
  refine ⟨h, by simp, ?_⟩
  intro id hid id' hid'
  obtain ⟨t', ht', rfl⟩ := List.mem_map.mp hid
  obtain rfl : id' = t.job_id := by simpa using hid'
  exact hnew t' ht'

/-- The threads after one has been started. -/
theorem mem_threads_append {s : State n} {i j : Fin n} {t new : Thread}
    (ht : t ∈ (s.setThreads i (s.threads i ++ [new])).threads j) :
    t ∈ s.threads j ∨ j = i ∧ t = new := by
  rcases mem_update.mp ht with ⟨rfl, hmem⟩ | ⟨-, hmem⟩
  · rcases List.mem_append.mp hmem with hold | hnew
    · exact .inl hold
    · exact .inr ⟨rfl, List.mem_singleton.mp hnew⟩
  · exact .inl hmem

/-! ### The steps -/

theorem inv_pollingPopJobReq {s s' : State n} {sp : Fin n} (h : Inv s)
    (hs : Stepped sp s .pollingPopJobReq s') : Inv s' := by
  cases hs with
  | pollingPopJobReq method_id rest hdisp hqueue =>
      exact { h with
        held_le := by simp [Dispatcher.held]
        held_free := by simp [Dispatcher.held]
        started := by simp }

/-- The popped id leaves the pool, so no thread has it. -/
theorem inv_pollingPopJobId {s s' : State n} {sp : Fin n} (h : Inv s)
    (hs : Stepped sp s .pollingPopJobId s') : Inv s' := by
  cases hs with
  | pollingPopJobId method_id job_id rest hdisp hqueue =>
      have hnodup := h.pool_nodup
      rw [hqueue, List.nodup_cons] at hnodup
      have hmem : ∀ id, id ∈ rest → id ∈ s.job_id_queue := fun id hid => by
        rw [hqueue]
        exact List.mem_cons_of_mem _ hid
      have hhead : job_id ∈ s.job_id_queue := by
        rw [hqueue]
        exact List.mem_cons_self
      constructor
      case pool_nodup => exact hnodup.2
      case pool_le => exact fun id hid => h.pool_le id (hmem id hid)
      case held_le =>
        intro id hid
        obtain rfl : job_id = id := by simpa [Dispatcher.held] using hid
        exact h.pool_le job_id hhead
      case held_free =>
        intro id hid
        obtain rfl : job_id = id := by simpa [Dispatcher.held] using hid
        exact hnodup.1
      case thread_free => exact fun i t ht hid => h.thread_free i t ht (hmem _ hid)
      case trigger_le => exact h.trigger_le
      case started =>
        intro m id pt b hd i t ht hid
        obtain ⟨-, rfl, -, -⟩ := Dispatcher.sending.inj hd
        exact absurd (hid ▸ hhead) (h.thread_free i t ht)
      case exclusive => exact h.exclusive

/-- The handler starts the job at a party that does not run it yet. -/
theorem inv_asyncRun {s s' : State n} {sp : Fin n} (h : Inv s)
    (hs : Stepped sp s .asyncRun s') : Inv s' := by
  cases hs with
  | asyncRun method_id job_id i₀ hdisp =>
      have hheld : job_id ∈ s.dispatcher.held := by simp [hdisp, Dispatcher.held]
      have hnew : ∀ t ∈ s.threads i₀, t.job_id ≠ job_id := by
        intro t ht hid
        rcases h.started _ _ _ _ hdisp i₀ t ht hid with hlt | ⟨-, hb⟩
        · exact absurd hlt (lt_irrefl _)
        · exact absurd hb (by simp)
      constructor
      case pool_nodup => exact h.pool_nodup
      case pool_le => exact h.pool_le
      case held_le =>
        intro id hid
        obtain rfl : job_id = id := by simpa [State.setThreads, Dispatcher.held] using hid
        exact h.held_le _ hheld
      case held_free =>
        intro id hid
        obtain rfl : job_id = id := by simpa [State.setThreads, Dispatcher.held] using hid
        exact h.held_free _ hheld
      case thread_free =>
        intro i t ht
        rcases mem_threads_append ht with hold | ⟨-, rfl⟩
        · exact h.thread_free i t hold
        · exact h.held_free _ hheld
      case trigger_le =>
        intro i t ht htrigger
        rcases mem_threads_append ht with hold | ⟨-, rfl⟩
        · exact h.trigger_le i t hold htrigger
        · exact h.held_le _ hheld
      case started =>
        intro m id pt b hd i t ht hid
        obtain ⟨rfl, rfl, rfl, rfl⟩ := Dispatcher.sending.inj hd
        rcases mem_threads_append ht with hold | ⟨rfl, -⟩
        · rcases h.started _ _ _ _ hdisp i t hold hid with hlt | ⟨-, hb⟩
          · exact .inl hlt
          · exact absurd hb (by simp)
        · exact .inr ⟨rfl, rfl⟩
      case exclusive =>
        exact exclusive_setThreads h.exclusive
          (nodup_append_thread (h.exclusive _) hnew)

/-- The next call is to a party that does not run the job, or there is none. -/
theorem inv_callOk {s s' : State n} {sp : Fin n} (h : Inv s)
    (hs : Stepped sp s .callOk s') : Inv s' := by
  cases hs with
  | callNext method_id job_id pt_id hdisp hnext =>
      have hheld : job_id ∈ s.dispatcher.held := by simp [hdisp, Dispatcher.held]
      constructor
      case pool_nodup => exact h.pool_nodup
      case pool_le => exact h.pool_le
      case held_le =>
        intro id hid
        obtain rfl : job_id = id := by simpa [Dispatcher.held] using hid
        exact h.held_le _ hheld
      case held_free =>
        intro id hid
        obtain rfl : job_id = id := by simpa [Dispatcher.held] using hid
        exact h.held_free _ hheld
      case thread_free => exact h.thread_free
      case trigger_le => exact h.trigger_le
      case started =>
        intro m id pt b hd i t ht hid
        obtain ⟨rfl, rfl, rfl, rfl⟩ := Dispatcher.sending.inj hd
        rcases h.started _ _ _ _ hdisp i t ht hid with hlt | ⟨heq, -⟩
        · exact .inl (Nat.lt_succ_of_lt hlt)
        · exact .inl (heq ▸ Nat.lt_succ_self _)
      case exclusive => exact h.exclusive
  | callLast method_id job_id pt_id hdisp hnext =>
      exact { h with
        held_le := by simp [Dispatcher.held]
        held_free := by simp [Dispatcher.held]
        started := by simp }

/-- A failed call that has not been served changes nothing. -/
theorem inv_callFail {s s' : State n} {sp : Fin n} (h : Inv s)
    (hok : careful s .callFail = true) (hs : Stepped sp s .callFail s') : Inv s' := by
  cases hs with
  | callFail method_id job_id pt_id started hdisp =>
      simp only [careful, hdisp, Bool.not_eq_true'] at hok
      subst hok
      rw [← hdisp]
      exact { h with }

/-- Threads may leave, or change in what is neither id nor role. -/
theorem inv_setThreads {s : State n} {i : Fin n} {ts : List Thread} (h : Inv s)
    (hts : ∀ t ∈ ts, ∃ t' ∈ s.threads i,
      t'.job_id = t.job_id ∧ t'.is_job_trigger_party = t.is_job_trigger_party)
    (hnodup : (ts.map Thread.job_id).Nodup) : Inv (s.setThreads i ts) := by
  -- every thread of the new state stands for one of the old state
  have hold : ∀ j, ∀ t ∈ (s.setThreads i ts).threads j, ∃ t' ∈ s.threads j,
      t'.job_id = t.job_id ∧ t'.is_job_trigger_party = t.is_job_trigger_party := by
    intro j t ht
    rcases mem_update.mp ht with ⟨rfl, hmem⟩ | ⟨-, hmem⟩
    · exact hts t hmem
    · exact ⟨t, hmem, rfl, rfl⟩
  constructor
  case pool_nodup => exact h.pool_nodup
  case pool_le => exact h.pool_le
  case held_le => exact h.held_le
  case held_free => exact h.held_free
  case thread_free =>
    intro j t ht
    obtain ⟨t', ht', hid, -⟩ := hold j t ht
    exact hid ▸ h.thread_free j t' ht'
  case trigger_le =>
    intro j t ht htrigger
    obtain ⟨t', ht', hid, hrole⟩ := hold j t ht
    exact hid ▸ h.trigger_le j t' ht' (hrole.trans htrigger)
  case started =>
    intro m id pt b hd j t ht hid
    obtain ⟨t', ht', hid', -⟩ := hold j t ht
    exact h.started m id pt b hd j t' ht' (hid'.trans hid)
  case exclusive => exact exclusive_setThreads h.exclusive hnodup

theorem inv_newAddress {s s' : State n} {sp i : Fin n} {k : ℕ} (h : Inv s)
    (hs : Stepped sp s (.newAddress i k) s') : Inv s' := by
  cases hs with
  | newAddress _ _ t hget _ =>
      have hmem : t ∈ s.threads i := List.mem_of_getElem? hget
      refine inv_setThreads h ?_ ?_
      · intro t' ht'
        rcases List.mem_or_eq_of_mem_set ht' with ht' | rfl
        · exact ⟨t', ht', rfl, rfl⟩
        · exact ⟨t, hmem, rfl, rfl⟩
      · have hids : (((s.threads i).set k
            { t with share_id_generator := t.share_id_generator + 1 }).map Thread.job_id)
            = (s.threads i).map Thread.job_id := ListSet.map_set hget rfl
        rw [hids]
        exact h.exclusive i

/-- The threads of a party but one. -/
theorem inv_eraseIdx {s : State n} (h : Inv s) (i : Fin n) (k : ℕ) :
    Inv (s.setThreads i ((s.threads i).eraseIdx k)) := by
  have hsub : ((s.threads i).eraseIdx k).Sublist (s.threads i) := List.eraseIdx_sublist _ _
  exact inv_setThreads h (fun t ht => ⟨t, hsub.subset ht, rfl, rfl⟩)
    ((h.exclusive i).sublist (hsub.map _))

/-- The id that a trigger returns is not in use any more. -/
theorem inv_endThread {s s' : State n} {sp i : Fin n} {k : ℕ} (h : Inv s)
    (hok : careful s (.endThread i k) = true) (hs : Stepped sp s (.endThread i k) s') :
    Inv s' := by
  have hinv := inv_eraseIdx h i k
  cases hs with
  | endOther => exact hinv
  | endTrigger _ _ t hget htrigger =>
      simp only [careful, hget, htrigger, runsElsewhere, Bool.not_true, Bool.false_or,
        Bool.and_eq_true, Bool.not_eq_true', decide_eq_false_iff_not, decide_eq_true_iff] at hok
      obtain ⟨hothers, hheld⟩ := hok
      have hmem : t ∈ s.threads i := List.mem_of_getElem? hget
      -- no thread is left with the id of `t`
      have hgone : ∀ j, ∀ t' ∈ (s.setThreads i ((s.threads i).eraseIdx k)).threads j,
          t'.job_id ≠ t.job_id := by
        intro j t' ht' hid
        rcases mem_update.mp ht' with ⟨-, ht'⟩ | ⟨hj, ht'⟩
        · have hnodup := h.exclusive i
          have hperm : (s.threads i).Perm (t :: (s.threads i).eraseIdx k) := by
            obtain ⟨hk, rfl⟩ := List.getElem?_eq_some_iff.mp hget
            exact (List.getElem_cons_eraseIdx_perm hk).symm
          rw [(hperm.map Thread.job_id).nodup_iff, List.map_cons, List.nodup_cons] at hnodup
          exact hnodup.1 (List.mem_map.mpr ⟨t', ht', hid⟩)
        · exact hothers ⟨j, hj, t', ht', hid⟩
      constructor
      case pool_nodup =>
        refine List.nodup_append.mpr ⟨h.pool_nodup, by simp, ?_⟩
        intro id hid id' hid'
        obtain rfl := List.mem_singleton.mp hid'
        exact fun heq => h.thread_free i t hmem (heq ▸ hid)
      case pool_le =>
        intro id hid
        rcases List.mem_append.mp hid with hid | hid
        · exact h.pool_le id hid
        · obtain rfl := List.mem_singleton.mp hid
          exact h.trigger_le i t hmem htrigger
      case held_le => exact h.held_le
      case held_free =>
        intro id hid hpool
        rcases List.mem_append.mp hpool with hpool | hpool
        · exact h.held_free id hid hpool
        · obtain rfl := List.mem_singleton.mp hpool
          exact hheld hid
      case thread_free =>
        intro j t' ht' hpool
        rcases List.mem_append.mp hpool with hpool | hpool
        · exact hinv.thread_free j t' ht' hpool
        · exact hgone j t' ht' (List.mem_singleton.mp hpool)
      case trigger_le => exact hinv.trigger_le
      case started => exact hinv.started
      case exclusive => exact hinv.exclusive

/-- The prediction id is outside the pool, and free at this party. -/
theorem inv_startPrediction {s s' : State n} {sp i : Fin n} (h : Inv s)
    (hok : careful s (.startPrediction i) = true)
    (hs : Stepped sp s (.startPrediction i) s') : Inv s' := by
  simp only [careful, decide_eq_true_iff] at hok
  have hbig : ¬ predictJobId ≤ MAX_JOB_NUM := by decide
  cases hs
  constructor
  case pool_nodup => exact h.pool_nodup
  case pool_le => exact h.pool_le
  case held_le => exact h.held_le
  case held_free => exact h.held_free
  case thread_free =>
    intro j t ht hpool
    rcases mem_threads_append ht with hold | ⟨-, rfl⟩
    · exact h.thread_free j t hold hpool
    · exact hbig (h.pool_le _ hpool)
  case trigger_le =>
    intro j t ht htrigger
    rcases mem_threads_append ht with hold | ⟨-, rfl⟩
    · exact h.trigger_le j t hold htrigger
    · exact absurd htrigger (by simp)
  case started =>
    intro m id pt b hd j t ht hid
    rcases mem_threads_append ht with hold | ⟨-, rfl⟩
    · exact h.started m id pt b hd j t hold hid
    · have hheld : id ∈ s.dispatcher.held := by
        have hd' : s.dispatcher = .sending m id pt b := hd
        simp [hd', Dispatcher.held]
      obtain rfl : predictJobId = id := hid
      exact absurd (h.held_le _ hheld) hbig
  case exclusive => exact exclusive_setThreads h.exclusive (nodup_append_thread (h.exclusive i) hok)

/-- **Careful steps keep the invariant.** -/
theorem inv_step {sp : Fin n} (s : State n) (a : Action n) (s' : State n) (h : Inv s)
    (hok : careful s a = true) (hs : step sp s a = some s') : Inv s' := by
  have hstep := step_cases hs
  cases a with
  | pushJobReq method_id =>
      cases hstep
      exact { h with }
  | pollingPopJobReq => exact inv_pollingPopJobReq h hstep
  | pollingPopJobId => exact inv_pollingPopJobId h hstep
  | asyncRun => exact inv_asyncRun h hstep
  | callOk => exact inv_callOk h hstep
  | callFail => exact inv_callFail h hok hstep
  | asyncRunLate k => cases hok
  | newAddress i k => exact inv_newAddress h hstep
  | endThread i k => exact inv_endThread h hok hstep
  | startPrediction i => exact inv_startPrediction h hok hstep

/-- Threads with different job ids build different addresses. -/
theorem addressesDisjoint_of_exclusive {s : State n} (h : JobIdsExclusive s) :
    AddressesDisjoint s := by
  intro i
  have hids := h i
  rw [List.Nodup, List.pairwise_map] at hids
  refine hids.imp fun {t t'} hne a ha ha' => hne ?_
  obtain ⟨k, -, rfl⟩ := List.mem_map.mp ha
  obtain ⟨k', -, heq⟩ := List.mem_map.mp ha'
  exact (AddressId.mk.inj heq).2.1.symm

/-- **Job ids are exclusive in every careful run**, for any number of parties, jobs
and predictions: no party ever has two unfinished computations with the same job
id, and so no two live threads of a party build the same address. -/
theorem jobIds_exclusive {sp : Fin n} {s : State n}
    (h : Reach (step sp) (fun s a => careful s a = true) (initial n) s) :
    JobIdsExclusive s ∧ AddressesDisjoint s := by
  have hinv : Inv s := h.invariant inv_initial inv_step
  exact ⟨hinv.exclusive, addressesDisjoint_of_exclusive hinv.exclusive⟩

/-! ### Two runs of three parties -/

/-- The dispatcher starts the next job of its queue at three parties. -/
def startJob : List (Action 3) :=
  [.pollingPopJobReq, .pollingPopJobId, .asyncRun, .callOk, .asyncRun, .callOk, .asyncRun, .callOk]

/-- Two jobs and a prediction live side by side at the party `0`, after a job
that has ended at all parties, the trigger last. -/
theorem jobIds_exclusive_three :
    ∃ s : State 3, ((s.threads 0).map Thread.job_id = [2, 3, 1000] ∧ s.job_id_queue = [4, 5, 1])
      ∧ JobIdsExclusive s ∧ AddressesDisjoint s := by
  let run : List (Action 3) :=
    [.pushJobReq 1, .pushJobReq 2, .pushJobReq 0] ++ startJob
      ++ [.newAddress 0 0, .endThread 2 0, .endThread 1 0, .endThread 0 0] ++ startJob ++ startJob
      ++ [.newAddress 0 0, .endThread 1 1, .startPrediction 0]
  have hrun : (exec (restrict (step 0) fun s a => careful s a = true) run (initial 3)).map
      (fun s => ((s.threads 0).map Thread.job_id, s.job_id_queue))
      = some ([2, 3, 1000], [4, 5, 1]) := by decide
  obtain ⟨s, hs, hthreads⟩ := Option.map_eq_some_iff.mp hrun
  obtain ⟨hids, hpool⟩ := Prod.mk.inj hthreads
  exact ⟨s, ⟨hids, hpool⟩, jobIds_exclusive (Reach.exec_restrict run .refl hs)⟩

/-- The party `1` is slow on the first job. The trigger of each job ends first
and returns its id; after five jobs the id `1` is handed out again, and the two
threads of the party `1` build the same address. -/
theorem jobId_reused_while_running :
    ∃ s, Reach (step (0 : Fin 3)) (fun _ _ => True) (initial 3) s
      ∧ ¬ JobIdsExclusive s ∧ ¬ AddressesDisjoint s := by
  let run : List (Action 3) :=
    List.replicate 6 (.pushJobReq 1) ++ startJob ++ [.endThread 0 0, .endThread 2 0]
      ++ (List.replicate 4 (startJob ++ [.endThread 0 0, .endThread 1 1, .endThread 2 0])).flatten
      ++ startJob ++ [.newAddress 1 0, .newAddress 1 1]
  have hrun : (exec (step 0) run (initial 3)).map
      (fun s => (decide (JobIdsExclusive s), decide (AddressesDisjoint s)))
      = some (false, false) := by decide
  obtain ⟨s, hs, hboth⟩ := Option.map_eq_some_iff.mp hrun
  obtain ⟨hids, haddr⟩ := Prod.mk.inj hboth
  exact ⟨s, .of_exec hs, of_decide_eq_false hids, of_decide_eq_false haddr⟩

end QuickMpc.JobManager
