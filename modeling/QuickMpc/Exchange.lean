import Mathlib.Data.Fin.Basic
import Mathlib.Data.List.Nodup
import Mathlib.Logic.Function.Basic
import QuickMpc.JobManager
import QuickMpc.Lib.StepSystem

/-!
# QuickMpc.Exchange

The exchange of shares between the computation containers.

A sender calls `ExchangeShare` or `ExchangeShares` at the receiver and repeats
the call until one attempt returns OK. The handler stores each value under the
sender, the share id and the job id, overwriting what is there; `getShare` waits
for its key, reads the value and erases the entry. An attempt may fail at the
sender at any time, also when its handler has stored the values, and a handler
may run after its attempt has failed.

The store cannot tell a repeated value from a new one. `exchange_delivers` says
in which runs every `getShare` still gets what the same job sent, and leaves
nothing behind.
-/

namespace QuickMpc.Exchange

open StepSystem
open QuickMpc.JobManager (AddressId)

/-! ### Messages -/

/-- An entry of a message: an address and a value. -/
abbrev Entry := AddressId × String

/-- `sizeof(AddressId)`: two `int` and one `unsigned int`. -/
def addressId_size : ℕ := 12

/-- `sizeof(s.party_id())`. -/
def partyId_size : ℕ := 4

/-- The loop of `makeShares` from the entries left, the size and the entries of
the message being filled. -/
def makeSharesFrom : List Entry → ℕ → List Entry → List (List Entry)
  | [], _, s => [s]
  | e :: rest, size, s =>
    let value_size := e.2.utf8ByteSize
    -- a new message starts as soon as this entry would pass 1 MB
    if size + value_size + addressId_size + partyId_size > 1000000 then
      s :: makeSharesFrom rest (0 + value_size + addressId_size) [e]
    else
      makeSharesFrom rest (size + value_size + addressId_size) (s ++ [e])

/-- `makeShares`: the messages of one `ExchangeShares` stream. -/
def makeShares (entries : List Entry) : List (List Entry) := makeSharesFrom entries 0 []

theorem makeSharesFrom_flatten (entries : List Entry) (size : ℕ) (s : List Entry) :
    (makeSharesFrom entries size s).flatten = s ++ entries := by
  induction entries generalizing size s with
  | nil => simp [makeSharesFrom]
  | cons e rest ih =>
      rw [makeSharesFrom]
      split
      · rw [List.flatten_cons, ih]
        rfl
      · rw [ih, List.append_assoc]
        rfl

/-- Splitting into messages loses and reorders nothing. -/
theorem makeShares_flatten (entries : List Entry) : (makeShares entries).flatten = entries :=
  makeSharesFrom_flatten entries 0 []

/-! ### Model -/

variable {n : ℕ}

/-- A call of `exchangeShare` or `exchangeShares`. -/
structure Call (n : ℕ) where
  /-- The computation that makes the call, as its index among all so far. -/
  run : ℕ
  sender : Fin n
  receiver : Fin n
  entries : List Entry
  /-- The call is an `exchangeShares`. -/
  multiple : Bool
  deriving DecidableEq, Repr

/-- The messages of one attempt. -/
def Call.messages (c : Call n) : List (List Entry) :=
  if c.multiple then makeShares c.entries else [c.entries]

theorem Call.messages_flatten (c : Call n) : c.messages.flatten = c.entries := by
  unfold Call.messages
  split
  · exact makeShares_flatten c.entries
  · exact List.append_nil _

inductive CallStatus
  /-- Before this attempt. -/
  | waiting (attempt : ℕ)
  /-- In this attempt; `served` says whether its handler has read every message. -/
  | calling (attempt : ℕ) (served : Bool)
  | returned
  deriving DecidableEq, Repr

/-- The key of the map `shares`: the sender and the address. -/
abbrev Key (n : ℕ) := Fin n × AddressId

/-- `Server::shares`, the map of one party. -/
abbrev Store (n : ℕ) := List (Key n × String)

def Store.find (shares : Store n) (key : Key n) : Option String :=
  (List.find? (fun e => e.1 = key) shares).map Prod.snd

def Store.erase (shares : Store n) (key : Key n) : Store n :=
  List.filter (fun e => e.1 ≠ key) shares

def Store.insert (shares : Store n) (key : Key n) (value : String) : Store n :=
  (key, value) :: shares.erase key

/-- What a handler does with the entries it has read. -/
def Store.insertAll (shares : Store n) (party_id : Fin n) : List Entry → Store n
  | [] => shares
  | e :: rest => (shares.insert (party_id, e.1) e.2).insertAll party_id rest

/-- A value that `getShare` has returned, with the computation that asked. -/
structure Fetch (n : ℕ) where
  receiver : Fin n
  run : ℕ
  sender : Fin n
  address : AddressId
  value : String
  deriving DecidableEq, Repr

/-- What was asked for. -/
def Fetch.request (f : Fetch n) : Fin n × ℕ × Key n := (f.receiver, f.run, f.sender, f.address)

structure State (n : ℕ) where
  /-- The job id of each computation started so far. -/
  jobs : List ℕ
  /-- The threads that have ended, as party and computation. -/
  ended : List (Fin n × ℕ)
  calls : List (Call n)
  status : ℕ → CallStatus
  /-- The attempts whose handler has not run, as call and attempt number. -/
  inflight : List (ℕ × ℕ)
  shares : Fin n → Store n
  fetched : List (Fetch n)

def initial (n : ℕ) : State n where
  jobs := []
  ended := []
  calls := []
  status _ := .waiting 0
  inflight := []
  shares _ := []
  fetched := []

/-- The thread of this computation at party `i` has not ended. -/
def State.Live (s : State n) (i : Fin n) (run : ℕ) : Prop :=
  run < s.jobs.length ∧ (i, run) ∉ s.ended

instance (s : State n) (i : Fin n) (run : ℕ) : Decidable (s.Live i run) :=
  inferInstanceAs (Decidable (_ ∧ _))

/-- Some party still runs this computation. -/
def State.Running (s : State n) (run : ℕ) : Prop := ∃ i, s.Live i run

instance (s : State n) (run : ℕ) : Decidable (s.Running run) :=
  inferInstanceAs (Decidable (∃ _, _))

/-- What the party `sender` has sent to `receiver` in one computation. -/
def State.sent (s : State n) (run : ℕ) (sender receiver : Fin n) : List Entry :=
  (s.calls.filter fun c => c.run = run ∧ c.sender = sender ∧ c.receiver = receiver).flatMap
    Call.entries

inductive Action (n : ℕ)
  /-- A computation starts at every party, with this job id. -/
  | startJob (job_id : ℕ)
  | exchangeShare (run : ℕ) (sender receiver : Fin n) (share_id : ℕ) (value : String)
  | exchangeShares (run : ℕ) (sender receiver : Fin n) (shares : List (ℕ × String))
  /-- The sender starts the next attempt of call `c`. -/
  | attempt (c : ℕ)
  /-- The handler of the `k`-th message in flight reads `p` messages. -/
  | handler (k p : ℕ)
  | callOk (c : ℕ)
  | callFail (c : ℕ)
  /-- One `getShare`, or one round of the loop of `getShares`. -/
  | getShare (receiver : Fin n) (run : ℕ) (sender : Fin n) (share_id : ℕ)
  /-- The thread of a computation ends at party `i`. -/
  | endThread (i : Fin n) (run : ℕ)
  deriving DecidableEq, Repr

/-- A thread that has not ended makes a call, of shares it has not sent yet. -/
def State.addCall (s : State n) (c : Call n) : Option (State n) :=
  if s.Live c.sender c.run ∧ c.sender ≠ c.receiver
      ∧ ((s.sent c.run c.sender c.receiver ++ c.entries).map Prod.fst).Nodup then
    some { s with calls := s.calls ++ [c] }
  else none

/-- The address of the `share_id`-th share of a job. -/
def address (job_id share_id : ℕ) : AddressId := ⟨share_id, job_id, 0⟩

/-- One step of the parties and the network. Job ids of live computations are
distinct (the guard of `startJob`). -/
def step (s : State n) : Action n → Option (State n)
  | .startJob job_id =>
    if ∀ run < s.jobs.length, s.Running run → s.jobs[run]? ≠ some job_id then
      some { s with jobs := s.jobs ++ [job_id] }
    else none
  | .exchangeShare run sender receiver share_id value =>
    match s.jobs[run]? with
    | some job_id =>
      s.addCall ⟨run, sender, receiver, [(address job_id share_id, value)], false⟩
    | none => none
  | .exchangeShares run sender receiver shares =>
    match s.jobs[run]? with
    | some job_id =>
      s.addCall ⟨run, sender, receiver, shares.map fun e => (address job_id e.1, e.2), true⟩
    | none => none
  | .attempt c =>
    match s.calls[c]?, s.status c with
    | some _, .waiting a =>
      some { s with
        status := Function.update s.status c (.calling a false)
        inflight := s.inflight ++ [(c, a)] }
    | _, _ => none
  | .handler k p =>
    match s.inflight[k]? with
    | some (c, a) =>
      match s.calls[c]? with
      | some call =>
        some { s with
          inflight := s.inflight.eraseIdx k
          shares := Function.update s.shares call.receiver
            ((s.shares call.receiver).insertAll call.sender (call.messages.take p).flatten)
          status := if s.status c = .calling a false ∧ call.messages.length ≤ p then
              Function.update s.status c (.calling a true)
            else s.status }
      | none => none
    | none => none
  | .callOk c =>
    match s.status c with
    | .calling _ true => some { s with status := Function.update s.status c .returned }
    | _ => none
  | .callFail c =>
    match s.status c with
    | .calling a _ => some { s with status := Function.update s.status c (.waiting (a + 1)) }
    | _ => none
  | .getShare receiver run sender share_id =>
    match s.jobs[run]? with
    | some job_id =>
      if s.Live receiver run then
        let key : Key n := (sender, address job_id share_id)
        match (s.shares receiver).find key with
        | some value =>
          some { s with
            shares := Function.update s.shares receiver ((s.shares receiver).erase key)
            fetched := s.fetched ++ [⟨receiver, run, sender, address job_id share_id, value⟩] }
        | none => none
      else none
    | none => none
  | .endThread i run =>
    -- a thread does not end inside a call
    if s.Live i run ∧ ∀ c < s.calls.length, ∀ call ∈ s.calls[c]?,
        call.run = run → call.sender = i → s.status c = .returned then
      some { s with ended := (i, run) :: s.ended }
    else none

/-! ### Delivery -/

/-- Every `getShare` has returned what the same computation sent for this
share, and only that. -/
def Delivered (s : State n) : Prop :=
  ∀ f ∈ s.fetched, ∀ value,
    (f.address, value) ∈ s.sent f.run f.sender f.receiver ↔ value = f.value

/-- No share is fetched twice by the same computation. -/
def FetchedOnce (s : State n) : Prop := (s.fetched.map Fetch.request).Nodup

/-- Once a party has fetched all that was sent to it in a computation, its store
holds no entry with that job id (unless a later job uses the id). -/
def Emptied (s : State n) : Prop :=
  ∀ run job_id, s.jobs[run]? = some job_id →
    (∀ run', s.Running run' → s.jobs[run']? = some job_id → run' = run) →
    ∀ i, (∀ sender, ∀ e ∈ s.sent run sender i,
        (i, run, sender, e.1) ∈ s.fetched.map Fetch.request) →
      ∀ e ∈ s.shares i, e.1.2.job_id ≠ job_id

/-- The steps that leave no stale entry: a handler stores only shares that the
thread of the same computation is still to fetch, and a thread ends only when
its store holds nothing for it. -/
def careful (s : State n) : Action n → Bool
  | .handler k p =>
    match s.inflight[k]? with
    | some (c, _) =>
      match s.calls[c]? with
      | some call =>
        decide (s.Live call.receiver call.run) &&
          decide (∀ e ∈ (call.messages.take p).flatten,
            (call.receiver, call.run, call.sender, e.1) ∉ s.fetched.map Fetch.request)
      | none => true
    | none => true
  | .endThread i run =>
    decide (∀ e ∈ s.shares i, s.jobs[run]? ≠ some e.1.2.job_id)
  | _ => true

/-- What careful runs preserve. The heart is `stored`: every stored value was
sent by a computation that its receiver still runs, and is not fetched yet. -/
structure Inv (s : State n) : Prop where
  stored : ∀ i, ∀ e ∈ s.shares i, ∃ run, s.Live i run ∧ (e.1.2, e.2) ∈ s.sent run e.1.1 i
    ∧ (i, run, e.1) ∉ s.fetched.map Fetch.request
  delivered : ∀ f ∈ s.fetched, (f.address, f.value) ∈ s.sent f.run f.sender f.receiver
  fetchedOnce : FetchedOnce s
  sent_job : ∀ run sender receiver, ∀ e ∈ s.sent run sender receiver,
    s.jobs[run]? = some e.1.job_id
  sent_once : ∀ run sender receiver, ((s.sent run sender receiver).map Prod.fst).Nodup
  running_distinct : ∀ run run' job_id, s.jobs[run]? = some job_id → s.jobs[run']? = some job_id →
    s.Running run → s.Running run' → run = run'

theorem inv_initial : Inv (initial n) where
  stored := by simp [initial]
  delivered := by simp [initial]
  fetchedOnce := by simp [FetchedOnce, initial]
  sent_job := by simp [State.sent, initial]
  sent_once := by simp [State.sent, initial]
  running_distinct := by simp [initial]

/-! ### The store -/

theorem Store.mem_of_find {shares : Store n} {key : Key n} {value : String}
    (h : shares.find key = some value) : (key, value) ∈ shares := by
  obtain ⟨e, he, rfl⟩ := Option.map_eq_some_iff.mp h
  obtain rfl : e.1 = key := by simpa using List.find?_some he
  exact List.mem_of_find?_eq_some he

theorem Store.mem_erase {shares : Store n} {key : Key n} {e : Key n × String} :
    e ∈ shares.erase key ↔ e ∈ shares ∧ e.1 ≠ key := by
  simp [Store.erase]

/-- What is in the store after a handler was there before or is one of the
handler's entries. -/
theorem Store.mem_insertAll {party_id : Fin n} {e : Key n × String} (entries : List Entry) :
    ∀ {shares : Store n}, e ∈ shares.insertAll party_id entries →
      e ∈ shares ∨ e.1.1 = party_id ∧ (e.1.2, e.2) ∈ entries := by
  induction entries with
  | nil =>
      intro shares h
      exact .inl h
  | cons e' rest ih =>
      intro shares h
      rcases ih h with hmem | ⟨hparty, hmem⟩
      · rcases List.mem_cons.mp hmem with rfl | hold
        · exact .inr ⟨rfl, List.mem_cons_self⟩
        · exact .inl (Store.mem_erase.mp hold).1
      · exact .inr ⟨hparty, List.mem_cons_of_mem _ hmem⟩

/-! ### The steps -/

/-- The invariant reads the jobs, the calls, the ended threads, the stores and
the fetches only. -/
theorem Inv.of_eq {s s' : State n} (h : Inv s) (hjobs : s'.jobs = s.jobs)
    (hended : s'.ended = s.ended) (hcalls : s'.calls = s.calls) (hshares : s'.shares = s.shares)
    (hfetched : s'.fetched = s.fetched) : Inv s' := by
  obtain ⟨jobs, ended, calls, status, inflight, shares, fetched⟩ := s
  obtain ⟨jobs', ended', calls', status', inflight', shares', fetched'⟩ := s'
  simp only at hjobs hended hcalls hshares hfetched
  subst hjobs hended hcalls hshares hfetched
  exact { h with }

theorem inv_startJob {s s' : State n} {job_id : ℕ} (h : Inv s)
    (hs : step s (.startJob job_id) = some s') : Inv s' := by
  simp only [step] at hs
  split at hs
  · rename_i hfresh
    obtain rfl := Option.some.inj hs
    have hget : ∀ run, run < s.jobs.length → (s.jobs ++ [job_id])[run]? = s.jobs[run]? :=
      fun run hrun => List.getElem?_append_left hrun
    have hlt : ∀ run id, s.jobs[run]? = some id → run < s.jobs.length :=
      fun run id hid => (List.getElem?_eq_some_iff.mp hid).1
    -- an old computation has another id than the new one
    have hold : ∀ run id, (s.jobs ++ [job_id])[run]? = some id →
        State.Running { s with jobs := s.jobs ++ [job_id] } run →
        run < s.jobs.length ∧ s.jobs[run]? = some id ∧ s.Running run ∧ id ≠ job_id
          ∨ run = s.jobs.length ∧ id = job_id := by
      intro run id hid hrunning
      by_cases hrun : run < s.jobs.length
      · obtain ⟨i, -, hi⟩ := hrunning
        have hrunning' : s.Running run := ⟨i, hrun, hi⟩
        rw [hget run hrun] at hid
        refine .inl ⟨hrun, hid, hrunning', ?_⟩
        intro heq
        subst heq
        exact hfresh run hrun hrunning' hid
      · obtain ⟨hlt', -⟩ := List.getElem?_eq_some_iff.mp hid
        have hrun' : run = s.jobs.length := by
          rw [List.length_append, List.length_singleton] at hlt'
          omega
        subst hrun'
        exact .inr ⟨rfl, by simpa using hid.symm⟩
    constructor
    case stored =>
      intro i e he
      obtain ⟨run, ⟨hrun, hi⟩, hsent, hnew⟩ := h.stored i e he
      refine ⟨run, ⟨?_, hi⟩, hsent, hnew⟩
      exact Nat.lt_of_lt_of_le hrun (by simp)
    case delivered => exact h.delivered
    case fetchedOnce => exact h.fetchedOnce
    case sent_job =>
      intro run sender receiver e he
      have hjob := h.sent_job run sender receiver e he
      rw [← hjob]
      exact hget run (hlt run _ hjob)
    case sent_once => exact h.sent_once
    case running_distinct =>
      intro run run' id hid hid' hrunning hrunning'
      rcases hold run id hid hrunning with ⟨-, h₁, hr₁, hne₁⟩ | ⟨rfl, rfl⟩
      · rcases hold run' id hid' hrunning' with ⟨-, h₂, hr₂, -⟩ | ⟨-, rfl⟩
        · exact h.running_distinct run run' id h₁ h₂ hr₁ hr₂
        · exact absurd rfl hne₁
      · rcases hold run' id hid' hrunning' with ⟨-, -, -, hne₂⟩ | ⟨rfl, -⟩
        · exact absurd rfl hne₂
        · rfl
  · exact absurd hs (by simp)

/-- A call adds what it sends to what its sender has sent. -/
theorem sent_addCall (s : State n) (c : Call n) (run : ℕ) (sender receiver : Fin n) :
    State.sent { s with calls := s.calls ++ [c] } run sender receiver
      = s.sent run sender receiver
        ++ if c.run = run ∧ c.sender = sender ∧ c.receiver = receiver then c.entries else [] := by
  unfold State.sent
  rw [List.filter_append, List.flatMap_append]
  congr 1
  by_cases hc : c.run = run ∧ c.sender = sender ∧ c.receiver = receiver
  · rw [if_pos hc]
    simp [hc]
  · rw [if_neg hc]
    simp [hc]

theorem inv_addCall {s s' : State n} {c : Call n} (h : Inv s)
    (hjob : ∀ e ∈ c.entries, s.jobs[c.run]? = some e.1.job_id) (hs : s.addCall c = some s') :
    Inv s' := by
  unfold State.addCall at hs
  split at hs
  · rename_i hguard
    obtain ⟨-, -, hnodup⟩ := hguard
    obtain rfl := Option.some.inj hs
    have hmono : ∀ {run sender receiver e}, e ∈ s.sent run sender receiver →
        e ∈ State.sent { s with calls := s.calls ++ [c] } run sender receiver := by
      intro run sender receiver e he
      rw [sent_addCall]
      exact List.mem_append_left _ he
    constructor
    case stored =>
      intro i e he
      obtain ⟨run, hlive, hsent, hnew⟩ := h.stored i e he
      exact ⟨run, hlive, hmono hsent, hnew⟩
    case delivered => exact fun f hf => hmono (h.delivered f hf)
    case fetchedOnce => exact h.fetchedOnce
    case sent_job =>
      intro run sender receiver e he
      rw [sent_addCall] at he
      rcases List.mem_append.mp he with he | he
      · exact h.sent_job run sender receiver e he
      · split at he
        · rename_i hc
          exact hc.1 ▸ hjob e he
        · exact absurd he List.not_mem_nil
    case sent_once =>
      intro run sender receiver
      rw [sent_addCall]
      split
      · rename_i hc
        obtain ⟨rfl, rfl, rfl⟩ := hc
        exact hnodup
      · rw [List.append_nil]
        exact h.sent_once run sender receiver
    case running_distinct => exact h.running_distinct
  · exact absurd hs (by simp)

/-- A handler that stores what is still to be fetched. -/
theorem inv_handler {s s' : State n} {k p : ℕ} (h : Inv s)
    (hok : careful s (.handler k p) = true) (hs : step s (.handler k p) = some s') : Inv s' := by
  simp only [step] at hs
  split at hs
  · rename_i c a hmsg
    split at hs
    · rename_i call hcall
      simp only [careful, hmsg, hcall, Bool.and_eq_true, decide_eq_true_iff] at hok
      obtain ⟨hlive, hnew⟩ := hok
      obtain rfl := Option.some.inj hs
      have hsent : ∀ e ∈ (call.messages.take p).flatten,
          e ∈ s.sent call.run call.sender call.receiver := by
        intro e he
        have hentry : e ∈ call.entries := by
          obtain ⟨message, hmessage, he⟩ := List.mem_flatten.mp he
          rw [← call.messages_flatten]
          exact List.mem_flatten.mpr ⟨message, List.mem_of_mem_take hmessage, he⟩
        refine List.mem_flatMap.mpr ⟨call, ?_, hentry⟩
        exact List.mem_filter.mpr ⟨List.mem_of_getElem? hcall, by simp⟩
      constructor
      case stored =>
        intro i e he
        rcases mem_update.mp he with ⟨rfl, hafter⟩ | ⟨-, hsame⟩
        · rcases Store.mem_insertAll _ hafter with hold | ⟨hparty, hmem⟩
          · exact h.stored _ e hold
          · obtain ⟨⟨sender, addr⟩, value⟩ := e
            obtain rfl : sender = call.sender := hparty
            exact ⟨call.run, hlive, hsent _ hmem, hnew _ hmem⟩
        · exact h.stored i e hsame
      case delivered => exact h.delivered
      case fetchedOnce => exact h.fetchedOnce
      case sent_job => exact h.sent_job
      case sent_once => exact h.sent_once
      case running_distinct => exact h.running_distinct
    · exact absurd hs (by simp)
  · exact absurd hs (by simp)

/-- The fetched value was sent by the computation that asks for it: no other
live one has its job id. -/
theorem inv_getShare {s s' : State n} {receiver sender : Fin n} {run share_id : ℕ} (h : Inv s)
    (hs : step s (.getShare receiver run sender share_id) = some s') : Inv s' := by
  simp only [step] at hs
  split at hs
  · rename_i job_id hjob
    split at hs
    · rename_i hlive
      split at hs
      · rename_i value hfind
        obtain rfl := Option.some.inj hs
        let key : Key n := (sender, address job_id share_id)
        have hmem : (key, value) ∈ s.shares receiver := Store.mem_of_find hfind
        obtain ⟨run', hlive', hsent, hnew⟩ := h.stored receiver _ hmem
        obtain rfl : run' = run :=
          h.running_distinct run' run job_id (h.sent_job _ _ _ _ hsent) hjob
            ⟨receiver, hlive'⟩ ⟨receiver, hlive⟩
        constructor
        case stored =>
          intro i e he
          -- `e` was there before, and is not what has just been fetched
          have hold : e ∈ s.shares i ∧ ¬ (i = receiver ∧ e.1 = key) := by
            rcases mem_update.mp he with ⟨rfl, hafter⟩ | ⟨hi, hsame⟩
            · obtain ⟨hold, hne⟩ := Store.mem_erase.mp hafter
              exact ⟨hold, fun hboth => hne hboth.2⟩
            · exact ⟨hsame, fun hboth => hi hboth.1⟩
          obtain ⟨run, hlive₁, hsent₁, hnew₁⟩ := h.stored i e hold.1
          refine ⟨run, hlive₁, hsent₁, ?_⟩
          rw [List.map_append, List.mem_append]
          intro h'
          rcases h' with hfetched | hfetched
          · exact hnew₁ hfetched
          · have heq : (i, run, e.1) = (receiver, run', key) := List.mem_singleton.mp hfetched
            obtain ⟨hi, hrest⟩ := Prod.mk.inj heq
            exact hold.2 ⟨hi, (Prod.mk.inj hrest).2⟩
        case delivered =>
          intro f hf
          rcases List.mem_append.mp hf with hf | hf
          · exact h.delivered f hf
          · obtain rfl := List.mem_singleton.mp hf
            exact hsent
        case fetchedOnce =>
          show (List.map Fetch.request (s.fetched ++ [_])).Nodup
          rw [List.map_append, List.nodup_append]
          refine ⟨h.fetchedOnce, by simp, ?_⟩
          intro r hr r' hr' heq
          obtain rfl := List.mem_singleton.mp hr'
          rw [heq] at hr
          exact hnew hr
        case sent_job => exact h.sent_job
        case sent_once => exact h.sent_once
        case running_distinct => exact h.running_distinct
      · exact absurd hs (by simp)
    · exact absurd hs (by simp)
  · exact absurd hs (by simp)

/-- Nothing is left in the store for a thread that ends. -/
theorem inv_endThread {s s' : State n} {i : Fin n} {run : ℕ} (h : Inv s)
    (hok : careful s (.endThread i run) = true) (hs : step s (.endThread i run) = some s') :
    Inv s' := by
  simp only [careful, decide_eq_true_iff] at hok
  simp only [step] at hs
  split at hs
  · obtain rfl := Option.some.inj hs
    have hlive : ∀ {j run'}, State.Live { s with ended := (i, run) :: s.ended } j run' →
        s.Live j run' := fun hl => ⟨hl.1, fun hmem => hl.2 (List.mem_cons_of_mem _ hmem)⟩
    constructor
    case stored =>
      intro j e he
      obtain ⟨run', ⟨hrun', hnot⟩, hsent, hnew⟩ := h.stored j e he
      refine ⟨run', ⟨hrun', ?_⟩, hsent, hnew⟩
      intro hmem
      rcases List.mem_cons.mp hmem with heq | hmem
      · obtain ⟨rfl, rfl⟩ := Prod.mk.inj heq
        exact hok e he (h.sent_job _ _ _ _ hsent)
      · exact hnot hmem
    case delivered => exact h.delivered
    case fetchedOnce => exact h.fetchedOnce
    case sent_job => exact h.sent_job
    case sent_once => exact h.sent_once
    case running_distinct =>
      rintro run₁ run₂ job_id h₁ h₂ ⟨j₁, hl₁⟩ ⟨j₂, hl₂⟩
      exact h.running_distinct run₁ run₂ job_id h₁ h₂ ⟨j₁, hlive hl₁⟩ ⟨j₂, hlive hl₂⟩
  · exact absurd hs (by simp)

/-- **Careful steps keep the invariant.** -/
theorem inv_step (s : State n) (a : Action n) (s' : State n) (h : Inv s)
    (hok : careful s a = true) (hs : step s a = some s') : Inv s' := by
  cases a with
  | startJob job_id => exact inv_startJob h hs
  | exchangeShare run sender receiver share_id value =>
      simp only [step] at hs
      split at hs
      · rename_i job_id hjob
        refine inv_addCall h ?_ hs
        intro e he
        obtain rfl := List.mem_singleton.mp he
        exact hjob
      · exact absurd hs (by simp)
  | exchangeShares run sender receiver shares =>
      simp only [step] at hs
      split at hs
      · rename_i job_id hjob
        refine inv_addCall h ?_ hs
        intro e he
        obtain ⟨e', -, rfl⟩ := List.mem_map.mp he
        exact hjob
      · exact absurd hs (by simp)
  | attempt c =>
      simp only [step] at hs
      split at hs
      · obtain rfl := Option.some.inj hs
        exact h.of_eq rfl rfl rfl rfl rfl
      · exact absurd hs (by simp)
  | handler k p => exact inv_handler h hok hs
  | callOk c =>
      simp only [step] at hs
      split at hs
      · obtain rfl := Option.some.inj hs
        exact h.of_eq rfl rfl rfl rfl rfl
      · exact absurd hs (by simp)
  | callFail c =>
      simp only [step] at hs
      split at hs
      · obtain rfl := Option.some.inj hs
        exact h.of_eq rfl rfl rfl rfl rfl
      · exact absurd hs (by simp)
  | getShare receiver run sender share_id => exact inv_getShare h hs
  | endThread i run => exact inv_endThread h hok hs

theorem delivered_of_inv {s : State n} (h : Inv s) : Delivered s := by
  intro f hf value
  have hsent := h.delivered f hf
  constructor
  · intro hvalue
    have hsame := List.inj_on_of_nodup_map (h.sent_once _ _ _) hvalue hsent rfl
    exact (Prod.mk.inj hsame).2
  · intro heq
    subst heq
    exact hsent

/-- A stored value of the job belongs to the computation itself, and is still to
be fetched. -/
theorem emptied_of_inv {s : State n} (h : Inv s) : Emptied s := by
  rintro run job_id hjob honly i hall e he rfl
  obtain ⟨run', hlive, hsent, hnew⟩ := h.stored i e he
  obtain rfl : run' = run := honly run' ⟨i, hlive⟩ (h.sent_job _ _ _ _ hsent)
  exact hnew (hall e.1.1 _ hsent)

/-- **Every share reaches the right computation, once**, in every careful run, for any number of
parties and computations, with repeated messages and handlers that run late: a computation
fetches the value that was sent in it for the share, and no share twice; and once it has fetched
all that was sent to it, the party stores nothing more for its job id. -/
theorem exchange_delivers {s : State n}
    (h : Reach step (fun s a => careful s a = true) (initial n) s) :
    Delivered s ∧ FetchedOnce s ∧ Emptied s := by
  have hinv : Inv s := h.invariant inv_initial inv_step
  exact ⟨delivered_of_inv hinv, hinv.fetchedOnce, emptied_of_inv hinv⟩

/-! ### Two runs of three parties -/

/-- Every party opens the share `0` of a computation: the calls of `open`. -/
def openShare (run : ℕ) (value : Fin 3 → String) : List (Action 3) :=
  [(0, 1), (0, 2), (1, 0), (1, 2), (2, 0), (2, 1)].map fun p =>
    .exchangeShare run p.1 p.2 0 (value p.1)

/-- An attempt that succeeds, with no other message in flight. -/
def deliver (c : ℕ) : List (Action 3) := [.attempt c, .handler 0 1, .callOk c]

/-- An attempt that fails after its handler has run. -/
def deliverFail (c : ℕ) : List (Action 3) := [.attempt c, .handler 0 1, .callFail c]

/-- What `recons` asks for at party `i`. -/
def reconsShare (run : ℕ) (i : Fin 3) : List (Action 3) :=
  [.getShare i run (i + 1) 0, .getShare i run (i + 2) 0]

/-- Two jobs with the id `1`, one after the other. The repeated call of the
first job arrives before the value is fetched. -/
theorem exchange_delivers_three :
    ∃ s : State 3, (s.jobs = [1, 1] ∧ s.fetched.length = 8)
      ∧ Delivered s ∧ FetchedOnce s ∧ Emptied s := by
  let run : List (Action 3) :=
    [.startJob 1] ++ openShare 0 (fun i => ["10", "11", "12"].get i)
      ++ deliverFail 0 ++ [0, 1, 2, 3, 4, 5].flatMap deliver
      ++ [0, 1, 2].flatMap (reconsShare 0) ++ [0, 1, 2].map (.endThread · 0)
      ++ [.startJob 1, .exchangeShares 1 0 1 [(0, "20"), (1, "21")]] ++ deliver 6
      ++ [.getShare 1 1 0 0, .getShare 1 1 0 1]
  have hrun : (exec (restrict step fun s a => careful s a = true) run (initial 3)).map
      (fun s => (s.jobs, s.fetched.length)) = some ([1, 1], 8) := by decide
  obtain ⟨s, hs, hparts⟩ := Option.map_eq_some_iff.mp hrun
  obtain ⟨hjobs, hfetched⟩ := Prod.mk.inj hparts
  exact ⟨s, ⟨hjobs, hfetched⟩, exchange_delivers (Reach.exec_restrict run .refl hs)⟩

/-- The first job of `exchange_stale`: the call of party `0` to party `1` fails
after its handler has run, and is repeated after party `1` has fetched the
value. -/
def staleJob : List (Action 3) :=
  [.startJob 1] ++ openShare 0 (fun i => ["10", "11", "12"].get i)
    ++ [1, 2, 3, 4, 5].flatMap deliver ++ deliverFail 0 ++ reconsShare 0 1 ++ deliver 0
    ++ reconsShare 0 0 ++ reconsShare 0 2

/-- A value stored again after it was fetched stays in the store when all is
fetched, and the next job with the same id reads it: the party `1` gets `10`
from the party `0`, which has sent `20`. -/
theorem exchange_stale :
    (∃ s : State 3, Reach step (fun _ _ => True) (initial 3) s ∧ ¬ Emptied s)
      ∧ ∃ s : State 3, Reach step (fun _ _ => True) (initial 3) s ∧ ¬ Delivered s := by
  constructor
  · have hrun : (exec step staleJob (initial 3)).map
        (fun s => (s.jobs, s.shares 1,
          decide (∀ sender, ∀ e ∈ s.sent 0 sender 1,
            ((1 : Fin 3), 0, sender, e.1) ∈ s.fetched.map Fetch.request)))
        = some ([1], [((0, address 1 0), "10")], true) := by decide
    obtain ⟨s, hs, hparts⟩ := Option.map_eq_some_iff.mp hrun
    obtain ⟨hjobs, hrest⟩ := Prod.mk.inj hparts
    obtain ⟨hshares, hall⟩ := Prod.mk.inj hrest
    refine ⟨s, .of_exec hs, fun hemptied => ?_⟩
    refine hemptied 0 1 (by rw [hjobs]; rfl) ?_ 1 (of_decide_eq_true hall)
      ((0, address 1 0), "10") (by rw [hshares]; exact List.mem_singleton_self _) rfl
    intro run' _ hrun'
    rw [hjobs, List.getElem?_singleton] at hrun'
    split at hrun'
    · assumption
    · exact absurd hrun' (by simp)
  · let run : List (Action 3) :=
      staleJob ++ [0, 1, 2].map (.endThread · 0)
        ++ [.startJob 1] ++ openShare 1 (fun i => ["20", "21", "22"].get i)
        ++ [8, 9].flatMap deliver ++ [.getShare 1 1 0 0]
    have hrun : (exec step run (initial 3)).map
        (fun s => (s.fetched.getLast?, s.sent 1 0 1))
        = some (some ⟨1, 1, 0, address 1 0, "10"⟩, [(address 1 0, "20")]) := by decide
    obtain ⟨s, hs, hparts⟩ := Option.map_eq_some_iff.mp hrun
    obtain ⟨hlast, hsent⟩ := Prod.mk.inj hparts
    refine ⟨s, .of_exec hs, fun hdelivered => ?_⟩
    have hmem := (hdelivered _ (List.mem_of_getLast? hlast) "10").mpr rfl
    rw [hsent] at hmem
    exact absurd hmem (by decide)

end QuickMpc.Exchange
