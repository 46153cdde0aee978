import Mathlib.Algebra.BigOperators.Group.Finset.Basic
import Mathlib.Algebra.Order.BigOperators.Group.Finset
import QuickMpc.CondCount
import QuickMpc.Registration.SendShares

/-!
# QuickMpc.SyncBarrier

`Client.Sync` between the management containers, message by message, for any number
of parties, calls and sync ids.

A call sends its sync id to the other parties, one after the other, and then waits
in `Wait`. The server that receives the id calls `increment`. An attempt can fail at
the sender at any time; then it is repeated or the call is given up, whether or not
the message arrives. The sync id is the data id followed by the piece id.

`Wait` counts messages and not parties. Under `orderly` it is a barrier (`Barrier`):
no attempt is repeated whose message arrives, no `Wait` deletes a count that an increment
has loaded and is going to store, a party calls `Sync` again for a sync id only when
its earlier calls have returned, and the parties use a sync id for the same pieces,
in the same order.
-/

namespace QuickMpc.SyncBarrier

open StepSystem
open Registration (Key others mem_others nodup_others)

variable {n : ℕ}

/-- Where a call of `Client.Sync` is. -/
inductive Phase (n : ℕ)
  /-- Sending to the parties left. -/
  | sending (rest : List (Fin n))
  /-- Sent to the party `j`, without an answer yet. -/
  | awaiting (j : Fin n) (rest : List (Fin n))
  /-- In `Wait`. -/
  | waiting
  /-- Given up with the sender's error. -/
  | failed
  deriving DecidableEq, Repr

/-- `fmt.Sprintf("%s%d", dataID, pieceID)`. -/
def syncID (doc : Key) : String := doc.data_id ++ toString doc.piece_id

/-- A call of `Client.Sync` by `SendShares`, for a piece. -/
structure Call (n : ℕ) where
  doc : Key
  /-- A `Sync` message of the call has been sent. -/
  sent : Bool
  phase : Phase n
  deriving DecidableEq, Repr

/-- What an increment is for: the calling party, the index of its call and the key. -/
abbrev Token (n : ℕ) := (Fin n × ℕ) × String

structure State (n : ℕ) where
  calls : Fin n → List (Call n)
  /-- The messages on their way, with their receivers. -/
  network : List (Fin n × Token n)
  containers : Fin n → CondCount.State (Fin n × ℕ)

def initial (n : ℕ) : State n where
  calls := fun _ => []
  network := []
  containers := fun _ => .initial

inductive Action (n : ℕ)
  /-- `SendShares` calls `Sync` at party `i`. -/
  | sync (i : Fin n) (doc : Key)
  /-- The call `c` of party `i` sends its next message, or enters `Wait`. -/
  | send (i : Fin n) (c : ℕ)
  | lose (k : ℕ)
  | deliver (k : ℕ)
  /-- The server's answer arrives. -/
  | reply (i : Fin n) (c : ℕ)
  /-- The sender gets an error, and tries again or gives up. -/
  | fail (i : Fin n) (c : ℕ) (again : Bool)
  | lockInc (i : Fin n) (k : ℕ)
  | incStep (i : Fin n)
  | waitStep (i : Fin n) (c : ℕ)

namespace State

def addCall (s : State n) (i : Fin n) (call : Call n) : State n :=
  { s with calls := Function.update s.calls i (s.calls i ++ [call]) }

def setCall (s : State n) (i : Fin n) (c : ℕ) (call : Call n) : State n :=
  { s with calls := Function.update s.calls i ((s.calls i).set c call) }

def setContainer (s : State n) (i : Fin n) (cs : CondCount.State (Fin n × ℕ)) : State n :=
  { s with containers := Function.update s.containers i cs }

/-- `Sync` is called. -/
def start (s : State n) (i : Fin n) (doc : Key) : State n :=
  let cs := s.containers i
  (s.addCall i ⟨doc, false, .sending (others i)⟩).setContainer i
    { cs with waits := cs.waits ++ [(syncID doc, .load)] }

/-- What has been sent to party `i` and was not lost. -/
def tokens (s : State n) (i : Fin n) : List (Token n) :=
  (s.network.filter fun m => m.1 = i).map Prod.snd ++ (s.containers i).called

/-- The calls of party `j` for a sync id, in order. -/
def callsFor (s : State n) (j : Fin n) (key : String) : List (Call n) :=
  (s.calls j).filter fun call => syncID call.doc = key

end State

/-- One step of the containers. -/
def step (s : State n) : Action n → Option (State n)
  | .sync i doc => some (s.start i doc)
  | .send i c =>
    match (s.calls i)[c]? with
    | none => none
    | some call =>
      match call.phase with
      | .sending [] => some (s.setCall i c { call with phase := .waiting })
      | .sending (j :: rest) =>
        some ({ s with network := s.network ++ [(j, ((i, c), syncID call.doc))] }.setCall i c
          { call with sent := true, phase := .awaiting j rest })
      | _ => none
  | .lose k =>
    if k < s.network.length then some { s with network := s.network.eraseIdx k } else none
  | .deliver k =>
    match s.network[k]? with
    | none => none
    | some (j, token) =>
      let cs := s.containers j
      some ({ s with network := s.network.eraseIdx k }.setContainer j
        { cs with pending := cs.pending ++ [token] })
  | .reply i c =>
    match (s.calls i)[c]? with
    | none => none
    | some call =>
      match call.phase with
      | .awaiting j rest =>
        if ((i, c), syncID call.doc) ∈ (s.containers j).answered then
          some (s.setCall i c { call with phase := .sending rest })
        else none
      | _ => none
  | .fail i c again =>
    match (s.calls i)[c]? with
    | none => none
    | some call =>
      match call.phase with
      | .awaiting j rest =>
        some (s.setCall i c { call with phase := if again then .sending (j :: rest) else .failed })
      | _ => none
  | .lockInc i k => ((s.containers i).lockInc k).map (s.setContainer i)
  | .incStep i => (s.containers i).incStep.map (s.setContainer i)
  | .waitStep i c =>
    match (s.calls i)[c]? with
    | none => none
    | some call =>
      if call.phase = .waiting then
        ((s.containers i).waitStep (others i).length c).map (s.setContainer i)
      else none

/-- The circumstances in which the barrier holds. -/
def orderly (s : State n) : Action n → Bool
  | .sync i doc =>
    -- the earlier calls of this party have returned
    ((s.containers i).waits.all fun wait => decide (wait.1 = syncID doc → wait.2 = .returned)) &&
    -- the other parties' call of the same round is for the same piece
    ((List.finRange n).all fun j =>
      ((s.callsFor j (syncID doc))[(s.callsFor i (syncID doc)).length]?).all fun call =>
        decide (call.doc = doc))
  | .fail i c true =>
    match (s.calls i)[c]? with
    | none => true
    | some call =>
      match call.phase with
      -- the message has been lost
      | .awaiting j _ => decide (((i, c), syncID call.doc) ∉ s.tokens j)
      | _ => true
  | .waitStep i c => (s.containers i).undisturbed c
  | _ => true

/-- The call `c` of party `i` has returned from `Wait`. -/
def returned (s : State n) (i : Fin n) (c : ℕ) : Prop :=
  ∃ key, (s.containers i).waits[c]? = some (key, .returned)

/-- When a call of party `i` has returned from `Wait`, every other party has sent its
own `Sync` of the same round, for the same piece. The round is the number of earlier
calls for the sync id. -/
def Barrier (s : State n) : Prop :=
  ∀ i c call, (s.calls i)[c]? = some call → returned s i c → ∀ j, j ≠ i →
    ∃ call', (s.callsFor j (syncID call.doc))[((s.calls i).take c).countP
        fun earlier => syncID earlier.doc = syncID call.doc]? = some call' ∧
      call'.doc = call.doc ∧ call'.sent = true

/-! ### The invariant -/

namespace Phase

/-- The party `j` is not among those left. -/
def sentTo (j : Fin n) : Phase n → Prop
  | sending rest | awaiting _ rest => j ∉ rest
  | waiting | failed => True

end Phase

/-- A call goes through the other parties in order; it has sent a message unless it is
at the first of them. -/
def Call.WellFormed (i : Fin n) (call : Call n) : Prop :=
  match call.phase with
  | .sending rest => rest.Sublist (others i) ∧ (rest = others i ∨ call.sent = true)
  | .awaiting j rest => (j :: rest).Sublist (others i) ∧ call.sent = true
  | .waiting => others i = [] ∨ call.sent = true
  | .failed => True

/-- The pieces of a party's calls. -/
def State.docs (s : State n) (i : Fin n) : List Key := (s.calls i).map Call.doc

/-- The pieces of a party's calls for a sync id, in order. -/
def State.docsFor (s : State n) (i : Fin n) (key : String) : List Key :=
  (s.docs i).filter fun doc => syncID doc = key

/-- The calls of a party for a sync id that have sent a message. -/
def State.sentCount (s : State n) (i : Fin n) (key : String) : ℕ :=
  (s.calls i).countP fun call => syncID call.doc = key ∧ call.sent = true

/-- A token of party `i` is of a call that has been sent to it. -/
def State.Issued (s : State n) (i : Fin n) (token : Token n) : Prop :=
  token.1.1 ≠ i ∧ ∃ call, (s.calls token.1.1)[token.1.2]? = some call ∧
    syncID call.doc = token.2 ∧ call.sent = true ∧ call.phase.sentTo i

/-- What orderly steps preserve. -/
structure Orderly (s : State n) : Prop where
  inv : ∀ i, CondCount.Inv (others i).length (s.containers i)
  aligned : ∀ i, (s.docs i).map syncID = (s.containers i).waits.map Prod.fst
  wellFormed : ∀ i, ∀ call ∈ s.calls i, call.WellFormed i
  /-- `Wait` is entered after the last message. -/
  begun : ∀ (i : Fin n) (c : ℕ) (call : Call n) (wait : String × CondCount.WaitPhase),
    (s.calls i)[c]? = some call → (s.containers i).waits[c]? = some wait →
    wait.2 = .load ∨ call.phase = .waiting
  /-- Of the calls for a sync id only the last one may not be in `Wait`. -/
  earlier : ∀ i, (s.calls i).Pairwise fun a b => syncID a.doc = syncID b.doc → a.phase = .waiting
  nodup : ∀ i, (s.tokens i).Nodup
  issued : ∀ i, ∀ token ∈ s.tokens i, s.Issued i token
  /-- The parties agree on the piece of a round. -/
  agreed : ∀ (i j : Fin n) (key : String) (m : ℕ) (d d' : Key), (s.docsFor i key)[m]? = some d →
    (s.docsFor j key)[m]? = some d' → d = d'
  ahead : ∀ i j key, j ≠ i → (s.containers i).deleted key ≤ s.sentCount j key

theorem Orderly.initial : Orderly (initial n) where
  inv := fun i => .initial
  aligned := fun i => rfl
  wellFormed := fun i call hcall => by cases hcall
  begun := fun i c call wait hcall => by simp [SyncBarrier.initial] at hcall
  earlier := fun i => .nil
  nodup := fun i => .nil
  issued := fun i token htoken => by cases htoken
  agreed := fun i j key m d d' hd => by simp [State.docsFor, State.docs, SyncBarrier.initial] at hd
  ahead := fun i j key _ => Nat.zero_le _

/-! ### Steps of the calls -/

theorem calls_setCall_self (s : State n) (i : Fin n) (c : ℕ) (call : Call n) :
    (s.setCall i c call).calls i = (s.calls i).set c call := Function.update_self ..

theorem calls_setCall_of_ne (s : State n) {i j : Fin n} (hj : j ≠ i) (c : ℕ) (call : Call n) :
    (s.setCall i c call).calls j = s.calls j := Function.update_of_ne hj ..

theorem docs_setCall {s : State n} {i : Fin n} {c : ℕ} {call call' : Call n}
    (hc : (s.calls i)[c]? = some call) (hdoc : call'.doc = call.doc) (j : Fin n) :
    (s.setCall i c call').docs j = s.docs j := by
  by_cases hj : j = i
  · subst hj
    rw [State.docs, State.docs, calls_setCall_self]
    exact ListSet.map_set hc hdoc
  · rw [State.docs, State.docs, calls_setCall_of_ne s hj]

theorem getElem?_setCall {s : State n} {i : Fin n} {c : ℕ} {call : Call n}
    (hc : (s.calls i)[c]? = some call) (call' : Call n) (j : Fin n) (c' : ℕ) :
    ((s.setCall i c call').calls j)[c']?
      = if j = i ∧ c' = c then some call' else (s.calls j)[c']? := by
  by_cases hj : j = i
  · subst hj
    rw [calls_setCall_self]
    simp only [true_and]
    by_cases hcc : c' = c
    · subst hcc
      rw [if_pos rfl, List.getElem?_set_self (List.getElem?_eq_some_iff.mp hc).1]
    · rw [if_neg hcc, List.getElem?_set_ne (Ne.symm hcc)]
  · rw [if_neg fun hboth => hj hboth.1, calls_setCall_of_ne s hj]

/-- A call changes: it stays for its piece, what it has sent stays sent, and it does not
leave `Wait`. -/
theorem Orderly.setCall {s : State n} (h : Orderly s) {i : Fin n} {c : ℕ} {call call' : Call n}
    (hc : (s.calls i)[c]? = some call) (hdoc : call'.doc = call.doc)
    (hsent : call.sent = true → call'.sent = true) (hwf : call'.WellFormed i)
    (hwaiting : call.phase = .waiting → call'.phase = .waiting)
    (hissued : ∀ j, ((i, c), syncID call.doc) ∈ s.tokens j → call'.phase.sentTo j) :
    Orderly (s.setCall i c call') := by
  have hget := getElem?_setCall hc call'
  have hdocs := docs_setCall hc hdoc
  refine ⟨h.inv, fun j => ?_, fun j d hd => ?_, fun j c' d wait hd hw => ?_, fun j => ?_, h.nodup,
    fun j token htoken => ?_, fun j k key m d d' hd hd' => ?_, fun j k key hne => ?_⟩
  · rw [hdocs]
    exact h.aligned j
  · obtain ⟨c', hc'⟩ := List.mem_iff_getElem?.mp hd
    rw [hget] at hc'
    split at hc'
    · rename_i hself
      obtain rfl := Option.some.inj hc'
      rw [hself.1]
      exact hwf
    · exact h.wellFormed j d (List.mem_of_getElem? hc')
  · rw [hget] at hd
    split at hd
    · rename_i hself
      obtain ⟨rfl, rfl⟩ := hself
      obtain rfl := Option.some.inj hd
      exact (h.begun j c' call wait hc hw).imp_right hwaiting
    · exact h.begun j c' d wait hd hw
  · by_cases hj : j = i
    · subst hj
      rw [calls_setCall_self]
      refine ListSet.pairwise_set (h.earlier j) hc (fun b hab hkey => ?_) fun b hba hkey => ?_
      · exact hwaiting (hab (hdoc ▸ hkey))
      · exact hba (hdoc ▸ hkey)
    · rw [calls_setCall_of_ne s hj]
      exact h.earlier j
  · obtain ⟨hne, d, hd, hkey, hdsent, hdto⟩ := h.issued j token htoken
    by_cases hself : token.1.1 = i ∧ token.1.2 = c
    · obtain ⟨⟨i', c'⟩, key⟩ := token
      obtain ⟨rfl, rfl⟩ := hself
      obtain rfl : call = d := by
        rw [hc] at hd
        exact Option.some.inj hd
      obtain rfl : syncID call.doc = key := hkey
      refine ⟨hne, call', ?_, by rw [hdoc], hsent hdsent, hissued j htoken⟩
      rw [hget, if_pos ⟨rfl, rfl⟩]
    · refine ⟨hne, d, ?_, hkey, hdsent, hdto⟩
      rw [hget, if_neg hself, hd]
  · rw [State.docsFor, hdocs] at hd hd'
    exact h.agreed j k key m d d' hd hd'
  · refine (h.ahead j k key hne).trans ?_
    by_cases hk : k = i
    · subst hk
      have hcount := ListSet.countP_set_add
        (fun call => syncID call.doc = key ∧ call.sent = true) hc call'
      rw [State.sentCount, State.sentCount, calls_setCall_self]
      have hmono : (if decide (syncID call.doc = key ∧ call.sent = true) then 1 else 0)
          ≤ if decide (syncID call'.doc = key ∧ call'.sent = true) then 1 else 0 := by
        rw [hdoc]
        by_cases hold : syncID call.doc = key ∧ call.sent = true
        · simp [hold.1, hold.2, hsent hold.2]
        · simp only [hold, decide_false, Bool.false_eq_true, if_false]
          exact Nat.zero_le _
      omega
    · rw [State.sentCount, State.sentCount, calls_setCall_of_ne s hk]

/-- A message of a call is sent. -/
theorem Orderly.addMessage {s : State n} (h : Orderly s) {j : Fin n} {token : Token n}
    (hnew : token ∉ s.tokens j) (hissued : s.Issued j token) :
    Orderly { s with network := s.network ++ [(j, token)] } := by
  have htokens : ∀ k, (State.tokens { s with network := s.network ++ [(j, token)] } k).Perm
      ((if j = k then [token] else []) ++ s.tokens k) := by
    intro k
    by_cases hk : j = k
    · simp only [State.tokens, List.filter_append, List.map_append, hk, List.filter_singleton,
        decide_true, if_true, List.append_assoc, List.singleton_append]
      exact List.perm_middle
    · simp [State.tokens, List.filter_append, hk]
  refine { h with nodup := fun k => ?_, issued := fun k token' htoken' => ?_ }
  · rw [(htokens k).nodup_iff]
    by_cases hk : j = k
    · subst hk
      rw [if_pos rfl]
      exact List.nodup_cons.mpr ⟨hnew, h.nodup j⟩
    · rw [if_neg hk]
      exact h.nodup k
  · have hmem := (htokens k).mem_iff.mp htoken'
    by_cases hk : j = k
    · subst hk
      rw [if_pos rfl] at hmem
      rcases List.mem_cons.mp hmem with hself | hold
      · rw [hself]
        exact hissued
      · exact h.issued j token' hold
    · rw [if_neg hk] at hmem
      exact h.issued k token' hmem

/-- A call with a message on its way to a party has gone past this party. -/
theorem Orderly.sentTo {s : State n} (h : Orderly s) {i k : Fin n} {c : ℕ} {call : Call n}
    (hc : (s.calls i)[c]? = some call) (hk : ((i, c), syncID call.doc) ∈ s.tokens k) :
    call.phase.sentTo k := by
  obtain ⟨-, call', hc', -, -, hto⟩ := h.issued k _ hk
  obtain rfl : call = call' := Option.some.inj (hc.symm.trans hc')
  exact hto

theorem Orderly.send {s s' : State n} (h : Orderly s) {i : Fin n} {c : ℕ}
    (hs : step s (.send i c) = some s') : Orderly s' := by
  simp only [step] at hs
  split at hs
  · cases hs
  · rename_i call hc
    have hwf := h.wellFormed i call (List.mem_of_getElem? hc)
    split at hs
    · rename_i hphase
      obtain rfl := Option.some.inj hs
      rw [Call.WellFormed, hphase] at hwf
      refine h.setCall hc rfl id ?_ (fun _ => rfl) fun j _ => trivial
      exact hwf.2.imp_left Eq.symm
    · rename_i j rest hphase
      obtain rfl := Option.some.inj hs
      rw [Call.WellFormed, hphase] at hwf
      have hunsent : ∀ k, ((i, c), syncID call.doc) ∈ s.tokens k → k ∉ j :: rest := by
        intro k hk
        have hto := h.sentTo hc hk
        rw [hphase] at hto
        exact hto
      let sentCall : Call n := { call with sent := true, phase := .awaiting j rest }
      have hset : Orderly (s.setCall i c sentCall) := h.setCall hc rfl (fun _ => rfl) ⟨hwf.1, rfl⟩
        (fun hwaiting => by rw [hphase] at hwaiting; cases hwaiting)
        fun k hk hmem => hunsent k hk (List.mem_cons_of_mem _ hmem)
      refine hset.addMessage (fun hmem => hunsent j hmem List.mem_cons_self)
        ⟨?_, sentCall, ?_, rfl, rfl, ?_⟩
      · have hj := mem_others.mp (hwf.1.subset List.mem_cons_self)
        exact Ne.symm hj
      · rw [getElem?_setCall hc, if_pos ⟨rfl, rfl⟩]
      · have hnodup := hwf.1.nodup (nodup_others i)
        exact (List.nodup_cons.mp hnodup).1
    · cases hs

theorem Orderly.reply {s s' : State n} (h : Orderly s) {i : Fin n} {c : ℕ}
    (hs : step s (.reply i c) = some s') : Orderly s' := by
  simp only [step] at hs
  split at hs
  · cases hs
  · rename_i call hc
    have hwf := h.wellFormed i call (List.mem_of_getElem? hc)
    split at hs
    · rename_i j rest hphase
      rw [Call.WellFormed, hphase] at hwf
      split at hs
      · obtain rfl := Option.some.inj hs
        refine h.setCall hc rfl id ⟨(List.sublist_cons_self j rest).trans hwf.1, .inr hwf.2⟩
          (fun hwaiting => by rw [hphase] at hwaiting; cases hwaiting) fun k hk => ?_
        have hto := h.sentTo hc hk
        rw [hphase] at hto
        exact hto
      · cases hs
    · cases hs

/-- An attempt fails: the call is given up, or the message has been lost. -/
theorem Orderly.fail {s s' : State n} (h : Orderly s) {i : Fin n} {c : ℕ} {again : Bool}
    (hok : orderly s (.fail i c again) = true) (hs : step s (.fail i c again) = some s') :
    Orderly s' := by
  simp only [step] at hs
  split at hs
  · cases hs
  · rename_i call hc
    have hwf := h.wellFormed i call (List.mem_of_getElem? hc)
    split at hs
    · rename_i j rest hphase
      rw [Call.WellFormed, hphase] at hwf
      obtain rfl := Option.some.inj hs
      cases again with
      | false =>
          exact h.setCall hc rfl id trivial
            (fun hwaiting => by rw [hphase] at hwaiting; cases hwaiting) fun k _ => trivial
      | true =>
          have hlost : ((i, c), syncID call.doc) ∉ s.tokens j := by
            simp only [orderly, hc, hphase] at hok
            exact of_decide_eq_true hok
          refine h.setCall hc rfl id ⟨hwf.1, .inr hwf.2⟩
            (fun hwaiting => by rw [hphase] at hwaiting; cases hwaiting) fun k hk => ?_
          have hto := h.sentTo hc hk
          rw [hphase] at hto
          have hrest : k ∉ rest := hto
          intro hmem
          rcases List.mem_cons.mp hmem with hself | hmem
          · exact hlost (hself ▸ hk)
          · exact hrest hmem
    · cases hs

/-! ### Steps of the containers -/

/-- What has been counted has been called. -/
theorem counted_le_called (cs : CondCount.State (Fin n × ℕ)) (key : String) :
    cs.counted key ≤ cs.called.countP fun token => token.2 = key := by
  have hsub : cs.notifying.Sublist (cs.inc.toList.map Prod.fst) := by
    unfold CondCount.State.notifying
    split
    · rename_i hinc
      simp [hinc]
    · exact List.nil_sublist _
  have hcount := hsub.countP_le (p := fun token => token.2 = key)
  simp only [CondCount.State.counted, CondCount.State.called, List.countP_append]
  omega

/-- No more is counted for a key than the other parties' calls for it that have sent. -/
theorem Orderly.count_le {s : State n} (h : Orderly s) (i : Fin n) (key : String) :
    (s.tokens i).countP (fun token => token.2 = key)
      ≤ ∑ j ∈ (others i).toFinset, s.sentCount j key := by
  let sources := (((s.tokens i).filter fun token => token.2 = key).map Prod.fst).toFinset
  have hsource : ∀ source ∈ sources, (source, key) ∈ s.tokens i := by
    intro source hmem
    obtain ⟨token, htoken, rfl⟩ := List.mem_map.mp (List.mem_toFinset.mp hmem)
    obtain ⟨hmem, hkey⟩ := List.mem_filter.mp htoken
    have hkey : token.2 = key := of_decide_eq_true hkey
    rw [← hkey]
    exact hmem
  have hcard : (s.tokens i).countP (fun token => token.2 = key) = sources.card := by
    rw [List.toFinset_card_of_nodup, List.length_map, List.countP_eq_length_filter]
    refine (List.nodup_map_iff_inj_on ((h.nodup i).filter _)).mpr fun a ha b hb hab => ?_
    have ha := of_decide_eq_true (List.mem_filter.mp ha).2
    have hb := of_decide_eq_true (List.mem_filter.mp hb).2
    exact Prod.ext hab (ha.trans hb.symm)
  rw [hcard, Finset.card_eq_sum_card_fiberwise (f := Prod.fst) (t := (others i).toFinset)]
  · refine Finset.sum_le_sum fun j _ => ?_
    rw [← Finset.card_image_of_injOn (f := Prod.snd)]
    · refine ListSet.card_le_countP fun c hc => ?_
      obtain ⟨source, hfiber, rfl⟩ := Finset.mem_image.mp hc
      obtain ⟨hmem, rfl⟩ := Finset.mem_filter.mp hfiber
      obtain ⟨-, call, hcall, hkey, hsent, -⟩ := h.issued i _ (hsource source hmem)
      exact ⟨call, hcall, decide_eq_true ⟨hkey, hsent⟩⟩
    · intro a ha b hb hab
      have ha := (Finset.mem_filter.mp ha).2
      have hb := (Finset.mem_filter.mp hb).2
      exact Prod.ext (ha.trans hb.symm) hab
  · intro source hmem
    have hne := (h.issued i _ (hsource source hmem)).1
    exact List.mem_toFinset.mpr (mem_others.mpr hne)

/-- All calls for a key but one have deleted the count. -/
theorem Orderly.sentCount_le {s : State n} (h : Orderly s) (i : Fin n) (key : String) :
    s.sentCount i key ≤ (s.containers i).deleted key + 1 := by
  have hwaits : ((s.calls i).countP fun call => syncID call.doc = key)
      = (s.containers i).waits.countP fun wait => wait.1 = key := by
    have hmap := congrArg (List.countP fun key' => decide (key' = key)) (h.aligned i)
    rw [State.docs, List.countP_map, List.countP_map, List.countP_map] at hmap
    exact hmap
  have hsent : s.sentCount i key ≤ (s.calls i).countP fun call => syncID call.doc = key :=
    List.countP_mono_left fun call _ hcall => decide_eq_true (of_decide_eq_true hcall).1
  exact hsent.trans (hwaits.trans_le ((h.inv i).countP_le key))

/-- The waits of a container have deleted a key at most as often as every other party
has sent its call: were one behind, another would be ahead of it by two. -/
theorem Orderly.deleted_le {s : State n} (h : Orderly s) {i : Fin n}
    {cs : CondCount.State (Fin n × ℕ)} (hinv : CondCount.Inv (others i).length cs) {key : String}
    (hcounted : cs.counted key ≤ (s.tokens i).countP fun token => token.2 = key) {j : Fin n}
    (hne : j ≠ i) : cs.deleted key ≤ s.sentCount j key := by
  by_contra hbehind
  have hj : j ∈ (others i).toFinset := List.mem_toFinset.mpr (mem_others.mpr hne)
  have hcard : (others i).toFinset.card = (others i).length :=
    List.toFinset_card_of_nodup (nodup_others i)
  have hle : ∀ k ∈ (others i).toFinset, s.sentCount k key ≤ cs.deleted key := by
    intro k _
    by_contra hahead
    have hkj : j ≠ k := by
      intro heq
      subst heq
      omega
    have hdeleted := h.ahead k j key hkj
    have hsent := h.sentCount_le k key
    omega
  have hless : ∑ k ∈ (others i).toFinset, s.sentCount k key
      < ∑ k ∈ (others i).toFinset, cs.deleted key :=
    Finset.sum_lt_sum hle ⟨j, hj, by omega⟩
  have hbalance := hinv.balance key
  have hcount := h.count_le i key
  rw [Finset.sum_const_nat (s := (others i).toFinset) fun _ _ => rfl, hcard] at hless
  omega

/-- A step that keeps the calls, and changes the container of one party. -/
theorem Orderly.keepCalls {s s' : State n} (h : Orderly s) (i : Fin n) (hcalls : s'.calls = s.calls)
    (hothers : ∀ j, j ≠ i → s'.containers j = s.containers j)
    (hinv : CondCount.Inv (others i).length (s'.containers i))
    (hwaits : (s'.containers i).waits.map Prod.fst = (s.containers i).waits.map Prod.fst)
    (hbegun : ∀ (c : ℕ) (call : Call n) (wait : String × CondCount.WaitPhase),
      (s.calls i)[c]? = some call → (s'.containers i).waits[c]? = some wait →
      wait.2 = .load ∨ call.phase = .waiting)
    (htokens : ∀ j, (s'.tokens j).Subperm (s.tokens j)) : Orderly s' := by
  have hissued : ∀ j token, s.Issued j token → s'.Issued j token := fun j token hissued => by
    rw [State.Issued, hcalls]
    exact hissued
  have hdocs : s'.docs = s.docs := by
    funext j
    rw [State.docs, State.docs, hcalls]
  refine ⟨fun j => ?_, fun j => ?_, fun j => ?_, fun j c call wait hc hw => ?_, fun j => ?_,
    fun j => ?_, fun j token htoken => ?_, fun j k key m d d' hd hd' => ?_, fun j k key hne => ?_⟩
  · by_cases hj : j = i
    · rw [hj]
      exact hinv
    · rw [hothers j hj]
      exact h.inv j
  · rw [hdocs]
    by_cases hj : j = i
    · rw [hj, hwaits]
      exact h.aligned i
    · rw [hothers j hj]
      exact h.aligned j
  · rw [hcalls]
    exact h.wellFormed j
  · rw [hcalls] at hc
    by_cases hj : j = i
    · subst hj
      exact hbegun c call wait hc hw
    · rw [hothers j hj] at hw
      exact h.begun j c call wait hc hw
  · rw [hcalls]
    exact h.earlier j
  · obtain ⟨l, hperm, hsub⟩ := htokens j
    exact hperm.nodup_iff.mp (hsub.nodup (h.nodup j))
  · exact hissued j token (h.issued j token ((htokens j).subset htoken))
  · rw [State.docsFor, hdocs] at hd hd'
    exact h.agreed j k key m d d' hd hd'
  · have hsent : s'.sentCount k key = s.sentCount k key := by
      rw [State.sentCount, State.sentCount, hcalls]
    rw [hsent]
    by_cases hj : j = i
    · subst hj
      refine h.deleted_le hinv ?_ hne
      have hcalled : (s'.containers j).called.Sublist (s'.tokens j) := List.sublist_append_right ..
      exact (counted_le_called _ key).trans
        ((hcalled.countP_le).trans ((htokens j).countP_le _))
    · rw [hothers j hj]
      exact h.ahead j k key hne

/-- A step of a container that only handles what has been called. -/
theorem Orderly.setContainer {s : State n} (h : Orderly s) {i : Fin n}
    {cs : CondCount.State (Fin n × ℕ)} (hinv : CondCount.Inv (others i).length cs)
    (hcalled : cs.called.Perm (s.containers i).called)
    (hwaits : cs.waits.map Prod.fst = (s.containers i).waits.map Prod.fst)
    (hbegun : ∀ (c : ℕ) (call : Call n) (wait : String × CondCount.WaitPhase),
      (s.calls i)[c]? = some call → cs.waits[c]? = some wait →
      wait.2 = .load ∨ call.phase = .waiting) : Orderly (s.setContainer i cs) := by
  have hself : (s.setContainer i cs).containers i = cs := Function.update_self ..
  have hothers : ∀ j, j ≠ i → (s.setContainer i cs).containers j = s.containers j :=
    fun j hj => Function.update_of_ne hj ..
  refine h.keepCalls i rfl hothers (by rw [hself]; exact hinv) (by rw [hself]; exact hwaits)
    (by rw [hself]; exact hbegun) fun j => ?_
  unfold State.tokens
  by_cases hj : j = i
  · rw [hj, hself]
    exact (hcalled.append_left _).subperm
  · rw [hothers j hj]
    exact List.Subperm.refl _

theorem Orderly.lockInc {s s' : State n} (h : Orderly s) {i : Fin n} {k : ℕ}
    (hs : step s (.lockInc i k) = some s') : Orderly s' := by
  obtain ⟨cs, hcs, rfl⟩ := Option.map_eq_some_iff.mp hs
  obtain ⟨hcalled, hwaits⟩ := CondCount.called_lockInc hcs
  refine h.setContainer ((h.inv i).lockInc hcs) hcalled (by rw [hwaits]) ?_
  rw [hwaits]
  exact h.begun i

theorem Orderly.incStep {s s' : State n} (h : Orderly s) {i : Fin n}
    (hs : step s (.incStep i) = some s') : Orderly s' := by
  obtain ⟨cs, hcs, rfl⟩ := Option.map_eq_some_iff.mp hs
  have hstepped := CondCount.State.incStep_cases hcs
  obtain ⟨hcalled, hwaits⟩ := CondCount.called_incStep hstepped
  refine h.setContainer ((h.inv i).incStep hstepped) hcalled (by rw [hwaits]) ?_
  rw [hwaits]
  exact h.begun i

/-- A `Wait` that deletes no count about to be stored. -/
theorem Orderly.waitStep {s s' : State n} (h : Orderly s) {i : Fin n} {c : ℕ}
    (hok : orderly s (.waitStep i c) = true) (hs : step s (.waitStep i c) = some s') :
    Orderly s' := by
  simp only [step] at hs
  split at hs
  · cases hs
  · rename_i call hc
    split at hs
    · rename_i hphase
      obtain ⟨cs, hcs, rfl⟩ := Option.map_eq_some_iff.mp hs
      obtain ⟨key, ph, hw, hstepped⟩ := CondCount.State.waitStep_cases hcs
      obtain ⟨hcalled, -, ph', hwaits⟩ := CondCount.waits_waitStep hw hstepped
      refine h.setContainer ((h.inv i).waitStep hok hw hstepped) (.of_eq hcalled) ?_ ?_
      · rw [hwaits]
        exact ListSet.map_set hw rfl
      · intro c' call' wait hc' hw'
        by_cases hcc : c = c'
        · subst hcc
          obtain rfl : call = call' := Option.some.inj (hc.symm.trans hc')
          exact .inr hphase
        · rw [hwaits, List.getElem?_set_ne hcc] at hw'
          exact h.begun i c' call' wait hc' hw'
    · cases hs

/-! ### The network -/

/-- What has been sent to a party, and one message taken from the network. -/
theorem tokens_eraseIdx {s : State n} {k : ℕ} {m : Fin n × Token n} (hm : s.network[k]? = some m)
    (j : Fin n) :
    (s.tokens j).Perm ((if m.1 = j then [m.2] else []) ++
      State.tokens { s with network := s.network.eraseIdx k } j) := by
  obtain ⟨hlt, hget⟩ := List.getElem?_eq_some_iff.mp hm
  have hperm := (List.getElem_cons_eraseIdx_perm hlt).symm.filter fun m' => m'.1 = j
  have hmap := (hperm.map Prod.snd).append_right (s.containers j).called
  rw [hget] at hmap
  refine hmap.trans (.of_eq ?_)
  by_cases hj : m.1 = j
  · rw [List.filter_cons, if_pos (decide_eq_true hj), if_pos hj]
    rfl
  · rw [List.filter_cons, if_neg fun hpos => hj (of_decide_eq_true hpos), if_neg hj]
    rfl

theorem Orderly.lose {s s' : State n} (h : Orderly s) {k : ℕ}
    (hs : step s (.lose k) = some s') : Orderly s' := by
  simp only [step] at hs
  split at hs
  · rename_i hlt
    obtain rfl := Option.some.inj hs
    have hm : s.network[k]? = some s.network[k] := List.getElem?_eq_getElem hlt
    refine h.keepCalls s.network[k].1 rfl (fun _ _ => rfl) (h.inv _) rfl (h.begun _) fun j => ?_
    exact (List.sublist_append_right ..).subperm.trans (tokens_eraseIdx hm j).symm.subperm
  · cases hs

theorem Orderly.deliver {s s' : State n} (h : Orderly s) {k : ℕ}
    (hs : step s (.deliver k) = some s') : Orderly s' := by
  simp only [step] at hs
  split at hs
  · cases hs
  · rename_i j token hm
    obtain rfl := Option.some.inj hs
    let cs : CondCount.State (Fin n × ℕ) :=
      { s.containers j with pending := (s.containers j).pending ++ [token] }
    let s₁ : State n := { s with network := s.network.eraseIdx k }
    have hself : (s₁.setContainer j cs).containers j = cs := Function.update_self ..
    have hothers : ∀ j', j' ≠ j → (s₁.setContainer j cs).containers j' = s.containers j' :=
      fun j' hj => Function.update_of_ne hj ..
    have hinv : CondCount.Inv (others j).length cs := (h.inv j).callIncrement token
    refine h.keepCalls j rfl hothers (by rw [hself]; exact hinv) (by rw [hself])
      (by rw [hself]; exact h.begun j) fun j' => ?_
    refine List.Subperm.trans (List.Perm.subperm ?_) (tokens_eraseIdx hm j').symm.subperm
    by_cases hj : j = j'
    · subst hj
      have hcalled : cs.called.Perm (token :: (s.containers j).called) := by
        simp only [cs, CondCount.State.called, List.append_assoc, List.singleton_append]
        exact List.perm_middle
      rw [if_pos rfl]
      unfold State.tokens
      rw [hself]
      exact (hcalled.append_left _).trans List.perm_middle
    · rw [if_neg hj]
      unfold State.tokens
      rw [hothers j' (Ne.symm hj)]
      exact .refl _

/-! ### A new call -/

/-- The `Wait` of a call. -/
theorem Orderly.wait {s : State n} (h : Orderly s) {i : Fin n} {c : ℕ} {call : Call n}
    (hc : (s.calls i)[c]? = some call) :
    ∃ ph, (s.containers i).waits[c]? = some (syncID call.doc, ph) := by
  have hkey := congrArg (fun keys => keys[c]?) (h.aligned i)
  simp only [State.docs, List.getElem?_map, hc, Option.map_some] at hkey
  obtain ⟨⟨key, ph⟩, hw, rfl⟩ := Option.map_eq_some_iff.mp hkey.symm
  exact ⟨ph, hw⟩

theorem docsFor_eq_map (s : State n) (i : Fin n) (key : String) :
    s.docsFor i key = (s.callsFor i key).map Call.doc := by
  rw [State.docsFor, State.docs, State.callsFor, List.filter_map]
  rfl

theorem calls_start (s : State n) (i : Fin n) (doc : Key) (j : Fin n) :
    (s.start i doc).calls j
      = s.calls j ++ if j = i then [⟨doc, false, .sending (others i)⟩] else [] := by
  by_cases hj : j = i
  · subst hj
    rw [if_pos rfl]
    exact Function.update_self ..
  · rw [if_neg hj, List.append_nil]
    exact Function.update_of_ne hj ..

theorem waits_start (s : State n) (i : Fin n) (doc : Key) (j : Fin n) :
    ((s.start i doc).containers j).waits
      = (s.containers j).waits ++ if j = i then [(syncID doc, .load)] else [] := by
  by_cases hj : j = i
  · subst hj
    simp [State.start, State.setContainer]
  · simp [State.start, State.setContainer, State.addCall, hj]

theorem deleted_start (s : State n) (i : Fin n) (doc : Key) (j : Fin n) (key : String) :
    ((s.start i doc).containers j).deleted key = (s.containers j).deleted key := by
  have hload : CondCount.WaitPhase.load.deleted = false := rfl
  rw [CondCount.State.deleted, CondCount.State.deleted, waits_start, List.countP_append]
  split
  · simp [hload]
  · rfl

theorem tokens_start (s : State n) (i : Fin n) (doc : Key) (j : Fin n) :
    (s.start i doc).tokens j = s.tokens j := by
  have hcalled : ((s.start i doc).containers j).called = (s.containers j).called := by
    by_cases hj : j = i
    · subst hj
      simp [State.start, State.setContainer, CondCount.State.called]
    · simp [State.start, State.setContainer, State.addCall, Function.update_of_ne hj]
  simp only [State.tokens, hcalled]
  rfl

/-- The pieces of the calls after a new one. -/
theorem getElem?_docsFor_start {s : State n} {i j : Fin n} {doc d : Key} {key : String} {m : ℕ}
    (hd : ((s.start i doc).docsFor j key)[m]? = some d) :
    (s.docsFor j key)[m]? = some d ∨
      (j = i ∧ syncID doc = key ∧ m = (s.docsFor i key).length ∧ d = doc) := by
  rw [State.docsFor, State.docs, calls_start, List.map_append, List.filter_append,
    List.getElem?_append] at hd
  split at hd
  · exact .inl hd
  · rename_i hge
    refine .inr ?_
    by_cases hnew : j = i ∧ syncID doc = key
    · obtain ⟨rfl, rfl⟩ := hnew
      rw [if_pos rfl, List.map_singleton, List.filter_singleton, decide_eq_true rfl, cond_true,
        List.getElem?_singleton] at hd
      split at hd
      · rename_i hm
        have hlen : (s.docsFor j (syncID doc)).length ≤ m := Nat.le_of_not_lt hge
        exact ⟨rfl, rfl, Nat.le_antisymm (Nat.sub_eq_zero_iff_le.mp hm) hlen,
          (Option.some.inj hd).symm⟩
      · cases hd
    · have hnone : ((if j = i then [(⟨doc, false, .sending (others i)⟩ : Call n)] else []).map
          Call.doc).filter (fun doc => syncID doc = key) = [] := by
        by_cases hj : j = i
        · have hkey : syncID doc ≠ key := fun hkey => hnew ⟨hj, hkey⟩
          simp [hj, hkey]
        · simp [hj]
      rw [hnone] at hd
      cases hd

theorem Orderly.aligned_start {s : State n} (h : Orderly s) (i : Fin n) (doc : Key) (j : Fin n) :
    ((s.start i doc).docs j).map syncID = ((s.start i doc).containers j).waits.map Prod.fst := by
  rw [State.docs, calls_start, waits_start, List.map_append, List.map_append, List.map_append,
    ← h.aligned j]
  split <;> rfl

/-- Every call has one `Wait`. -/
theorem Orderly.length_calls {s : State n} (h : Orderly s) (i : Fin n) :
    (s.calls i).length = (s.containers i).waits.length := by
  have hlength := congrArg List.length (h.aligned i)
  simpa only [State.docs, List.length_map] using hlength

theorem Orderly.begun_start {s : State n} (h : Orderly s) {i j : Fin n} {doc : Key} {c : ℕ}
    {call : Call n} {wait : String × CondCount.WaitPhase}
    (hc : ((s.start i doc).calls j)[c]? = some call)
    (hw : ((s.start i doc).containers j).waits[c]? = some wait) :
    wait.2 = .load ∨ call.phase = .waiting := by
  rw [calls_start] at hc
  rw [waits_start, List.getElem?_append] at hw
  split at hw
  · rename_i hlt
    rw [← h.length_calls j] at hlt
    rw [List.getElem?_append_left hlt] at hc
    exact h.begun j c call wait hc hw
  · have hmem := List.mem_of_getElem? hw
    split at hmem
    · rw [List.mem_singleton.mp hmem]
      exact .inl rfl
    · cases hmem

/-- The earlier calls for the sync id of a new one have returned, hence are in `Wait`. -/
theorem Orderly.earlier_start {s : State n} (h : Orderly s) {i : Fin n} {doc : Key}
    (hreturned : ∀ ph, (syncID doc, ph) ∈ (s.containers i).waits → ph = .returned) (j : Fin n) :
    ((s.start i doc).calls j).Pairwise fun a b =>
      syncID a.doc = syncID b.doc → a.phase = .waiting := by
  rw [calls_start]
  by_cases hj : j = i
  · subst hj
    rw [if_pos rfl]
    refine List.pairwise_append.mpr ⟨h.earlier j, List.pairwise_singleton .., ?_⟩
    intro a ha b hb hkey
    rw [List.mem_singleton.mp hb] at hkey
    obtain ⟨c, hc⟩ := List.mem_iff_getElem?.mp ha
    obtain ⟨ph, hw⟩ := h.wait hc
    rw [hkey] at hw
    rcases h.begun j c a _ hc hw with hload | hwaiting
    · cases hload.symm.trans (hreturned ph (List.mem_of_getElem? hw))
    · exact hwaiting
  · rw [if_neg hj, List.append_nil]
    exact h.earlier j

/-- A party calls `Sync` whose earlier calls for the sync id have returned, in a round
that no other party uses for another piece. -/
theorem Orderly.sync {s s' : State n} (h : Orderly s) {i : Fin n} {doc : Key}
    (hok : orderly s (.sync i doc) = true) (hs : step s (.sync i doc) = some s') : Orderly s' := by
  obtain rfl := Option.some.inj hs
  obtain ⟨hreturned, hpieces⟩ := Bool.and_eq_true_iff.mp hok
  have hreturned : ∀ ph, (syncID doc, ph) ∈ (s.containers i).waits → ph = .returned :=
    fun ph hmem => of_decide_eq_true (List.all_eq_true.mp hreturned _ hmem) rfl
  have hpieces : ∀ (j : Fin n) (d : Key),
      (s.docsFor j (syncID doc))[(s.docsFor i (syncID doc)).length]? = some d → d = doc := by
    intro j d hd
    rw [docsFor_eq_map, docsFor_eq_map, List.length_map, List.getElem?_map] at hd
    obtain ⟨call, hcall, rfl⟩ := Option.map_eq_some_iff.mp hd
    have hall := List.all_eq_true.mp hpieces j (List.mem_finRange j)
    rw [hcall] at hall
    exact of_decide_eq_true hall
  refine ⟨fun j => ?_, h.aligned_start i doc, fun j call hcall => ?_,
    fun j c call wait hc hw => h.begun_start hc hw, h.earlier_start hreturned, fun j => ?_,
    fun j token htoken => ?_, fun j k key m d d' hd hd' => ?_, fun j k key hne => ?_⟩
  · by_cases hj : j = i
    · subst hj
      have hinv := (h.inv j).callWait hreturned
      simpa [State.start, State.setContainer] using hinv
    · have hother : (s.start i doc).containers j = s.containers j := Function.update_of_ne hj ..
      rw [hother]
      exact h.inv j
  · rw [calls_start] at hcall
    rcases List.mem_append.mp hcall with hold | hnew
    · exact h.wellFormed j call hold
    · by_cases hj : j = i
      · rw [if_pos hj] at hnew
        rw [List.mem_singleton.mp hnew, hj]
        exact ⟨List.Sublist.refl _, .inl rfl⟩
      · rw [if_neg hj] at hnew
        cases hnew
  · rw [tokens_start]
    exact h.nodup j
  · rw [tokens_start] at htoken
    obtain ⟨hne, call, hcall, hkey, hsent, hto⟩ := h.issued j token htoken
    refine ⟨hne, call, ?_, hkey, hsent, hto⟩
    rw [calls_start, List.getElem?_append_left (List.getElem?_eq_some_iff.mp hcall).1, hcall]
  · rcases getElem?_docsFor_start hd with hold | ⟨rfl, rfl, rfl, rfl⟩
    · rcases getElem?_docsFor_start hd' with hold' | ⟨rfl, rfl, rfl, rfl⟩
      · exact h.agreed j k key m d d' hold hold'
      · exact hpieces j d hold
    · rcases getElem?_docsFor_start hd' with hold' | ⟨-, -, -, rfl⟩
      · exact (hpieces k d' hold').symm
      · rfl
  · refine (deleted_start s i doc j key).trans_le ((h.ahead j k key hne).trans ?_)
    rw [State.sentCount, State.sentCount, calls_start, List.countP_append]
    exact Nat.le_add_right _ _

/-! ### The barrier -/

theorem Orderly.step (s : State n) (a : Action n) (s' : State n) (h : Orderly s)
    (hok : orderly s a = true) (hs : SyncBarrier.step s a = some s') : Orderly s' := by
  cases a with
  | sync i doc => exact h.sync hok hs
  | send i c => exact h.send hs
  | lose k => exact h.lose hs
  | deliver k => exact h.deliver hs
  | reply i c => exact h.reply hs
  | fail i c again => exact h.fail hok hs
  | lockInc i k => exact h.lockInc hs
  | incStep i => exact h.incStep hs
  | waitStep i c => exact h.waitStep hok hs

/-- The first waits for a key up to a returned one have deleted it. -/
theorem lt_deleted {need : ℕ} {cs : CondCount.State (Fin n × ℕ)} (h : CondCount.Inv need cs)
    {c : ℕ} {key : String} (hw : cs.waits[c]? = some (key, .returned)) :
    ((cs.waits.take c).countP fun wait => wait.1 = key) < cs.deleted key := by
  obtain ⟨hlt, hget⟩ := List.getElem?_eq_some_iff.mp hw
  have hsplit : cs.waits = cs.waits.take c ++ (key, .returned) :: cs.waits.drop (c + 1) := by
    rw [← hget, ← List.drop_eq_getElem_cons hlt, List.take_append_drop]
  have hsingle := h.single
  rw [hsplit] at hsingle
  have hearlier := (List.pairwise_append.mp hsingle).2.2
  have hle : ((cs.waits.take c).countP fun wait => wait.1 = key)
      ≤ (cs.waits.take c).countP fun wait => wait.1 = key ∧ wait.2.deleted := by
    refine List.countP_mono_left fun wait hmem hkey => ?_
    have hkey : wait.1 = key := of_decide_eq_true hkey
    have hreturned := hearlier wait hmem _ List.mem_cons_self hkey
    exact decide_eq_true ⟨hkey, by rw [hreturned]; rfl⟩
  have hself : decide ((key, CondCount.WaitPhase.returned).1 = key ∧
      (key, CondCount.WaitPhase.returned).2.deleted = true) = true := decide_eq_true ⟨rfl, rfl⟩
  have hdeleted := congrArg (List.countP fun wait => decide (wait.1 = key ∧ wait.2.deleted = true))
    hsplit
  rw [List.countP_append, List.countP_cons, if_pos hself] at hdeleted
  rw [CondCount.State.deleted]
  omega

theorem Orderly.barrier {s : State n} (h : Orderly s) : Barrier s := by
  intro i c call hc hreturned j hne
  obtain ⟨key, hw⟩ := hreturned
  obtain ⟨ph, hw'⟩ := h.wait hc
  obtain ⟨rfl, -⟩ := Prod.mk.inj (Option.some.inj (hw'.symm.trans hw))
  have hround : ((s.calls i).take c).countP (fun earlier => syncID earlier.doc = syncID call.doc)
      = ((s.containers i).waits.take c).countP fun wait => wait.1 = syncID call.doc := by
    have htake := congrArg (fun keys => (keys.take c).countP fun key => key = syncID call.doc)
      (h.aligned i)
    simp only [State.docs, ← List.map_take, List.countP_map] at htake
    exact htake
  have hsent := (lt_deleted (h.inv i) hw).trans_le (h.ahead i j (syncID call.doc) hne)
  rw [← hround] at hsent
  have hcount : s.sentCount j (syncID call.doc)
      = (s.callsFor j (syncID call.doc)).countP fun call' => call'.sent = true := by
    rw [State.sentCount, State.callsFor, List.countP_filter]
    refine List.countP_congr fun call' _ => ?_
    simp [and_comm]
  -- all calls of the other party but the last one are waiting, and so have sent
  have hlast : (s.callsFor j (syncID call.doc)).Pairwise fun a _ =>
      decide (a.sent = true) = true := by
    refine ((h.earlier j).sublist List.filter_sublist).imp_of_mem fun {a b} ha hb hab => ?_
    obtain ⟨hmem, hkey⟩ := List.mem_filter.mp ha
    have hkeys := (of_decide_eq_true hkey).trans (of_decide_eq_true (List.mem_filter.mp hb).2).symm
    have hwf := h.wellFormed j a hmem
    rw [Call.WellFormed, hab hkeys] at hwf
    refine decide_eq_true (hwf.resolve_left fun hnil => ?_)
    have hi : i ∈ others j := mem_others.mpr (Ne.symm hne)
    rw [hnil] at hi
    cases hi
  rw [hcount] at hsent
  obtain ⟨call', hcall', hsent'⟩ := ListSet.getElem?_of_lt_countP hlast hsent
  refine ⟨call', hcall', ?_, of_decide_eq_true hsent'⟩
  have hself := ListSet.getElem?_filter (p := fun call' => syncID call'.doc = syncID call.doc) hc
    (decide_eq_true rfl)
  have hd := congrArg (Option.map Call.doc) hcall'
  have hd' := congrArg (Option.map Call.doc) hself
  rw [← List.getElem?_map, ← docsFor_eq_map] at hd
  rw [← List.getElem?_map] at hd'
  exact h.agreed j i (syncID call.doc) _ _ _ hd ((docsFor_eq_map s i _).symm ▸ hd')

/-- **The barrier**: in every orderly run, for any number of parties, calls and sync ids and any
order of the steps, a call of `Sync` returns only after every other party has called `Sync` in the
same round, for the same piece, and has sent a message. -/
theorem sync_barrier {s : State n}
    (h : Reach step (fun s a => orderly s a = true) (initial n) s) : Barrier s := by
  have horderly : Orderly s := h.invariant .initial Orderly.step
  exact horderly.barrier

/-- The oldest message is counted at the party `j`. -/
def served (j : Fin 3) (steps : ℕ) : List (Action 3) :=
  .deliver 0 :: .lockInc j 0 :: List.replicate steps (.incStep j)

/-- The next message of a call is sent, counted and answered. -/
def exchanged (i : Fin 3) (c : ℕ) (j : Fin 3) (steps : ℕ) : List (Action 3) :=
  .send i c :: served j steps ++ [.reply i c]

/-- A message of the third party is lost and sent again. -/
theorem sync_barrier_three : ∃ s : State 3, returned s 0 0 ∧ Barrier s := by
  let run : List (Action 3) :=
    [.sync 0 ⟨"a", 1⟩] ++ exchanged 0 0 1 4 ++ exchanged 0 0 2 4
      ++ [.sync 1 ⟨"a", 1⟩] ++ exchanged 1 0 0 4
      ++ [.sync 2 ⟨"a", 1⟩, .send 2 0, .lose 0, .fail 2 0 true] ++ exchanged 2 0 0 3
      ++ [.send 0 0] ++ List.replicate 5 (.waitStep 0 0)
  have hrun : (exec (restrict step fun s a => orderly s a = true) run (initial 3)).map
      (fun s : State 3 => (s.containers 0).waits) = some [("a1", .returned)] := by decide
  obtain ⟨s, hs, hwaits⟩ := Option.map_eq_some_iff.mp hrun
  exact ⟨s, ⟨"a1", by rw [hwaits]; rfl⟩, sync_barrier (Reach.exec_restrict run .refl hs)⟩

/-- A message of the second party is counted, its sender gets an error and sends it
again. The first party returns, and the third one has not called. -/
theorem sync_no_barrier :
    ∃ s : State 3, Reach step (fun _ _ => True) (initial 3) s ∧ ¬ Barrier s := by
  let run : List (Action 3) :=
    [.sync 0 ⟨"a", 1⟩] ++ exchanged 0 0 1 4 ++ exchanged 0 0 2 4
      ++ [.sync 1 ⟨"a", 1⟩, .send 1 0] ++ served 0 4 ++ [.fail 1 0 true] ++ exchanged 1 0 0 3
      ++ [.send 0 0] ++ List.replicate 5 (.waitStep 0 0)
  have hrun : (exec step run (initial 3)).map
      (fun s : State 3 => ((s.containers 0).waits, s.calls 0, s.calls 2))
      = some ([("a1", .returned)], [⟨⟨"a", 1⟩, true, .waiting⟩], []) := by decide
  obtain ⟨s, hs, hparts⟩ := Option.map_eq_some_iff.mp hrun
  obtain ⟨hwaits, hcalls⟩ := Prod.mk.inj hparts
  obtain ⟨hcalls₀, hcalls₂⟩ := Prod.mk.inj hcalls
  refine ⟨s, .of_exec hs, fun hbarrier => ?_⟩
  obtain ⟨call', hcall', -⟩ := hbarrier 0 0 _ (by rw [hcalls₀]; rfl) ⟨"a1", by rw [hwaits]; rfl⟩ 2
    (by decide)
  rw [State.callsFor, hcalls₂] at hcall'
  cases hcall'

end QuickMpc.SyncBarrier
