import QuickMpc.JobManager

/-!
# QuickMpc.JobIdPool

Conservation of the job ids.

An id is in the pool, or the dispatcher has popped it and not yet handed it to
the job at its own party, or that job has not finished; the job's thread pushes
it back at its end, whether the job ran, threw or had an unknown method. The
thread pushes once, but a call of `ExecuteComputeFromSP` that fails at the caller is
repeated, and when the first call is served too, before or after it has failed, a
second thread is started. At the party `sp` that thread pushes the id a second time.
Calls to the other parties may be repeated: their threads push nothing.
-/

namespace QuickMpc.JobManager

open StepSystem

variable {n : ℕ}

/-! ### Where the ids are -/

/-- The handler at the party `sp` has been run for the job being sent. -/
def handedOver (sp : Fin n) (pt_id : ℕ) (started : Bool) : Bool :=
  decide (sp.val < pt_id) || decide (sp.val = pt_id) && started

/-- The id that the dispatcher has popped and not yet handed to the job at its own
party. -/
def heldIds (sp : Fin n) : Dispatcher → List ℕ
  | .sending _ job_id pt_id started => if handedOver sp pt_id started then [] else [job_id]
  | _ => []

/-- The ids of the jobs not yet finished at a party. -/
def triggerIds (threads : List Thread) : List ℕ :=
  (threads.filter Thread.is_job_trigger_party).map Thread.job_id

/-- All ids in circulation at the party `sp`. -/
def circulating (sp : Fin n) (s : State n) : List ℕ :=
  s.job_id_queue ++ heldIds sp s.dispatcher ++ triggerIds (s.threads sp)

/-- No job is queued or running at the party `sp`. -/
def idle (sp : Fin n) (s : State n) : Bool :=
  decide (s.job_req_queue = []) && decide (s.dispatcher = .waiting)
    && decide (triggerIds (s.threads sp) = [])

/-- The ids in circulation are distinct and drawn from `1, …, 5`; an idle party
has all of them in its pool. -/
def PoolConserved (sp : Fin n) (s : State n) : Prop :=
  (circulating sp s).Nodup ∧ (∀ id ∈ circulating sp s, 1 ≤ id ∧ id ≤ 5) ∧
    (idle sp s = true → s.job_id_queue.Perm [1, 2, 3, 4, 5])

instance (sp : Fin n) (s : State n) : Decidable (PoolConserved sp s) :=
  inferInstanceAs (Decidable (_ ∧ _ ∧ _))

/-- A served call to the party `sp` is not repeated, and one that has failed is not
served. -/
def servedOnce (sp : Fin n) (s : State n) : Action n → Bool
  | .callFail =>
    match s.dispatcher with
    | .sending _ _ pt_id started => !(started && decide (sp.val = pt_id))
    | _ => true
  | .asyncRunLate k => s.late[k]?.all fun call => decide (call.pt_id ≠ sp.val)
  | _ => true

/-- What these runs preserve. -/
structure Conserved (sp : Fin n) (s : State n) : Prop where
  perm : (circulating sp s).Perm [1, 2, 3, 4, 5]
  trigger : ∀ i, ∀ t ∈ s.threads i, t.is_job_trigger_party = true → i = sp

theorem conserved_initial (sp : Fin n) : Conserved sp (initial n) where
  perm := by simp [circulating, initial, heldIds, triggerIds, MAX_JOB_NUM, List.range_succ]
  trigger := by simp [initial]

/-- The ids in circulation determine the conclusion. -/
theorem Conserved.poolConserved {sp : Fin n} {s : State n} (h : Conserved sp s) :
    PoolConserved sp s := by
  have hperm := h.perm
  refine ⟨hperm.nodup_iff.mpr (by decide), fun id hid => ?_, fun hidle => ?_⟩
  · have hall : ∀ id ∈ [1, 2, 3, 4, 5], 1 ≤ id ∧ id ≤ 5 := by decide
    exact hall id (hperm.mem_iff.mp hid)
  · simp only [idle, Bool.and_eq_true, decide_eq_true_iff] at hidle
    obtain ⟨⟨-, hwaiting⟩, hnone⟩ := hidle
    have hheld : heldIds sp .waiting = [] := rfl
    rw [circulating, hwaiting, hnone, hheld, List.append_nil, List.append_nil] at hperm
    exact hperm

/-! ### The steps -/

theorem triggerIds_append (ts : List Thread) (t : Thread) :
    triggerIds (ts ++ [t])
      = triggerIds ts ++ if t.is_job_trigger_party then [t.job_id] else [] := by
  unfold triggerIds
  rw [List.filter_append, List.map_append]
  cases h : t.is_job_trigger_party <;> simp [h]

/-- Changing a thread in what is neither id nor role. -/
theorem triggerIds_set {ts : List Thread} {k : ℕ} {t t' : Thread} (hget : ts[k]? = some t)
    (hid : t'.job_id = t.job_id) (hrole : t'.is_job_trigger_party = t.is_job_trigger_party) :
    triggerIds (ts.set k t') = triggerIds ts := by
  unfold triggerIds
  induction ts generalizing k with
  | nil => simp at hget
  | cons u us ih =>
      cases k with
      | zero =>
          obtain rfl : u = t := by simpa using hget
          rw [List.set_cons_zero, List.filter_cons, List.filter_cons, hrole]
          split
          · rw [List.map_cons, List.map_cons, hid]
          · rfl
      | succ k =>
          have hus := ih (k := k) (by simpa using hget)
          rw [List.set_cons_succ, List.filter_cons, List.filter_cons]
          split
          · rw [List.map_cons, List.map_cons, hus]
          · exact hus

/-- What a thread that ends takes out of circulation. -/
theorem triggerIds_eraseIdx {ts : List Thread} {k : ℕ} {t : Thread} (hget : ts[k]? = some t) :
    ((if t.is_job_trigger_party then [t.job_id] else []) ++ triggerIds (ts.eraseIdx k)).Perm
      (triggerIds ts) := by
  obtain ⟨hk, rfl⟩ := List.getElem?_eq_some_iff.mp hget
  have hperm := ((List.getElem_cons_eraseIdx_perm hk).filter Thread.is_job_trigger_party).map
    Thread.job_id
  unfold triggerIds
  rw [List.filter_cons] at hperm
  split at hperm
  · rename_i h
    rw [if_pos h]
    exact hperm
  · rename_i h
    rw [if_neg h]
    exact hperm

/-- A step that touches neither pool, dispatcher nor triggers. -/
theorem Conserved.of_same {sp : Fin n} {s s' : State n} (h : Conserved sp s)
    (hpool : s'.job_id_queue = s.job_id_queue)
    (hheld : heldIds sp s'.dispatcher = heldIds sp s.dispatcher)
    (hids : triggerIds (s'.threads sp) = triggerIds (s.threads sp))
    (htrigger : ∀ i, ∀ t ∈ s'.threads i, t.is_job_trigger_party = true → i = sp) :
    Conserved sp s' where
  perm := by
    rw [circulating, hpool, hheld, hids]
    exact h.perm
  trigger := htrigger

theorem conserved_pollingPopJobReq {sp : Fin n} {s s' : State n} (h : Conserved sp s)
    (hs : Stepped sp s .pollingPopJobReq s') : Conserved sp s' := by
  cases hs with
  | pollingPopJobReq method_id rest hdisp hqueue =>
      exact h.of_same rfl (by rw [hdisp]; rfl) rfl h.trigger

/-- The popped id is held. -/
theorem conserved_pollingPopJobId {sp : Fin n} {s s' : State n} (h : Conserved sp s)
    (hs : Stepped sp s .pollingPopJobId s') : Conserved sp s' := by
  cases hs with
  | pollingPopJobId method_id job_id rest hdisp hqueue =>
      refine ⟨?_, h.trigger⟩
      have hperm := h.perm
      have hheld : heldIds sp (.sending method_id job_id 0 false) = [job_id] := by
        simp [heldIds, handedOver]
      have hnone : heldIds sp (.popping method_id) = [] := rfl
      rw [circulating, hqueue, hdisp, hnone, List.append_nil] at hperm
      rw [circulating, hheld]
      refine List.Perm.trans ?_ hperm
      show (rest ++ [job_id] ++ _).Perm ([job_id] ++ rest ++ _)
      exact List.perm_append_comm.append_right _

/-- The triggers after a handler has started a job. -/
theorem Conserved.trigger_append {sp : Fin n} {s : State n} (h : Conserved sp s) (i₀ : Fin n)
    (method_id : MethodId) (job_id : ℕ) :
    ∀ i, ∀ t ∈ (s.setThreads i₀ (s.threads i₀ ++ [jobThread sp i₀ method_id job_id])).threads i,
      t.is_job_trigger_party = true → i = sp := by
  intro i t ht hrole
  rcases mem_threads_append ht with hold | ⟨rfl, rfl⟩
  · exact h.trigger i t hold hrole
  · exact of_decide_eq_true hrole

/-- The handler at the party `sp` takes the id over; the others start threads that
do not return it. -/
theorem conserved_asyncRun {sp : Fin n} {s s' : State n} (h : Conserved sp s)
    (hs : Stepped sp s .asyncRun s') : Conserved sp s' := by
  cases hs with
  | asyncRun method_id job_id i₀ hdisp =>
      have htrigger := h.trigger_append i₀ method_id job_id
      by_cases hsp : i₀ = sp
      · refine ⟨?_, htrigger⟩
        subst hsp
        have hperm := h.perm
        simp only [circulating, hdisp, heldIds, handedOver, State.setThreads, Function.update_self,
          triggerIds_append, jobThread, lt_irrefl, decide_false, decide_true, Bool.and_true,
          Bool.false_or, if_true, List.append_nil] at hperm ⊢
        refine List.Perm.trans ?_ hperm
        rw [List.append_assoc]
        exact List.perm_append_comm.append_left _
      · have hne : sp.val ≠ i₀.val := fun heq => hsp (Fin.ext heq.symm)
        refine h.of_same rfl ?_ ?_ htrigger
        · simp [State.setThreads, hdisp, heldIds, handedOver, hne]
        · simp [State.setThreads, Function.update_of_ne (Ne.symm hsp)]

/-- By the time the dispatcher goes on, the id of its own party has been handed
over there. -/
theorem conserved_callOk {sp : Fin n} {s s' : State n} (h : Conserved sp s)
    (hs : Stepped sp s .callOk s') : Conserved sp s' := by
  cases hs with
  | callNext method_id job_id pt_id hdisp hnext =>
      refine h.of_same rfl ?_ rfl h.trigger
      rw [hdisp]
      simp only [heldIds, handedOver]
      congr 1
      simp only [Bool.and_true, Bool.and_false, Bool.or_false, Bool.or_eq_true, decide_eq_true_iff,
        eq_iff_iff]
      omega
  | callLast method_id job_id pt_id hdisp hlast =>
      refine h.of_same rfl ?_ rfl h.trigger
      have hlt := sp.isLt
      have hover : handedOver sp pt_id true = true := by
        simp only [handedOver, Bool.and_true, Bool.or_eq_true, decide_eq_true_iff]
        omega
      rw [hdisp]
      simp [heldIds, hover]

/-- A call is repeated where nothing was handed over, or to another party. -/
theorem conserved_callFail {sp : Fin n} {s s' : State n} (h : Conserved sp s)
    (hok : servedOnce sp s .callFail = true) (hs : Stepped sp s .callFail s') :
    Conserved sp s' := by
  cases hs with
  | callFail method_id job_id pt_id started hdisp =>
      refine h.of_same rfl ?_ rfl h.trigger
      simp only [servedOnce, hdisp] at hok
      rw [hdisp]
      cases started with
      | false => rfl
      | true =>
          have hne : sp.val ≠ pt_id := by simpa using hok
          simp [heldIds, handedOver, hne]

/-- Only at the party `sp` a handler that runs late would start a trigger. -/
theorem conserved_asyncRunLate {sp : Fin n} {k : ℕ} {s s' : State n} (h : Conserved sp s)
    (hok : servedOnce sp s (.asyncRunLate k) = true) (hs : Stepped sp s (.asyncRunLate k) s') :
    Conserved sp s' := by
  cases hs with
  | asyncRunLate _ method_id job_id i₀ hcall =>
      simp only [servedOnce, hcall, Option.all_some, decide_eq_true_eq] at hok
      have hne : sp ≠ i₀ := fun heq => hok (congrArg Fin.val heq.symm)
      refine h.of_same rfl rfl ?_ (h.trigger_append i₀ method_id job_id)
      simp only [State.setThreads, Function.update_of_ne hne]

theorem conserved_newAddress {sp i : Fin n} {k : ℕ} {s s' : State n} (h : Conserved sp s)
    (hs : Stepped sp s (.newAddress i k) s') : Conserved sp s' := by
  cases hs with
  | newAddress _ _ t hget _ =>
      refine h.of_same rfl rfl ?_ fun j u hu hrole => ?_
      · by_cases hi : sp = i
        · subst hi
          simp only [State.setThreads, Function.update_self]
          exact triggerIds_set hget rfl rfl
        · simp only [State.setThreads, Function.update_of_ne hi]
      · rcases mem_update.mp hu with ⟨rfl, hu⟩ | ⟨-, hu⟩
        · rcases List.mem_or_eq_of_mem_set hu with hu | rfl
          · exact h.trigger _ u hu hrole
          · exact h.trigger _ t (List.mem_of_getElem? hget) hrole
        · exact h.trigger j u hu hrole

/-- The triggers after a thread has ended. -/
theorem Conserved.trigger_eraseIdx {sp : Fin n} {s : State n} (h : Conserved sp s) (i : Fin n)
    (k : ℕ) : ∀ j, ∀ u ∈ (s.setThreads i ((s.threads i).eraseIdx k)).threads j,
      u.is_job_trigger_party = true → j = sp := by
  intro j u hu hrole
  rcases mem_update.mp hu with ⟨rfl, hu⟩ | ⟨-, hu⟩
  · exact h.trigger _ u ((List.eraseIdx_sublist _ _).subset hu) hrole
  · exact h.trigger j u hu hrole

/-- A trigger that ends returns its id. -/
theorem conserved_endThread {sp i : Fin n} {k : ℕ} {s s' : State n} (h : Conserved sp s)
    (hs : Stepped sp s (.endThread i k) s') : Conserved sp s' := by
  cases hs with
  | endTrigger _ _ t hget hrole =>
      obtain rfl := h.trigger i t (List.mem_of_getElem? hget) hrole
      refine ⟨?_, h.trigger_eraseIdx i k⟩
      refine List.Perm.trans ?_ h.perm
      have hids := triggerIds_eraseIdx hget
      rw [hrole, if_pos rfl] at hids
      simp only [circulating, State.setThreads, Function.update_self]
      refine List.Perm.trans ?_ (hids.append_left _)
      rw [List.append_assoc, List.append_assoc, List.append_assoc]
      refine List.Perm.append_left _ ?_
      rw [← List.append_assoc, ← List.append_assoc]
      exact List.perm_append_comm.append_right _
  | endOther _ _ t hget hrole =>
      refine ⟨?_, h.trigger_eraseIdx i k⟩
      refine List.Perm.trans ?_ h.perm
      by_cases hi : sp = i
      · subst hi
        have hids := triggerIds_eraseIdx hget
        rw [hrole, if_neg Bool.false_ne_true, List.nil_append] at hids
        simp only [circulating, State.setThreads, Function.update_self]
        exact hids.append_left _
      · simp only [circulating, State.setThreads, Function.update_of_ne hi]
        exact .refl _

/-- A prediction returns no id. -/
theorem conserved_startPrediction {sp i : Fin n} {s s' : State n} (h : Conserved sp s)
    (hs : Stepped sp s (.startPrediction i) s') : Conserved sp s' := by
  cases hs
  refine h.of_same rfl rfl ?_ fun j t ht hrole => ?_
  · by_cases hi : sp = i
    · subst hi
      simp [State.setThreads, triggerIds_append]
    · simp [State.setThreads, Function.update_of_ne hi]
  · rcases mem_threads_append ht with hold | ⟨-, rfl⟩
    · exact h.trigger j t hold hrole
    · exact absurd hrole (by simp)

/-- **The steps conserve the ids.** -/
theorem conserved_step {sp : Fin n} (s : State n) (a : Action n) (s' : State n)
    (h : Conserved sp s) (hok : servedOnce sp s a = true) (hs : step sp s a = some s') :
    Conserved sp s' := by
  have hstep := step_cases hs
  cases a with
  | pushJobReq method_id =>
      cases hstep
      exact h.of_same rfl rfl rfl h.trigger
  | pollingPopJobReq => exact conserved_pollingPopJobReq h hstep
  | pollingPopJobId => exact conserved_pollingPopJobId h hstep
  | asyncRun => exact conserved_asyncRun h hstep
  | callOk => exact conserved_callOk h hstep
  | callFail => exact conserved_callFail h hok hstep
  | asyncRunLate k => exact conserved_asyncRunLate h hok hstep
  | newAddress i k => exact conserved_newAddress h hstep
  | endThread i k => exact conserved_endThread h hstep
  | startPrediction i => exact conserved_startPrediction h hstep

/-- **The job-id pool is conserved** in every run in which every call to the party `sp`
is served once: the ids in the pool, in the dispatcher's hands and of unfinished jobs
are always `1, …, 5`, each once, and an idle party has all of them in its pool. -/
theorem jobIdPool_conserved {sp : Fin n} {s : State n}
    (h : Reach (step sp) (fun s a => servedOnce sp s a = true) (initial n) s) :
    PoolConserved sp s :=
  (h.invariant (conserved_initial sp) conserved_step).poolConserved

/-- A served call to the party `2` is repeated, a job with an unknown method ends
while it is still being sent, and all ids are back. -/
theorem jobIdPool_conserved_three :
    ∃ s : State 3, (s.job_id_queue = [2, 3, 4, 5, 1] ∧ idle 0 s = true) ∧ PoolConserved 0 s := by
  let run : List (Action 3) :=
    [.pushJobReq 77, .pollingPopJobReq, .pollingPopJobId, .callFail, .asyncRun, .callOk,
      .endThread 0 0, .asyncRun, .callFail, .asyncRun, .callOk, .asyncRun, .callOk]
  have hrun : (exec (restrict (step 0) fun s a => servedOnce 0 s a = true) run (initial 3)).map
      (fun s => (s.job_id_queue, idle 0 s)) = some ([2, 3, 4, 5, 1], true) := by decide
  obtain ⟨s, hs, hparts⟩ := Option.map_eq_some_iff.mp hrun
  obtain ⟨hpool, hidle⟩ := Prod.mk.inj hparts
  exact ⟨s, ⟨hpool, hidle⟩, jobIdPool_conserved (Reach.exec_restrict run .refl hs)⟩

/-- The call to the party `0` itself fails after its handler has started the job.
The repeated call starts a second thread, and the id `1` is returned twice. -/
theorem jobId_returned_twice :
    ∃ s : State 3, Reach (step (0 : Fin 3)) (fun _ _ => True) (initial 3) s
      ∧ s.job_id_queue = [2, 3, 4, 5, 1, 1] ∧ ¬ PoolConserved 0 s := by
  let run : List (Action 3) :=
    [.pushJobReq 1, .pollingPopJobReq, .pollingPopJobId, .asyncRun, .callFail, .asyncRun, .callOk,
      .asyncRun, .callOk, .asyncRun, .callOk, .endThread 0 0, .endThread 0 0]
  have hrun : (exec (step 0) run (initial 3)).map
      (fun s => (s.job_id_queue, decide (PoolConserved 0 s)))
      = some ([2, 3, 4, 5, 1, 1], false) := by decide
  obtain ⟨s, hs, hparts⟩ := Option.map_eq_some_iff.mp hrun
  obtain ⟨hpool, hbroken⟩ := Prod.mk.inj hparts
  exact ⟨s, .of_exec hs, hpool, of_decide_eq_false hbroken⟩

end QuickMpc.JobManager
