import Mathlib.Data.List.Basic
import QuickMpc.Lib.Monitor

/-!
# QuickMpc.TransactionQueue

The queue between the threads of a computation container.

`push` waits on `q_max` until there is room, `pop` waits on `q_empty` until there is a
value; both work under `mtx` and notify all waiters of the other variable. `max_size` is
static, and `setMax` takes no mutex and notifies nobody. The steps of the threads are those
of `QuickMpc.Lib.Monitor`.

`transactionQueue_fifo` is about any number of threads and any interleaving, with `setMax`
called while no thread holds the mutex.
-/

namespace QuickMpc.TransactionQueue

open StepSystem
open Monitor (Quiet Signals Spec initial step)

variable {ι α : Type}

/-! ### Model -/

inductive Op (α : Type)
  | push (triple : α)
  | pop
  deriving DecidableEq, Repr

/-- The condition variables. -/
inductive Cond
  | q_empty
  | q_max
  deriving DecidableEq, Repr

/-- The lambda of each `wait`, what follows it, and the variables it waits on and
notifies. The parameter is `max_size`. -/
def queue (α : Type) : Spec (Op α) ℕ (List α) (Option α) Cond where
  guard
    | .push _, max_size, q => decide (q.length < max_size)
    | .pop, _, q => !q.isEmpty
  body
    | .push triple, q => (q ++ [triple], none)
    | .pop, q => (q.tail, q.head?)
  waitsOn
    | .push _ => .q_max
    | .pop => .q_empty
  notifies
    | .push _ => .q_empty
    | .pop => .q_max

abbrev State (ι α : Type) := Monitor.State ι (Op α) ℕ (List α) (Option α)

abbrev Action (ι α : Type) := Monitor.Action ι (Op α) ℕ

/-- An empty queue with the default `max_size`. -/
def start (ι α : Type) : State ι α := initial ι 5000 []

/-- The values pushed, in the order of the mutex. -/
def pushed (log : List (Op α × Option α)) : List α :=
  log.filterMap fun e =>
    match e.1 with
    | .push triple => some triple
    | .pop => none

/-- The values that `pop` has taken, in the order of the mutex. -/
def popped (log : List (Op α × Option α)) : List α :=
  log.filterMap fun e =>
    match e.1 with
    | .push _ => none
    | .pop => e.2

variable [DecidableEq ι]

/-- A thread's next step is a `notify_all` that wakes the waiting thread `t`. -/
def NotificationPending (s : State ι α) (t : ι) : Prop :=
  ∃ t' s' op, step (queue α) s (.notifyAll t') = some s' ∧ s'.phase t = .woken op

/-! ### Runs -/

/-- A push makes room for no other push and a pop leaves no more to pop. -/
theorem signals_queue : Signals (queue α) := by
  intro op op' max_size q hfalse htrue
  cases op with
  | push triple =>
      cases op' with
      | push triple' =>
          simp only [queue, decide_eq_true_eq, decide_eq_false_iff_not, List.length_append] at *
          omega
      | pop => rfl
  | pop =>
      cases op' with
      | push triple' => rfl
      | pop =>
          have hnil : q = [] := by simpa [queue] using hfalse
          subst hnil
          cases htrue

/-- **First in, first out**: what has been pushed is what has been popped and what is in the
queue, in this order. -/
theorem pushed_eq {ok : State ι α → Action ι α → Prop} {s : State ι α}
    (h : Reach (step (queue α)) ok (start ι α) s) : pushed s.log = popped s.log ++ s.data := by
  refine Monitor.log_invariant (J := fun log q => pushed log = popped log ++ q) signals_queue rfl
    (fun log q op max_size hlog hguard => ?_) h
  have hpushed : pushed (log ++ [(op, ((queue α).body op q).2)])
      = pushed log ++ pushed [(op, ((queue α).body op q).2)] := List.filterMap_append
  have hpopped : popped (log ++ [(op, ((queue α).body op q).2)])
      = popped log ++ popped [(op, ((queue α).body op q).2)] := List.filterMap_append
  rw [hpushed, hpopped, hlog, List.append_assoc, List.append_assoc]
  congr 1
  cases op with
  | push triple => rfl
  | pop =>
      cases q with
      | nil => cases hguard
      | cons v q => simp [pushed, popped, queue]

/-- What a thread performs is allowed by `max_size` as it is. -/
theorem length_le_max_size {s s' : State ι α} {a : Action ι α}
    (h : Reach (step (queue α)) Quiet (start ι α) s) (hstep : step (queue α) s a = some s')
    (hlt : s.data.length < s'.data.length) : s'.data.length ≤ s.param := by
  cases Monitor.stepped_of_step hstep with
  | @perform t op seen hph =>
      have hguard := (Monitor.inv_reach signals_queue h).checked t
      have hcurrent := Monitor.current_reach signals_queue h t
      rw [hph] at hguard hcurrent
      obtain rfl : seen = s.param := hcurrent
      cases op with
      | push triple =>
          have hroom : s.data.length < s.param := of_decide_eq_true hguard
          show (s.data ++ [triple]).length ≤ s.param
          rw [List.length_append]
          exact hroom
      | pop =>
          have htail : s.data.length < s.data.tail.length := hlt
          rw [List.length_tail] at htail
          omega
  | _ => exact absurd hlt (Nat.lt_irrefl _)

/-- A waiter whose condition holds has its notification pending. -/
theorem notificationPending {ok : State ι α → Action ι α → Prop} {s : State ι α}
    (h : Reach (step (queue α)) ok (start ι α) s) {t : ι} {op : Op α} {seen : ℕ}
    (ht : s.phase t = .waiting op seen) (hguard : (queue α).guard op seen s.data = true) :
    NotificationPending s t := by
  have hpending := (Monitor.inv_reach signals_queue h).waited t op seen ht hguard
  obtain ⟨t', s', hstep, hwoken⟩ := hpending.wakes ht
  exact ⟨t', s', op, hstep, hwoken⟩

/-- **A bounded queue.** The values popped are a prefix of the values pushed; a push does not
raise the size above `max_size`; a thread that waits to pop while there is a value, or to
push while there is room and `max_size` has not been raised since it looked, is about to be
notified. -/
theorem transactionQueue_fifo {s : State ι α}
    (h : Reach (step (queue α)) Quiet (start ι α) s) :
    (popped s.log <+: pushed s.log ∧ pushed s.log = popped s.log ++ s.data) ∧
    (∀ a s', step (queue α) s a = some s' → s.data.length < s'.data.length →
      s'.data.length ≤ s.param) ∧
    (∀ t seen, s.phase t = .waiting .pop seen → s.data ≠ [] → NotificationPending s t) ∧
    ∀ t triple seen, s.phase t = .waiting (.push triple) seen → s.param ≤ seen →
      s.data.length < s.param → NotificationPending s t := by
  have hfifo := pushed_eq h
  refine ⟨⟨⟨s.data, hfifo.symm⟩, hfifo⟩, fun a s' => length_le_max_size h, ?_, ?_⟩
  · intro t seen ht hne
    exact notificationPending h ht (by simpa [queue] using hne)
  · intro t triple seen ht hsame hroom
    exact notificationPending h ht (decide_eq_true (Nat.lt_of_lt_of_le hroom hsame))

/-- A pusher that waits for room under `max_size = 1`, and a thread that has just popped. -/
theorem transactionQueue_fifo_two : ∃ s : State (Fin 2) ℕ,
    s.data = [] ∧ pushed s.log = [7] ∧ s.phase 1 = .waiting (.push 8) 1
      ∧ popped s.log <+: pushed s.log ∧ NotificationPending s 1 := by
  let run : List (Action (Fin 2) ℕ) :=
    [.setParam 1, .call 0 (.push 7), .call 1 (.push 8), .lock 0, .check 0, .perform 0,
      .notifyAll 0, .unlock 0, .lock 1, .check 1, .wait 1, .call 0 .pop, .lock 0, .check 0,
      .perform 0]
  have hrun : (exec (restrict (step (queue ℕ)) Quiet) run (start (Fin 2) ℕ)).map
      (fun s => (s.data, pushed s.log, s.phase 1, s.param))
      = some ([], [7], .waiting (.push 8) 1, 1) := by decide
  obtain ⟨s, hs, hparts⟩ := Option.map_eq_some_iff.mp hrun
  obtain ⟨hdata, hpushed, hph, hmax⟩ : s.data = [] ∧ pushed s.log = [7]
      ∧ s.phase 1 = .waiting (.push 8) 1 ∧ s.param = 1 := by
    simpa using hparts
  obtain ⟨⟨horder, -⟩, -, -, hwait⟩ := transactionQueue_fifo (Reach.exec_restrict run .refl hs)
  exact ⟨s, hdata, hpushed, hph, horder,
    hwait 1 8 1 hph (Nat.le_of_eq hmax) (by rw [hdata, hmax]; decide)⟩

end QuickMpc.TransactionQueue
