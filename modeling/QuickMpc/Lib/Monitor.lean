import QuickMpc.Lib.StepSystem

/-!
# Monitors

Any number of threads that work on data under one mutex and wait on condition
variables.

An operation waits until its `guard` holds, runs its `body` and notifies one variable.
The guard may read, besides the data, a parameter that is set from outside. Every step of
a thread is its own (`step`): to take the mutex, to check the guard, to block and release
the mutex, to be woken (also without a notification), to run the body, to notify all
waiters, and to release the mutex.

A body that can make a guard true notifies the variable that the guard's operation waits
on (`Signals`). Then a waiter whose guard has become true since its check has a
notification pending (`Inv.waiting`), whatever the number of threads and their order.
-/

namespace Monitor

open StepSystem

/-- The operations `Op` on data `D`, with a parameter `P`, results `R` and condition
variables `C`. -/
structure Spec (Op P D R C : Type*) where
  guard : Op → P → D → Bool
  body : Op → D → D × R
  waitsOn : Op → C
  notifies : Op → C

/-- Where a thread is; `seen` is the parameter that its last check has read. -/
inductive Phase (Op P R : Type*)
  | idle
  | entering (op : Op)
  | checking (op : Op)
  | blocking (op : Op) (seen : P)
  | waiting (op : Op) (seen : P)
  | woken (op : Op)
  | ready (op : Op) (seen : P)
  | notifying (op : Op) (ret : R)
  | leaving (op : Op) (ret : R)
  deriving DecidableEq, Repr

variable {ι Op P D R C : Type*}

namespace Phase

/-- The thread holds the mutex. -/
def holds : Phase Op P R → Bool
  | checking _ | blocking _ _ | ready _ _ | notifying _ _ | leaving _ _ => true
  | idle | entering _ | waiting _ _ | woken _ => false

/-- After a notification of the variable `c`. -/
def notified [DecidableEq C] (m : Spec Op P D R C) (c : C) : Phase Op P R → Phase Op P R
  | waiting op seen => if m.waitsOn op = c then woken op else waiting op seen
  | ph => ph

end Phase

structure State (ι Op P D R : Type*) where
  owner : Option ι
  data : D
  param : P
  phase : ι → Phase Op P R
  /-- The operations whose body has run, with their results, in the order of the mutex. -/
  log : List (Op × R)

inductive Action (ι Op P : Type*)
  | call (t : ι) (op : Op)
  | lock (t : ι)
  | check (t : ι)
  | wait (t : ι)
  | wake (t : ι)
  | perform (t : ι)
  | notifyAll (t : ι)
  | unlock (t : ι)
  | setParam (p : P)
  deriving DecidableEq, Repr

variable [DecidableEq ι] [DecidableEq C] (m : Spec Op P D R C)

/-- Nobody has called anything. -/
def initial (ι : Type*) (p : P) (d : D) : State ι Op P D R :=
  ⟨none, d, p, fun _ => .idle, []⟩

/-- The thread `t` goes on to the phase `ph`. -/
def State.at (s : State ι Op P D R) (t : ι) (ph : Phase Op P R) : State ι Op P D R :=
  { s with phase := Function.update s.phase t ph }

def step (s : State ι Op P D R) : Action ι Op P → Option (State ι Op P D R)
  | .call t op =>
    match s.phase t with
    | .idle => some (s.at t (.entering op))
    | _ => none
  | .lock t =>
    match s.owner, s.phase t with
    | none, .entering op | none, .woken op =>
      some { s.at t (.checking op) with owner := some t }
    | _, _ => none
  | .check t =>
    match s.phase t with
    | .checking op =>
      some (s.at t (if m.guard op s.param s.data then .ready op s.param
        else .blocking op s.param))
    | _ => none
  | .wait t =>
    match s.phase t with
    | .blocking op seen => some { s.at t (.waiting op seen) with owner := none }
    | _ => none
  | .wake t =>
    match s.phase t with
    | .waiting op _ => some (s.at t (.woken op))
    | _ => none
  | .perform t =>
    match s.phase t with
    | .ready op _ =>
      let out := m.body op s.data
      some { s.at t (.notifying op out.2) with data := out.1, log := s.log ++ [(op, out.2)] }
    | _ => none
  | .notifyAll t =>
    match s.phase t with
    | .notifying op ret =>
      some { s with
        phase := Function.update (fun t' => (s.phase t').notified m (m.notifies op)) t
          (.leaving op ret) }
    | _ => none
  | .unlock t =>
    match s.phase t with
    | .leaving _ _ => some { s.at t .idle with owner := none }
    | _ => none
  | .setParam p => some { s with param := p }

/-- The parameter is set while nobody holds the mutex only. -/
def Quiet (s : State ι Op P D R) : Action ι Op P → Prop
  | .setParam _ => s.owner = none
  | _ => True

instance (s : State ι Op P D R) (a : Action ι Op P) : Decidable (Quiet s a) :=
  match a with
  | .setParam _ => inferInstanceAs (Decidable (s.owner = none))
  | .call _ _ | .lock _ | .check _ | .wait _ | .wake _ | .perform _ | .notifyAll _
  | .unlock _ => .isTrue trivial

/-- A thread is about to notify the variable `c`. -/
def Pending (phase : ι → Phase Op P R) (c : C) : Prop :=
  ∃ t op ret, phase t = .notifying op ret ∧ m.notifies op = c

/-- A body notifies whom it enables. -/
def Signals : Prop :=
  ∀ op op' p d, m.guard op p d = false → m.guard op p (m.body op' d).1 = true →
    m.notifies op' = m.waitsOn op

/-! ### Steps -/

/-- The steps by what they ask for and what they do. -/
inductive Stepped (s : State ι Op P D R) : Action ι Op P → State ι Op P D R → Prop
  | call {t : ι} {op : Op} : s.phase t = .idle → Stepped s (.call t op) (s.at t (.entering op))
  | lock {t : ι} {op : Op} : s.owner = none → (s.phase t).holds = false →
      Stepped s (.lock t) { s.at t (.checking op) with owner := some t }
  | pass {t : ι} {op : Op} : s.phase t = .checking op → m.guard op s.param s.data = true →
      Stepped s (.check t) (s.at t (.ready op s.param))
  | fail {t : ι} {op : Op} : s.phase t = .checking op → m.guard op s.param s.data = false →
      Stepped s (.check t) (s.at t (.blocking op s.param))
  | wait {t : ι} {op : Op} {seen : P} : s.phase t = .blocking op seen →
      Stepped s (.wait t) { s.at t (.waiting op seen) with owner := none }
  | wake {t : ι} {op : Op} {seen : P} : s.phase t = .waiting op seen →
      Stepped s (.wake t) (s.at t (.woken op))
  | perform {t : ι} {op : Op} {seen : P} : s.phase t = .ready op seen →
      Stepped s (.perform t) { s.at t (.notifying op (m.body op s.data).2) with
        data := (m.body op s.data).1, log := s.log ++ [(op, (m.body op s.data).2)] }
  | notifyAll {t : ι} {op : Op} {ret : R} : s.phase t = .notifying op ret →
      Stepped s (.notifyAll t) { s with
        phase := Function.update (fun t' => (s.phase t').notified m (m.notifies op)) t
          (.leaving op ret) }
  | unlock {t : ι} {op : Op} {ret : R} : s.phase t = .leaving op ret →
      Stepped s (.unlock t) { s.at t .idle with owner := none }
  | setParam (p : P) : Stepped s (.setParam p) { s with param := p }

section Steps

variable {m} {s s' : State ι Op P D R}

@[simp] theorem at_owner (t : ι) (ph : Phase Op P R) : (s.at t ph).owner = s.owner := rfl

@[simp] theorem at_data (t : ι) (ph : Phase Op P R) : (s.at t ph).data = s.data := rfl

@[simp] theorem at_param (t : ι) (ph : Phase Op P R) : (s.at t ph).param = s.param := rfl

@[simp] theorem at_log (t : ι) (ph : Phase Op P R) : (s.at t ph).log = s.log := rfl

@[simp] theorem at_phase_self (t : ι) (ph : Phase Op P R) : (s.at t ph).phase t = ph :=
  Function.update_self _ _ _

theorem stepped_of_step {a : Action ι Op P} (h : step m s a = some s') : Stepped m s a s' := by
  cases a with
  | call t op =>
      simp only [step] at h
      split at h
      next hph =>
        obtain rfl := Option.some.inj h
        exact .call hph
      next => cases h
  | lock t =>
      simp only [step] at h
      split at h
      next op howner hph =>
        obtain rfl := Option.some.inj h
        exact .lock howner (by rw [hph]; rfl)
      next op howner hph =>
        obtain rfl := Option.some.inj h
        exact .lock howner (by rw [hph]; rfl)
      next => cases h
  | check t =>
      simp only [step] at h
      split at h
      next op hph =>
        obtain rfl := Option.some.inj h
        cases hguard : m.guard op s.param s.data with
        | true => exact .pass hph hguard
        | false => exact .fail hph hguard
      next => cases h
  | wait t | wake t | perform t | notifyAll t | unlock t =>
      simp only [step] at h
      split at h
      next hph =>
        obtain rfl := Option.some.inj h
        constructor
        exact hph
      next => cases h
  | setParam p =>
      obtain rfl := Option.some.inj h
      exact .setParam p

end Steps

/-! ### Runs -/

/-- The owner of the mutex is the one thread that holds it. -/
def Owned (phase : ι → Phase Op P R) (owner : Option ι) : Prop :=
  ∀ t, (phase t).holds = true ↔ owner = some t

/-- A guard is still what the check has found. -/
def Checked (d : D) : Phase Op P R → Prop
  | .ready op seen => m.guard op seen d = true
  | .blocking op seen => m.guard op seen d = false
  | _ => True

/-- A guard was checked with the parameter as it is. -/
def Current (p : P) : Phase Op P R → Prop
  | .ready _ seen => seen = p
  | _ => True

/-- A waiter whose guard holds has a notification pending. -/
def Waited (phase : ι → Phase Op P R) (d : D) : Prop :=
  ∀ t op seen, phase t = .waiting op seen → m.guard op seen d = true →
    Pending m phase (m.waitsOn op)

/-- What holds in every state. -/
structure Inv (s : State ι Op P D R) : Prop where
  owned : Owned s.phase s.owner
  checked : ∀ t, Checked m s.data (s.phase t)
  waited : Waited m s.phase s.data

section Preserved

variable {m} {phase : ι → Phase Op P R} {owner : Option ι} {d : D} {t : ι} {ph : Phase Op P R}

omit [DecidableEq ι] in
theorem Owned.unique (h : Owned phase owner) {t' : ι} (ht : (phase t).holds = true)
    (ht' : (phase t').holds = true) : t = t' :=
  Option.some.inj (((h t).mp ht).symm.trans ((h t').mp ht'))

theorem Owned.keep (h : Owned phase owner) (hph : ph.holds = (phase t).holds) :
    Owned (Function.update phase t ph) owner := by
  intro t'
  by_cases ht : t' = t
  · subst ht
    rw [Function.update_self, hph]
    exact h t'
  · rw [Function.update_of_ne ht]
    exact h t'

theorem Owned.acquire (h : Owned phase none) (hph : ph.holds = true) :
    Owned (Function.update phase t ph) (some t) := by
  intro t'
  by_cases ht : t' = t
  · subst ht
    simp [hph]
  · rw [Function.update_of_ne ht, h t']
    simp [Ne.symm ht]

theorem Owned.release (h : Owned phase owner) (ht : (phase t).holds = true)
    (hph : ph.holds = false) : Owned (Function.update phase t ph) none := by
  intro t'
  by_cases htt' : t' = t
  · subst htt'
    simp [hph]
  · rw [Function.update_of_ne htt']
    simpa using fun ht' => htt' (h.unique ht' ht)

omit [DecidableEq ι] in
@[simp] theorem notified_holds (c : C) (ph : Phase Op P R) :
    (ph.notified m c).holds = ph.holds := by
  cases ph with
  | waiting op seen =>
      rw [Phase.notified]
      split <;> rfl
  | _ => rfl

omit [DecidableEq ι] [DecidableEq C] in
theorem checked_of_not_holds (h : ph.holds = false) : Checked m d ph := by
  cases ph with
  | ready op seen => cases h
  | blocking op seen => cases h
  | _ => trivial

omit [DecidableEq ι] in
theorem checked_notified (c : C) (h : Checked m d ph) : Checked m d (ph.notified m c) := by
  cases ph with
  | waiting op seen =>
      rw [Phase.notified]
      split <;> trivial
  | _ => exact h

omit [DecidableEq C] in
/-- What holds of every thread, after one has moved on. -/
theorem forall_update {Q : Phase Op P R → Prop} (h : ∀ t', Q (phase t')) (hph : Q ph) (t' : ι) :
    Q (Function.update phase t ph t') :=
  (Function.forall_update_iff phase fun _ ph => Q ph).mpr ⟨hph, fun t' _ => h t'⟩ t'

omit [DecidableEq C] in
theorem Pending.update {c : C} (h : Pending m phase c)
    (ht : ∀ op ret, phase t ≠ .notifying op ret) :
    Pending m (Function.update phase t ph) c := by
  obtain ⟨t', op, ret, hph, hc⟩ := h
  have hne : t' ≠ t := by
    rintro rfl
    exact ht op ret hph
  exact ⟨t', op, ret, by rw [Function.update_of_ne hne, hph], hc⟩

omit [DecidableEq C] in
/-- A thread that moves on, and waits only for a guard that fails. -/
theorem Waited.update (h : Waited m phase d) (ht : ∀ op ret, phase t ≠ .notifying op ret)
    (hph : ∀ op seen, ph = .waiting op seen → m.guard op seen d = false) :
    Waited m (Function.update phase t ph) d := by
  intro t' op seen hwait hguard
  by_cases htt' : t' = t
  · subst htt'
    rw [Function.update_self] at hwait
    rw [hph op seen hwait] at hguard
    cases hguard
  · rw [Function.update_of_ne htt'] at hwait
    exact (h t' op seen hwait hguard).update ht

omit [DecidableEq C] in
/-- The body of the owner is run: whom it enables it is about to notify. -/
theorem Waited.perform (h : Waited m phase d) (hsignals : Signals m)
    (howned : Owned phase owner) {op : Op} {seen : P} (ht : phase t = .ready op seen) (ret : R) :
    Waited m (Function.update phase t (.notifying op ret)) (m.body op d).1 := by
  intro t' op' seen' hwait hguard
  by_cases htt' : t' = t
  · subst htt'
    rw [Function.update_self] at hwait
    cases hwait
  · rw [Function.update_of_ne htt'] at hwait
    refine ⟨t, op, ret, Function.update_self _ _ _, ?_⟩
    cases hold : m.guard op' seen' d with
    | false => exact hsignals op' op seen' d hold hguard
    | true =>
        -- nobody else can be about to notify
        obtain ⟨t'', op'', ret', hph, -⟩ := h t' op' seen' hwait hold
        have heq : t'' = t := howned.unique (by rw [hph]; rfl) (by rw [ht]; rfl)
        rw [heq, ht] at hph
        cases hph

/-- The notification is given: who still waits waits on another variable. -/
theorem Waited.notifyAll (h : Waited m phase d) (howned : Owned phase owner) {op : Op} {ret : R}
    (ht : phase t = .notifying op ret) :
    Waited m (Function.update (fun t' => (phase t').notified m (m.notifies op)) t
      (.leaving op ret)) d := by
  intro t' op' seen' hwait hguard
  by_cases htt' : t' = t
  · subst htt'
    rw [Function.update_self] at hwait
    cases hwait
  · rw [Function.update_of_ne htt'] at hwait
    cases hph : phase t' with
    | waiting op'' seen'' =>
        rw [hph, Phase.notified] at hwait
        split at hwait
        · cases hwait
        next hne =>
          obtain ⟨rfl, rfl⟩ : op'' = op' ∧ seen'' = seen' := by simpa using hwait
          obtain ⟨t'', op₁, ret₁, hph₁, hc⟩ := h t' op'' seen'' hph hguard
          have heq : t'' = t := howned.unique (by rw [hph₁]; rfl) (by rw [ht]; rfl)
          rw [heq, ht] at hph₁
          obtain ⟨rfl, -⟩ : op = op₁ ∧ ret = ret₁ := by simpa using hph₁
          exact absurd hc.symm hne
    | _ =>
        rw [hph] at hwait
        cases hwait

end Preserved

omit [DecidableEq ι] [DecidableEq C] in
theorem inv_initial (p : P) (d : D) : Inv m (initial ι p d : State ι Op P D R) := by
  constructor
  · intro t
    simp [initial, Phase.holds]
  · intro t
    trivial
  · intro t op seen hwait
    cases hwait

section Runs

variable {m} {s s' : State ι Op P D R}

/-- **One step keeps the invariant.** -/
theorem Inv.stepped (h : Inv m s) (hsignals : Signals m) {a : Action ι Op P}
    (hstep : Stepped m s a s') : Inv m s' := by
  cases hstep with
  | @call t op hph =>
      exact ⟨h.owned.keep (by rw [hph]; rfl), forall_update h.checked trivial,
        h.waited.update (by simp [hph]) (by simp)⟩
  | @lock t op howner hph =>
      have howned := h.owned
      rw [howner] at howned
      refine ⟨howned.acquire rfl, forall_update h.checked trivial,
        h.waited.update (fun op ret heq => ?_) (by simp)⟩
      rw [heq] at hph
      cases hph
  | @pass t op hph hguard =>
      exact ⟨h.owned.keep (by rw [hph]; rfl), forall_update h.checked hguard,
        h.waited.update (by simp [hph]) (by simp)⟩
  | @fail t op hph hguard =>
      exact ⟨h.owned.keep (by rw [hph]; rfl), forall_update h.checked hguard,
        h.waited.update (by simp [hph]) (by simp)⟩
  | @wait t op seen hph =>
      have hguard := h.checked t
      rw [hph] at hguard
      refine ⟨h.owned.release (by rw [hph]; rfl) rfl, forall_update h.checked trivial,
        h.waited.update (by simp [hph]) fun op' seen' heq => ?_⟩
      obtain ⟨rfl, rfl⟩ : op = op' ∧ seen = seen' := by simpa using heq
      exact hguard
  | @wake t op seen hph =>
      exact ⟨h.owned.keep (by rw [hph]; rfl), forall_update h.checked trivial,
        h.waited.update (by simp [hph]) (by simp)⟩
  | @perform t op seen hph =>
      refine ⟨h.owned.keep (by rw [hph]; rfl), fun t' => ?_,
        h.waited.perform hsignals h.owned hph _⟩
      -- only the owner has a check behind it
      show Checked m _ (Function.update s.phase t _ t')
      by_cases ht : t' = t
      · subst ht
        rw [Function.update_self]
        trivial
      · rw [Function.update_of_ne ht]
        refine checked_of_not_holds (Bool.eq_false_iff.mpr fun hholds => ht ?_)
        exact h.owned.unique hholds (by rw [hph]; rfl)
  | @notifyAll t op ret hph =>
      refine ⟨?_, ?_, h.waited.notifyAll h.owned hph⟩
      · have howned : Owned (fun t' => (s.phase t').notified m (m.notifies op)) s.owner := by
          intro t'
          rw [notified_holds]
          exact h.owned t'
        exact howned.keep (by simp only [hph]; rfl)
      · exact forall_update (fun t' => checked_notified _ (h.checked t')) trivial
  | @unlock t op ret hph =>
      exact ⟨h.owned.release (by rw [hph]; rfl) rfl, forall_update h.checked trivial,
        h.waited.update (by simp [hph]) (by simp)⟩
  | setParam p => exact ⟨h.owned, h.checked, h.waited⟩

variable {ok : State ι Op P D R → Action ι Op P → Prop} {p : P} {d : D}

theorem inv_reach (hsignals : Signals m) (h : Reach (step m) ok (initial ι p d) s) : Inv m s :=
  h.invariant (inv_initial m p d) fun _ _ _ hinv _ hstep =>
    hinv.stepped hsignals (stepped_of_step hstep)

/-- **The rule for logs**: every body is run on data for which its guard holds. -/
theorem log_invariant (hsignals : Signals m) {J : List (Op × R) → D → Prop} (hinit : J [] d)
    (hbody : ∀ log d op p, J log d → m.guard op p d = true →
      J (log ++ [(op, (m.body op d).2)]) (m.body op d).1)
    (h : Reach (step m) ok (initial ι p d) s) : J s.log s.data := by
  have hstep : ∀ s a s', Inv m s ∧ J s.log s.data → ok s a → step m s a = some s' →
      Inv m s' ∧ J s'.log s'.data := by
    intro s a s' hs _ hstep
    have hstepped := stepped_of_step hstep
    refine ⟨hs.1.stepped hsignals hstepped, ?_⟩
    cases hstepped with
    | @perform t op seen hph =>
        have hguard := hs.1.checked t
        rw [hph] at hguard
        exact hbody _ _ op seen hs.2 hguard
    | _ => exact hs.2
  exact (h.invariant ⟨inv_initial m p d, hinit⟩ hstep).2

/-- While the parameter is set between the operations only, every check has read it as it
is. -/
theorem current_reach (hsignals : Signals m) (h : Reach (step m) Quiet (initial ι p d) s) (t : ι) :
    Current s.param (s.phase t) := by
  have hstep : ∀ (s : State ι Op P D R) a s', (Inv m s ∧ ∀ t, Current s.param (s.phase t)) →
      Quiet s a → step m s a = some s' → Inv m s' ∧ ∀ t, Current s'.param (s'.phase t) := by
    intro s a s' hs hquiet hstep
    have hstepped := stepped_of_step hstep
    refine ⟨hs.1.stepped hsignals hstepped, ?_⟩
    cases hstepped with
    | pass => exact forall_update hs.2 rfl
    | @notifyAll t op ret _ =>
        refine forall_update (fun t' => ?_) trivial
        have hcurrent := hs.2 t'
        cases hph : s.phase t' with
        | waiting op' seen =>
            rw [Phase.notified]
            split <;> trivial
        | _ => rwa [hph] at hcurrent
    | setParam p' =>
        -- nobody is ready without the mutex
        intro t
        have hholds : (s.phase t).holds = false := by
          rw [Bool.eq_false_iff, ne_eq, hs.1.owned t, show s.owner = none from hquiet]
          simp
        show Current p' (s.phase t)
        cases hph : s.phase t with
        | ready op seen =>
            rw [hph] at hholds
            cases hholds
        | _ => trivial
    | _ => exact forall_update hs.2 trivial
  exact (h.invariant ⟨inv_initial m p d, fun _ => trivial⟩ hstep).2 t

/-- A pending notification wakes every waiter of its variable. -/
theorem Pending.wakes {t : ι} {op : Op} {seen : P} (h : Pending m s.phase (m.waitsOn op))
    (ht : s.phase t = .waiting op seen) :
    ∃ t' s', step m s (.notifyAll t') = some s' ∧ s'.phase t = .woken op := by
  obtain ⟨t', op', ret, hph, hc⟩ := h
  have hne : t ≠ t' := by
    rintro rfl
    rw [ht] at hph
    cases hph
  have hstep : step m s (.notifyAll t') = some { s with
      phase := Function.update (fun t'' => (s.phase t'').notified m (m.notifies op')) t'
        (.leaving op' ret) } := by
    simp only [step, hph]
  refine ⟨t', _, hstep, ?_⟩
  simp only [Function.update_of_ne hne, ht, Phase.notified, if_pos hc.symm]

end Runs

end Monitor
