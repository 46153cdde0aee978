import Mathlib.Logic.Function.Basic
import QuickMpc.Lib.ListSet

/-!
# QuickMpc.CondCount

`increment`, `load` and `Wait` of one management container, step by step.

`mu_inc` admits one increment at a time: it is `inc`, the others are `pending`.
`load` is one step when it finds an entry; otherwise it keeps `mu_load` until it has
stored a new one, and `loader` tells who does. `Store` and `Delete` take neither
lock that `load` takes, so an increment may store back what a `Wait` has deleted
after the increment loaded it.

In runs without that race, and with one `Wait` for a key at a time, what is stored
and what the finished waits have taken is at most what has been counted (`Inv`).
-/

namespace QuickMpc.CondCount

/-- `counter`; the mutex and the channel are made together, `obj` stands for both. -/
structure Counter where
  count : ℕ
  obj : ℕ
  deriving DecidableEq, Repr

/-- Where an increment is that holds `mu_inc`. -/
inductive IncPhase
  | load
  | store (mp : Counter)
  | notify (mp : Counter)
  deriving DecidableEq, Repr

/-- Where a `Wait` is. -/
inductive WaitPhase
  | load
  | lock (mp : Counter)
  | reload (mp : Counter)
  | receive (mp : Counter)
  | delete (mp : Counter)
  | unlock (mp : Counter)
  | returned
  deriving DecidableEq, Repr

namespace WaitPhase

/-- The key has been deleted. -/
def deleted : WaitPhase → Bool
  | unlock _ | returned => true
  | _ => false

/-- In a call of `load`. -/
def loading : WaitPhase → Bool
  | load | reload _ => true
  | _ => false

end WaitPhase

/-- Who has found no entry in `load` and holds `mu_load`. -/
inductive Loader
  | inc
  | wait (w : ℕ)
  deriving DecidableEq, Repr

/-- The state of a container; the increments carry a tag. -/
structure State (τ : Type) where
  count_map : String → Option Counter
  /-- The name of the next mutex and channel. -/
  fresh : ℕ
  locked : ℕ → Bool
  /-- How many goroutines send on a channel. -/
  senders : ℕ → ℕ
  loader : Option Loader
  pending : List (τ × String)
  inc : Option ((τ × String) × IncPhase)
  /-- The increments that have returned. -/
  answered : List (τ × String)
  waits : List (String × WaitPhase)

namespace State

variable {τ : Type}

/-- Nothing has been called. -/
def initial : State τ where
  count_map := fun _ => none
  fresh := 0
  locked := fun _ => false
  senders := fun _ => 0
  loader := none
  pending := []
  inc := none
  answered := []
  waits := []

def setWait (s : State τ) (w : ℕ) (key : String) (ph : WaitPhase) : State τ :=
  { s with waits := s.waits.set w (key, ph) }

/-- `load`: `none` when `mu_load` is taken; the counter is not there yet when an entry
has to be stored first. -/
def load (s : State τ) (who : Loader) (key : String) : Option (State τ × Option Counter) :=
  match s.loader with
  | none =>
    match s.count_map key with
    | some mp => some (s, some mp)
    | none => some ({ s with loader := some who }, none)
  | some l =>
    if l = who then
      let mp : Counter := ⟨0, s.fresh⟩
      some ({ s with count_map := Function.update s.count_map key (some mp), fresh := s.fresh + 1,
                     loader := none }, some mp)
    else none

/-- The next increment gets `mu_inc`. -/
def lockInc (s : State τ) (k : ℕ) : Option (State τ) :=
  match s.inc, s.pending[k]? with
  | none, some call => some { s with pending := s.pending.eraseIdx k, inc := some (call, .load) }
  | _, _ => none

/-- The increment that holds `mu_inc` goes on. -/
def incStep (s : State τ) : Option (State τ) :=
  match s.inc with
  | none => none
  | some (call, .load) =>
    match s.load .inc call.2 with
    | none => none
    | some (s', none) => some s'
    | some (s', some mp) => some { s' with inc := some (call, .store mp) }
  | some (call, .store mp) =>
    some { s with count_map := Function.update s.count_map call.2 (some ⟨mp.count + 1, mp.obj⟩),
                  inc := some (call, .notify mp) }
  | some (call, .notify mp) =>
    some { s with senders := Function.update s.senders mp.obj (s.senders mp.obj + 1), inc := none,
                  answered := s.answered ++ [call] }

/-- The `w`-th `Wait` goes on; it waits while the count is below `need`. -/
def waitStep (need : ℕ) (s : State τ) (w : ℕ) : Option (State τ) :=
  match s.waits[w]? with
  | none => none
  | some (key, .load) =>
    match s.load (.wait w) key with
    | none => none
    | some (s', none) => some s'
    | some (s', some mp) => some (s'.setWait w key (.lock mp))
  | some (key, .lock mp) =>
    if s.locked mp.obj then none
    else
      let s' := { s with locked := Function.update s.locked mp.obj true }
      some (s'.setWait w key (.reload mp))
  | some (key, .reload mp) =>
    match s.load (.wait w) key with
    | none => none
    | some (s', none) => some s'
    | some (s', some now) =>
      some (s'.setWait w key (if now.count < need then .receive mp else .delete mp))
  | some (key, .receive mp) =>
    if 0 < s.senders mp.obj then
      let s' := { s with senders := Function.update s.senders mp.obj (s.senders mp.obj - 1) }
      some (s'.setWait w key (.reload mp))
    else none
  | some (key, .delete mp) =>
    let s' := { s with count_map := Function.update s.count_map key none }
    some (s'.setWait w key (.unlock mp))
  | some (key, .unlock mp) =>
    let s' := { s with locked := Function.update s.locked mp.obj false }
    some (s'.setWait w key .returned)
  | some (_, .returned) => none

/-! ### What is counted -/

/-- The count stored for a key. -/
def stored (s : State τ) (key : String) : ℕ :=
  match s.count_map key with
  | some mp => mp.count
  | none => 0

/-- The increment holding `mu_inc`, once it has stored its count. -/
def notifying (s : State τ) : List (τ × String) :=
  match s.inc with
  | some (call, .notify _) => [call]
  | _ => []

/-- The increments that have stored their count. -/
def counted (s : State τ) (key : String) : ℕ :=
  (s.answered ++ s.notifying).countP fun call => call.2 = key

/-- The waits that have deleted the key. -/
def deleted (s : State τ) (key : String) : ℕ :=
  s.waits.countP fun wait => wait.1 = key ∧ wait.2.deleted

/-- The increments that have been called and not been lost. -/
def called (s : State τ) : List (τ × String) :=
  s.pending ++ (s.inc.toList.map Prod.fst ++ s.answered)

/-- The step of the `w`-th `Wait` is no `Delete` of a key that an increment has loaded
and is going to store. -/
def undisturbed (s : State τ) (w : ℕ) : Bool :=
  match s.waits[w]?, s.inc with
  | some (key, .delete _), some (call, .store _) => decide (call.2 ≠ key)
  | _, _ => true

/-! ### What the steps do -/

/-- `load` has returned `mp`. -/
inductive Loaded (s : State τ) (who : Loader) (key : String) (mp : Counter) : State τ → Prop
  | found : s.loader = none → s.count_map key = some mp → Loaded s who key mp s
  | created : s.loader = some who → mp = ⟨0, s.fresh⟩ → Loaded s who key mp
      { s with count_map := Function.update s.count_map key (some mp), fresh := s.fresh + 1,
               loader := none }

/-- `load` goes on: it has found no entry, or it returns. -/
inductive LoadStepped (s : State τ) (who : Loader) (key : String) : State τ × Option Counter → Prop
  | missed : s.loader = none → s.count_map key = none →
      LoadStepped s who key ({ s with loader := some who }, none)
  | loaded {mp : Counter} {s' : State τ} : Loaded s who key mp s' →
      LoadStepped s who key (s', some mp)

theorem load_cases {s : State τ} {who : Loader} {key : String} {r : State τ × Option Counter}
    (h : s.load who key = some r) : LoadStepped s who key r := by
  unfold load at h
  split at h
  · rename_i hloader
    split at h
    · rename_i mp hmp
      obtain rfl := Option.some.inj h
      exact .loaded (.found hloader hmp)
    · rename_i hnone
      obtain rfl := Option.some.inj h
      exact .missed hloader hnone
  · rename_i l hloader
    split at h
    · rename_i hl
      obtain rfl := Option.some.inj h
      exact .loaded (.created (hl ▸ hloader) rfl)
    · cases h

/-- A step of the increment that holds `mu_inc`. -/
inductive IncStepped (s : State τ) : State τ → Prop
  | miss {call : τ × String} : s.inc = some (call, .load) → s.loader = none →
      s.count_map call.2 = none → IncStepped s { s with loader := some .inc }
  | load {call : τ × String} {mp : Counter} {s' : State τ} : s.inc = some (call, .load) →
      Loaded s .inc call.2 mp s' → IncStepped s { s' with inc := some (call, .store mp) }
  | store {call : τ × String} {mp : Counter} : s.inc = some (call, .store mp) → IncStepped s
      { s with count_map := Function.update s.count_map call.2 (some ⟨mp.count + 1, mp.obj⟩),
               inc := some (call, .notify mp) }
  | notify {call : τ × String} {mp : Counter} : s.inc = some (call, .notify mp) → IncStepped s
      { s with senders := Function.update s.senders mp.obj (s.senders mp.obj + 1), inc := none,
               answered := s.answered ++ [call] }

theorem incStep_cases {s s' : State τ} (h : s.incStep = some s') : IncStepped s s' := by
  unfold incStep at h
  split at h
  · cases h
  · rename_i call hinc
    split at h
    · cases h
    · rename_i s₁ hload
      obtain rfl := Option.some.inj h
      cases load_cases hload with
      | missed hloader hnone => exact .miss hinc hloader hnone
    · rename_i s₁ mp hload
      obtain rfl := Option.some.inj h
      cases load_cases hload with
      | loaded hloaded => exact .load hinc hloaded
  · rename_i call mp hinc
    obtain rfl := Option.some.inj h
    exact .store hinc
  · rename_i call mp hinc
    obtain rfl := Option.some.inj h
    exact .notify hinc

/-- A step of the `w`-th `Wait`. -/
inductive WaitStepped (need : ℕ) (s : State τ) (w : ℕ) (key : String) : WaitPhase → State τ → Prop
  | miss {ph : WaitPhase} : ph.loading → s.loader = none → s.count_map key = none →
      WaitStepped need s w key ph { s with loader := some (.wait w) }
  | load {mp : Counter} {s' : State τ} : Loaded s (.wait w) key mp s' →
      WaitStepped need s w key .load (s'.setWait w key (.lock mp))
  | lock {mp : Counter} : s.locked mp.obj = false → WaitStepped need s w key (.lock mp)
      ({ s with locked := Function.update s.locked mp.obj true }.setWait w key (.reload mp))
  | reload {mp now : Counter} {s' : State τ} : Loaded s (.wait w) key now s' →
      WaitStepped need s w key (.reload mp)
        (s'.setWait w key (if now.count < need then .receive mp else .delete mp))
  | receive {mp : Counter} : 0 < s.senders mp.obj → WaitStepped need s w key (.receive mp)
      ({ s with senders := Function.update s.senders mp.obj (s.senders mp.obj - 1) }.setWait w key
        (.reload mp))
  | delete {mp : Counter} : WaitStepped need s w key (.delete mp)
      ({ s with count_map := Function.update s.count_map key none }.setWait w key (.unlock mp))
  | unlock {mp : Counter} : WaitStepped need s w key (.unlock mp)
      ({ s with locked := Function.update s.locked mp.obj false }.setWait w key .returned)

theorem waitStep_cases {need : ℕ} {s s' : State τ} {w : ℕ} (h : s.waitStep need w = some s') :
    ∃ key ph, s.waits[w]? = some (key, ph) ∧ WaitStepped need s w key ph s' := by
  unfold waitStep at h
  split at h
  · cases h
  · rename_i key hw
    refine ⟨key, .load, hw, ?_⟩
    split at h
    · cases h
    · rename_i s₁ hload
      obtain rfl := Option.some.inj h
      cases load_cases hload with
      | missed hloader hnone => exact .miss rfl hloader hnone
    · rename_i s₁ mp hload
      obtain rfl := Option.some.inj h
      cases load_cases hload with
      | loaded hloaded => exact .load hloaded
  · rename_i key mp hw
    split at h
    · cases h
    · rename_i hfree
      obtain rfl := Option.some.inj h
      exact ⟨key, .lock mp, hw, .lock (by simpa using hfree)⟩
  · rename_i key mp hw
    refine ⟨key, .reload mp, hw, ?_⟩
    split at h
    · cases h
    · rename_i s₁ hload
      obtain rfl := Option.some.inj h
      cases load_cases hload with
      | missed hloader hnone => exact .miss rfl hloader hnone
    · rename_i s₁ now hload
      obtain rfl := Option.some.inj h
      cases load_cases hload with
      | loaded hloaded => exact .reload hloaded
  · rename_i key mp hw
    split at h
    · rename_i hsender
      obtain rfl := Option.some.inj h
      exact ⟨key, .receive mp, hw, .receive hsender⟩
    · cases h
  · rename_i key mp hw
    obtain rfl := Option.some.inj h
    exact ⟨key, .delete mp, hw, .delete⟩
  · rename_i key mp hw
    obtain rfl := Option.some.inj h
    exact ⟨key, .unlock mp, hw, .unlock⟩
  · cases h

end State

/-! ### The balance -/

open State

variable {τ : Type} {need : ℕ} {s s' : State τ}

/-- What the steps preserve. -/
structure Inv (need : ℕ) (s : State τ) : Prop where
  /-- Of the waits for a key only the last one may not have returned. -/
  single : s.waits.Pairwise fun a b => a.1 = b.1 → a.2 = .returned
  balance : ∀ key, s.stored key + need * s.deleted key ≤ s.counted key
  storing : ∀ call mp, s.inc = some (call, .store mp) → s.count_map call.2 = some mp
  incLoads : s.loader = some .inc →
    ∃ call, s.inc = some (call, .load) ∧ s.count_map call.2 = none
  waitLoads : ∀ w, s.loader = some (.wait w) →
    ∃ key ph, s.waits[w]? = some (key, ph) ∧ ph.loading ∧ s.count_map key = none
  deleting : ∀ key mp, (key, .delete mp) ∈ s.waits → need ≤ s.stored key

theorem Inv.initial : Inv need (State.initial : State τ) where
  single := .nil
  balance := fun key => by simp [State.initial, stored, deleted, counted, notifying]
  storing := fun call mp h => by cases h
  incLoads := fun h => by cases h
  waitLoads := fun w h => by cases h
  deleting := fun key mp h => by cases h

/-- An increment that has loaded is not in `load`. -/
theorem Inv.loader_ne_inc (h : Inv need s) {call : τ × String} {ph : IncPhase}
    (hinc : s.inc = some (call, ph)) (hph : ph ≠ .load) : s.loader ≠ some .inc := by
  intro hloader
  obtain ⟨call', hcall', -⟩ := h.incLoads hloader
  rw [hinc] at hcall'
  exact hph (Prod.mk.inj (Option.some.inj hcall')).2

/-- What `load` changes when it returns. -/
structure LoadedSpec (s : State τ) (key : String) (mp : Counter) (s' : State τ) : Prop where
  waits : s'.waits = s.waits
  inc : s'.inc = s.inc
  answered : s'.answered = s.answered
  pending : s'.pending = s.pending
  loader : s'.loader = none
  self : s'.count_map key = some mp
  keep : ∀ key' mp', s.count_map key' = some mp' → s'.count_map key' = some mp'
  stored : ∀ key', s'.stored key' = s.stored key'

theorem State.Loaded.spec {who : Loader} {key : String} {mp : Counter} (h : Loaded s who key mp s')
    (hnone : s.loader = some who → s.count_map key = none) : LoadedSpec s key mp s' := by
  cases h with
  | found hloader hmp =>
      exact ⟨rfl, rfl, rfl, rfl, hloader, hmp, fun _ _ hkeep => hkeep, fun _ => rfl⟩
  | created hloader hmp =>
      refine ⟨rfl, rfl, rfl, rfl, rfl, Function.update_self .., fun key' mp' hkeep => ?_,
        fun key' => ?_⟩
      · have hne : key' ≠ key := by
          intro heq
          subst heq
          rw [hnone hloader] at hkeep
          cases hkeep
        exact (Function.update_of_ne hne ..).trans hkeep
      · by_cases hkey : key' = key
        · subst hkey
          simp [State.stored, hnone hloader, hmp]
        · simp [State.stored, Function.update_of_ne hkey]

theorem LoadedSpec.inv {key : String} {mp : Counter} (hs : LoadedSpec s key mp s')
    (h : Inv need s) : Inv need s' where
  single := hs.waits ▸ h.single
  balance := fun key' => by
    have hcounted : s'.counted key' = s.counted key' := by
      simp only [counted, notifying, hs.inc, hs.answered]
    have hdeleted : s'.deleted key' = s.deleted key' := by rw [deleted, deleted, hs.waits]
    rw [hs.stored, hcounted, hdeleted]
    exact h.balance key'
  storing := fun call mp' hinc => hs.keep _ _ (h.storing call mp' (hs.inc ▸ hinc))
  incLoads := fun hloader => by rw [hs.loader] at hloader; cases hloader
  waitLoads := fun w hloader => by rw [hs.loader] at hloader; cases hloader
  deleting := fun key' mp' hmem => by
    rw [hs.stored]
    exact h.deleting key' mp' (hs.waits ▸ hmem)

/-- The increments keep the invariant. -/
theorem Inv.incStep (h : Inv need s) (hs : IncStepped s s') : Inv need s' := by
  cases hs with
  | @miss call hinc hloader hnone =>
      exact ⟨h.single, h.balance, h.storing, fun _ => ⟨call, hinc, hnone⟩,
        fun w hwait => (by cases hwait), h.deleting⟩
  | @load call mp s₁ hinc hloaded =>
      have hspec := hloaded.spec fun hloader => by
        obtain ⟨call', hinc', hnone⟩ := h.incLoads hloader
        obtain rfl : call = call' := by
          rw [hinc] at hinc'
          exact (Prod.mk.inj (Option.some.inj hinc')).1
        exact hnone
      have hinv := hspec.inv h
      refine ⟨hinv.single, fun key => ?_, fun call' mp' hcall => ?_, fun hloader => ?_,
        fun w hloader => ?_, hinv.deleting⟩
      · have hcounted : { s₁ with inc := some (call, .store mp) }.counted key = s₁.counted key := by
          simp [counted, notifying, hspec.inc, hinc]
        rw [hcounted]
        exact hinv.balance key
      · obtain ⟨rfl, hmp⟩ := Prod.mk.inj (Option.some.inj hcall)
        obtain rfl := IncPhase.store.inj hmp
        exact hspec.self
      · rw [hspec.loader] at hloader
        cases hloader
      · rw [hspec.loader] at hloader
        cases hloader
  | @store call mp hinc =>
      have hmap := h.storing call mp hinc
      have hstored : ∀ key, { s with
          count_map := Function.update s.count_map call.2 (some ⟨mp.count + 1, mp.obj⟩),
          inc := some (call, .notify mp) }.stored key
            = s.stored key + if key = call.2 then 1 else 0 := by
        intro key
        by_cases hkey : key = call.2
        · subst hkey
          simp [stored, hmap]
        · simp [stored, hkey]
      refine ⟨h.single, fun key => ?_, fun call' mp' hcall => ?_,
        fun hloader => absurd hloader (h.loader_ne_inc hinc (by simp)),
        fun w hloader => ?_, fun key mp' hmem => ?_⟩
      · have hcounted : { s with
            count_map := Function.update s.count_map call.2 (some ⟨mp.count + 1, mp.obj⟩),
            inc := some (call, .notify mp) }.counted key
              = s.counted key + if key = call.2 then 1 else 0 := by
          simp [counted, notifying, hinc, List.countP_append, List.countP_singleton, eq_comm]
        have hbalance := h.balance key
        rw [hstored, hcounted]
        show _ + need * s.deleted key ≤ _
        omega
      · cases (Prod.mk.inj (Option.some.inj hcall)).2
      · obtain ⟨key, ph, hw, hph, hnone⟩ := h.waitLoads w hloader
        refine ⟨key, ph, hw, hph, ?_⟩
        have hne : key ≠ call.2 := by
          intro heq
          subst heq
          rw [hmap] at hnone
          cases hnone
        exact (Function.update_of_ne hne ..).trans hnone
      · rw [hstored]
        exact Nat.le_add_right_of_le (h.deleting key mp' hmem)
  | @notify call mp hinc =>
      refine ⟨h.single, fun key => ?_, fun call' mp' hcall => (by cases hcall),
        fun hloader => absurd hloader (h.loader_ne_inc hinc (by simp)), h.waitLoads, h.deleting⟩
      have hcounted : { s with
          senders := Function.update s.senders mp.obj (s.senders mp.obj + 1), inc := none,
          answered := s.answered ++ [call] }.counted key = s.counted key := by
        simp [counted, notifying, hinc]
      rw [hcounted]
      exact h.balance key

/-! ### The waits -/

theorem deleted_setWait {w : ℕ} {key : String} {ph : WaitPhase}
    (hw : s.waits[w]? = some (key, ph)) (ph' : WaitPhase) (key' : String) :
    (s.setWait w key ph').deleted key' + (if key = key' ∧ ph.deleted then 1 else 0)
      = s.deleted key' + if key = key' ∧ ph'.deleted then 1 else 0 := by
  have hcount :=
    ListSet.countP_set_add (fun wait => wait.1 = key' ∧ wait.2.deleted) hw (key, ph')
  simp only [decide_eq_true_iff] at hcount
  exact hcount

/-- Changing the phase of a wait that has not returned. -/
theorem single_setWait {w : ℕ} {key : String} {ph ph' : WaitPhase}
    (h : s.waits.Pairwise fun a b => a.1 = b.1 → a.2 = .returned)
    (hw : s.waits[w]? = some (key, ph)) (hph : ph ≠ .returned) :
    (s.setWait w key ph').waits.Pairwise fun a b => a.1 = b.1 → a.2 = .returned :=
  ListSet.pairwise_set h hw (fun _ hab hkey => absurd (hab hkey) hph) fun _ hba => hba

/-- Changing the phase of a wait, except by `Delete`. -/
theorem Inv.setWait (h : Inv need s) {w : ℕ} {key : String} {ph ph' : WaitPhase}
    (hw : s.waits[w]? = some (key, ph)) (hph : ph ≠ .returned) (hdeleted : ph'.deleted = ph.deleted)
    (hloader : s.loader ≠ some (.wait w))
    (hdelete : ∀ mp, ph' = .delete mp → need ≤ s.stored key) : Inv need (s.setWait w key ph') where
  single := single_setWait h.single hw hph
  balance := fun key' => by
    have hcount := deleted_setWait hw ph' key'
    rw [hdeleted] at hcount
    rw [Nat.add_right_cancel hcount]
    exact h.balance key'
  storing := h.storing
  incLoads := h.incLoads
  waitLoads := fun w' hw' => by
    obtain ⟨key', ph'', hget, hloading, hnone⟩ := h.waitLoads w' hw'
    have hne : w ≠ w' := by
      intro heq
      subst heq
      exact hloader hw'
    exact ⟨key', ph'', by rw [State.setWait, List.getElem?_set_ne hne, hget], hloading, hnone⟩
  deleting := fun key' mp hmem => by
    rcases List.mem_or_eq_of_mem_set hmem with hold | hnew
    · exact h.deleting key' mp hold
    · obtain ⟨rfl, hph'⟩ := Prod.mk.inj hnew
      exact hdelete mp hph'.symm

/-- Two waits for one key have not both still to return. -/
theorem Inv.not_both_running (h : Inv need s) {w w' : ℕ} (hne : w ≠ w') {key : String}
    {ph ph' : WaitPhase} (hw : s.waits[w]? = some (key, ph)) (hw' : s.waits[w']? = some (key, ph'))
    (hph : ph ≠ .returned) (hph' : ph' ≠ .returned) : False := by
  have hsingle := List.pairwise_iff_getElem.mp h.single
  obtain ⟨hlt, hget⟩ := List.getElem?_eq_some_iff.mp hw
  obtain ⟨hlt', hget'⟩ := List.getElem?_eq_some_iff.mp hw'
  rcases Nat.lt_or_gt_of_ne hne with hless | hmore
  · have hreturned := hsingle w w' hlt hlt' hless
    rw [hget, hget'] at hreturned
    exact hph (hreturned rfl)
  · have hreturned := hsingle w' w hlt' hlt hmore
    rw [hget, hget'] at hreturned
    exact hph' (hreturned rfl)

/-- No stored count is left for a key without one. -/
theorem update_count_map_none {key key' : String} (hkey : s.count_map key' = none) :
    Function.update s.count_map key none key' = none := by
  by_cases heq : key' = key
  · rw [heq]
    exact Function.update_self ..
  · exact (Function.update_of_ne heq ..).trans hkey

/-- `Delete` takes the count of its key, when no increment is about to store it back. -/
theorem Inv.delete (h : Inv need s) {w : ℕ} {key : String} {mp : Counter}
    (hw : s.waits[w]? = some (key, .delete mp)) (hidle : s.loader ≠ some (.wait w))
    (hnotStoring : ∀ call mp', s.inc = some (call, .store mp') → call.2 ≠ key) :
    Inv need
      ({ s with count_map := Function.update s.count_map key none }.setWait w key (.unlock mp)) := by
  have hmem : (key, .delete mp) ∈ s.waits := List.mem_of_getElem? hw
  have hstored : ∀ key', key' ≠ key →
      { s with count_map := Function.update s.count_map key none }.stored key'
        = s.stored key' := fun key' hne => by simp [stored, hne]
  refine ⟨single_setWait h.single hw (by simp), fun key' => ?_, fun call mp' hinc => ?_,
    fun hloader => ?_, fun w' hloader => ?_, fun key' mp' hmem' => ?_⟩
  · have hcount := deleted_setWait hw (.unlock mp) key'
    have hbalance := h.balance key'
    have hneed := h.deleting key mp hmem
    show State.stored { s with count_map := Function.update s.count_map key none } key'
      + need * (s.setWait w key (.unlock mp)).deleted key' ≤ s.counted key'
    by_cases hkey : key = key'
    · -- the count is taken
      subst hkey
      simp only [true_and, WaitPhase.deleted, if_true, Bool.false_eq_true, if_false,
        Nat.add_zero] at hcount
      have hzero : State.stored
          { s with count_map := Function.update s.count_map key none } key = 0 := by
        simp [stored]
      rw [hzero, hcount, Nat.mul_add, Nat.mul_one]
      omega
    · simp only [hkey, false_and, if_false, Nat.add_zero] at hcount
      rw [hstored key' (Ne.symm hkey), hcount]
      exact hbalance
  · have hne := hnotStoring call mp' hinc
    exact (Function.update_of_ne hne ..).trans (h.storing call mp' hinc)
  · obtain ⟨call, hinc, hmap⟩ := h.incLoads hloader
    exact ⟨call, hinc, update_count_map_none hmap⟩
  · obtain ⟨key', ph', hget, hloading, hmap⟩ := h.waitLoads w' hloader
    have hne : w ≠ w' := by
      intro heq
      subst heq
      exact hidle hloader
    exact ⟨key', ph', (List.getElem?_set_ne hne).trans hget, hloading,
      update_count_map_none hmap⟩
  · obtain ⟨w', hget⟩ := List.mem_iff_getElem?.mp hmem'
    have hne : w ≠ w' := by
      intro heq
      subst heq
      rw [State.setWait, List.getElem?_set_self (List.getElem?_eq_some_iff.mp hw).1] at hget
      cases (Prod.mk.inj (Option.some.inj hget)).2
    have hold : s.waits[w']? = some (key', .delete mp') :=
      (List.getElem?_set_ne hne).symm.trans hget
    have hkey : key' ≠ key := by
      intro heq
      subst heq
      exact h.not_both_running hne hw hold (by simp) (by simp)
    show need ≤ State.stored { s with count_map := Function.update s.count_map key none } key'
    rw [hstored key' hkey]
    exact h.deleting key' mp' (List.mem_of_getElem? hold)

/-- The waits keep the invariant, unless they delete what an increment has loaded. -/
theorem Inv.waitStep (h : Inv need s) {w : ℕ} (hok : s.undisturbed w = true) {key : String}
    {ph : WaitPhase} (hw : s.waits[w]? = some (key, ph)) (hs : WaitStepped need s w key ph s') :
    Inv need s' := by
  have hidle : ∀ ph', ph = ph' → ph'.loading = false → s.loader ≠ some (.wait w) := by
    rintro ph' rfl hph hloader
    obtain ⟨key', ph'', hget, hloading, -⟩ := h.waitLoads w hloader
    rw [hw] at hget
    obtain ⟨-, rfl⟩ := Prod.mk.inj (Option.some.inj hget)
    rw [hph] at hloading
    cases hloading
  have hnone : s.loader = some (.wait w) → s.count_map key = none := by
    intro hloader
    obtain ⟨key', ph', hget, -, hnone⟩ := h.waitLoads w hloader
    rw [hw] at hget
    obtain ⟨rfl, -⟩ := Prod.mk.inj (Option.some.inj hget)
    exact hnone
  cases hs with
  | miss hph hloader hmap =>
      refine ⟨h.single, h.balance, h.storing, fun hinc => (by cases hinc), fun w' hw' => ?_,
        h.deleting⟩
      obtain rfl : w = w' := Loader.wait.inj (Option.some.inj hw')
      exact ⟨key, ph, hw, hph, hmap⟩
  | load hloaded =>
      have hspec := hloaded.spec hnone
      have hw₁ := hspec.waits.symm ▸ hw
      refine (hspec.inv h).setWait hw₁ (by simp) rfl ?_ fun mp hmp => by cases hmp
      rw [hspec.loader]
      simp
  | @reload mp now s₁ hloaded =>
      have hspec := hloaded.spec hnone
      have hw₁ := hspec.waits.symm ▸ hw
      refine (hspec.inv h).setWait hw₁ (by simp) ?_ ?_ fun mp' hmp' => ?_
      · split <;> rfl
      · rw [hspec.loader]
        simp
      · split at hmp'
        · cases hmp'
        · rename_i hcount
          simpa [stored, hspec.self] using hcount
  | @lock mp hfree =>
      have hinv : Inv need { s with locked := Function.update s.locked mp.obj true } :=
        ⟨h.single, h.balance, h.storing, h.incLoads, h.waitLoads, h.deleting⟩
      exact hinv.setWait hw (by simp) rfl (hidle _ rfl rfl) fun mp' hmp' => by cases hmp'
  | @receive mp hsender =>
      have hinv : Inv need
          { s with senders := Function.update s.senders mp.obj (s.senders mp.obj - 1) } :=
        ⟨h.single, h.balance, h.storing, h.incLoads, h.waitLoads, h.deleting⟩
      exact hinv.setWait hw (by simp) rfl (hidle _ rfl rfl) fun mp' hmp' => by cases hmp'
  | @unlock mp =>
      have hinv : Inv need { s with locked := Function.update s.locked mp.obj false } :=
        ⟨h.single, h.balance, h.storing, h.incLoads, h.waitLoads, h.deleting⟩
      exact hinv.setWait hw (by simp) rfl (hidle _ rfl rfl) fun mp' hmp' => by cases hmp'
  | @delete mp =>
      refine h.delete hw (hidle _ rfl rfl) fun call mp' hinc => ?_
      rw [undisturbed, hw, hinc] at hok
      simpa using hok

/-! ### Calls from outside -/

/-- An `increment` is called. -/
theorem Inv.callIncrement (h : Inv need s) (call : τ × String) :
    Inv need { s with pending := s.pending ++ [call] } :=
  ⟨h.single, h.balance, h.storing, h.incLoads, h.waitLoads, h.deleting⟩

theorem lockInc_eq_some {k : ℕ} (h : s.lockInc k = some s') :
    ∃ call, s.inc = none ∧ s.pending[k]? = some call ∧
      s' = { s with pending := s.pending.eraseIdx k, inc := some (call, .load) } := by
  unfold lockInc at h
  split at h
  · rename_i call hinc hcall
    exact ⟨call, hinc, hcall, (Option.some.inj h).symm⟩
  · cases h

theorem Inv.lockInc (h : Inv need s) {k : ℕ} (hs : s.lockInc k = some s') : Inv need s' := by
  obtain ⟨call, hinc, hcall, rfl⟩ := lockInc_eq_some hs
  refine ⟨h.single, fun key => ?_, fun call' mp hcall' => ?_, fun hloader => ?_, h.waitLoads,
    h.deleting⟩
  · have hcounted :
        { s with pending := s.pending.eraseIdx k, inc := some (call, .load) }.counted key
          = s.counted key := by
      simp [counted, notifying, hinc]
    rw [hcounted]
    exact h.balance key
  · cases (Prod.mk.inj (Option.some.inj hcall')).2
  · obtain ⟨call', hinc', -⟩ := h.incLoads hloader
    rw [hinc] at hinc'
    cases hinc'

/-- `Wait` is called when the earlier waits for the key have returned. -/
theorem Inv.callWait (h : Inv need s) {key : String}
    (hreturned : ∀ ph, (key, ph) ∈ s.waits → ph = .returned) :
    Inv need { s with waits := s.waits ++ [(key, .load)] } where
  single := by
    refine List.pairwise_append.mpr ⟨h.single, List.pairwise_singleton .., fun a ha b hb hkey => ?_⟩
    obtain rfl := List.mem_singleton.mp hb
    obtain ⟨key', ph⟩ := a
    obtain rfl : key' = key := hkey
    exact hreturned ph ha
  balance := fun key' => by
    have hdeleted : State.deleted { s with waits := s.waits ++ [(key, WaitPhase.load)] } key'
        = s.deleted key' := by
      have hload : WaitPhase.load.deleted = false := rfl
      simp [deleted, List.countP_append, hload]
    rw [hdeleted]
    exact h.balance key'
  storing := h.storing
  incLoads := h.incLoads
  waitLoads := fun w hw => by
    obtain ⟨key', ph, hget, hloading, hmap⟩ := h.waitLoads w hw
    refine ⟨key', ph, ?_, hloading, hmap⟩
    rw [List.getElem?_append_left (List.getElem?_eq_some_iff.mp hget).1, hget]
  deleting := fun key' mp hmem => by
    rcases List.mem_append.mp hmem with hold | hnew
    · exact h.deleting key' mp hold
    · cases (Prod.mk.inj (List.mem_singleton.mp hnew)).2

/-- All waits for a key but one have deleted it. -/
theorem Inv.countP_le (h : Inv need s) (key : String) :
    (s.waits.countP fun wait => wait.1 = key) ≤ s.deleted key + 1 := by
  have hlist : ∀ {waits : List (String × WaitPhase)},
      waits.Pairwise (fun a b => a.1 = b.1 → a.2 = .returned) →
      (waits.countP fun wait => wait.1 = key)
        ≤ (waits.countP fun wait => wait.1 = key ∧ wait.2.deleted) + 1 := by
    intro waits hpairwise
    induction hpairwise with
    | nil => simp
    | @cons a waits ha _ ih =>
        rw [List.countP_cons, List.countP_cons]
        by_cases hkey : a.1 = key
        · by_cases hreturned : a.2 = .returned
          · have hdeleted : a.2.deleted = true := by rw [hreturned]; rfl
            simp only [hkey, hdeleted, decide_true, and_self, if_true]
            omega
          · -- it is the last one for the key
            have hnone : (waits.countP fun wait => wait.1 = key) = 0 := by
              refine List.countP_eq_zero.mpr fun b hb hb' => hreturned (ha b hb ?_)
              rw [hkey]
              exact (of_decide_eq_true hb').symm
            rw [hnone]
            simp only [hkey, decide_true, if_true]
            omega
        · simp only [hkey, decide_false, false_and, Bool.false_eq_true, if_false]
          omega
  exact hlist h.single

/-! ### What the steps leave alone -/

theorem State.Loaded.called_eq {who : Loader} {key : String} {mp : Counter}
    (h : Loaded s who key mp s') : s'.called = s.called ∧ s'.waits = s.waits := by
  cases h with
  | found _ _ => exact ⟨rfl, rfl⟩
  | created _ _ => exact ⟨rfl, rfl⟩

theorem called_lockInc {k : ℕ} (hs : s.lockInc k = some s') :
    s'.called.Perm s.called ∧ s'.waits = s.waits := by
  obtain ⟨call, hinc, hcall, rfl⟩ := lockInc_eq_some hs
  refine ⟨?_, rfl⟩
  obtain ⟨hlt, rfl⟩ := List.getElem?_eq_some_iff.mp hcall
  have hperm := List.getElem_cons_eraseIdx_perm hlt
  simp only [called, hinc]
  exact List.perm_middle.trans (hperm.append_right _)

theorem called_incStep (hs : IncStepped s s') : s'.called.Perm s.called ∧ s'.waits = s.waits := by
  cases hs with
  | miss hinc _ _ => exact ⟨.refl _, rfl⟩
  | load hinc hloaded =>
      cases hloaded with
      | found _ _ => exact ⟨.of_eq (by simp [called, hinc]), rfl⟩
      | created _ _ => exact ⟨.of_eq (by simp [called, hinc]), rfl⟩
  | store hinc => exact ⟨.of_eq (by simp [called, hinc]), rfl⟩
  | @notify call mp hinc =>
      refine ⟨?_, rfl⟩
      simp only [called, hinc, Option.toList_none, Option.toList_some, List.map_nil, List.map_cons,
        List.nil_append]
      exact List.perm_append_comm.append_left _

/-- A wait changes its own phase, from one in which it has not returned. -/
theorem waits_waitStep {w : ℕ} {key : String} {ph : WaitPhase} (hw : s.waits[w]? = some (key, ph))
    (hs : WaitStepped need s w key ph s') :
    s'.called = s.called ∧ ph ≠ .returned ∧ ∃ ph', s'.waits = s.waits.set w (key, ph') := by
  have hself : s.waits = s.waits.set w (key, ph) := by
    obtain ⟨hlt, hget⟩ := List.getElem?_eq_some_iff.mp hw
    rw [← hget, List.set_getElem_self]
  cases hs with
  | miss hph _ _ => exact ⟨rfl, (by rintro rfl; cases hph), ph, hself⟩
  | load hloaded =>
      obtain ⟨hcalled, hwaits⟩ := hloaded.called_eq
      exact ⟨hcalled, by simp, _, by rw [setWait, hwaits]⟩
  | reload hloaded =>
      obtain ⟨hcalled, hwaits⟩ := hloaded.called_eq
      exact ⟨hcalled, by simp, _, by rw [setWait, hwaits]⟩
  | lock _ => exact ⟨rfl, by simp, _, rfl⟩
  | receive _ => exact ⟨rfl, by simp, _, rfl⟩
  | delete => exact ⟨rfl, by simp, _, rfl⟩
  | unlock => exact ⟨rfl, by simp, _, rfl⟩

end QuickMpc.CondCount
