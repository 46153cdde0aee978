import QuickMpc.DbGate.LockSet
import QuickMpc.Lib.ListSet
import QuickMpc.Lib.StepSystem

/-!
# QuickMpc.DbGate.LockTokens

`lockSet` step by step, for any goroutines that lock and unlock any keys.

`Lock` and `Unlock` first get the channel of the key with `LoadOrStore`. Whoever has
stored it starts a goroutine that sends on it, and so does `Unlock`: a pending send is
the token that `Lock` receives. A token is held from the receive to the call of
`Unlock`; from then to the receive it is on its way back (`pending`). Every registered
key has one token (`lockSet_exclusive`), when a goroutine unlocks only what it holds.

Each step does to the pending sends what `LockSet` says (`Channels.offers_step`).
-/

namespace QuickMpc.DbGate.LockTokens

open StepSystem

inductive Op
  | lock
  | unlock
  deriving DecidableEq, Repr

/-- Where a goroutine is. -/
inductive Phase
  | idle
  /-- In front of `LoadOrStore`. -/
  | loading (op : Op) (k : String)
  /-- Has stored the channel, and is going to start the first send. -/
  | stored (op : Op) (k : String) (ch : ℕ)
  /-- Has got the channel, in front of the receive or of the `go` of `Unlock`. -/
  | gotChan (op : Op) (k : String) (ch : ℕ)
  deriving DecidableEq, Repr

structure Goroutine where
  /-- The keys for which it is between `Lock` and `Unlock`. -/
  held : List String
  phase : Phase
  deriving DecidableEq, Repr

structure State where
  /-- The channels of the registered keys. -/
  set : String → Option ℕ
  /-- The name of the next channel. -/
  fresh : ℕ
  /-- How many goroutines that have been started send on a channel. -/
  senders : ℕ → ℕ
  goroutines : List Goroutine

inductive Action
  /-- A goroutine is started. -/
  | start
  | call (t : ℕ) (op : Op) (k : String)
  /-- The goroutine `t` goes on in its call. -/
  | advance (t : ℕ)

namespace State

/-- `NewLockSet`. -/
def initial : State where
  set := fun _ => none
  fresh := 0
  senders := fun _ => 0
  goroutines := []

def setGoroutine (s : State) (t : ℕ) (g : Goroutine) : State :=
  { s with goroutines := s.goroutines.set t g }

def addSender (s : State) (ch : ℕ) : State :=
  { s with senders := Function.update s.senders ch (s.senders ch + 1) }

end State

/-- What a goroutine holds while it is in a call. -/
def Op.keeps (k : String) (held : List String) : Op → List String
  | .lock => held
  | .unlock => held.erase k

/-- One step of a goroutine. -/
def step (s : State) : Action → Option State
  | .start => some { s with goroutines := s.goroutines ++ [⟨[], .idle⟩] }
  | .call t op k =>
    match s.goroutines[t]? with
    | some ⟨held, .idle⟩ => some (s.setGoroutine t ⟨op.keeps k held, .loading op k⟩)
    | _ => none
  | .advance t =>
    match s.goroutines[t]? with
    | some ⟨held, .loading op k⟩ =>
      match s.set k with
      | some ch => some (s.setGoroutine t ⟨held, .gotChan op k ch⟩)
      | none =>
        some ({ s with set := Function.update s.set k (some s.fresh),
                       fresh := s.fresh + 1 }.setGoroutine t ⟨held, .stored op k s.fresh⟩)
    | some ⟨held, .stored op k ch⟩ =>
      some ((s.addSender ch).setGoroutine t ⟨held, .gotChan op k ch⟩)
    | some ⟨held, .gotChan .lock k ch⟩ =>
      if 0 < s.senders ch then
        let s' := { s with senders := Function.update s.senders ch (s.senders ch - 1) }
        some (s'.setGoroutine t ⟨k :: held, .idle⟩)
      else none
    | some ⟨held, .gotChan .unlock _ ch⟩ =>
      some ((s.addSender ch).setGoroutine t ⟨held, .idle⟩)
    | some ⟨_, .idle⟩ | none => none

/-- `Unlock` is called for a key that the goroutine has locked. -/
def paired (s : State) : Action → Bool
  | .call t .unlock k => (s.goroutines[t]?).all fun g => decide (k ∈ g.held)
  | _ => true

/-! ### Tokens -/

namespace Phase

/-- The key of the call. -/
def key : Phase → Option String
  | idle => none
  | loading _ k | stored _ k _ | gotChan _ k _ => some k

/-- `Unlock` has been called for the key and has not started its send. -/
def releasing (k : String) : Phase → Bool
  | idle => false
  | loading op k' | stored op k' _ | gotChan op k' _ => op = .unlock ∧ k' = k

/-- The first send for the key has not been started. -/
def starting (k : String) : Phase → Bool
  | stored _ k' _ => k' = k
  | _ => false

/-- The channel that `LoadOrStore` has returned, with its key. -/
def channel : Phase → Option (String × ℕ)
  | stored _ k ch | gotChan _ k ch => some (k, ch)
  | _ => none

end Phase

/-- How often the lock of a key is held. -/
def holders (gs : List Goroutine) (k : String) : ℕ := (gs.map fun g => g.held.count k).sum

/-- The sends that `Unlock` is going to start. -/
def releases (gs : List Goroutine) (k : String) : ℕ := gs.countP fun g => g.phase.releasing k

/-- The first sends that have not been started. -/
def starts (gs : List Goroutine) (k : String) : ℕ := gs.countP fun g => g.phase.starting k

namespace State

/-- The sends for the keys, but for those that `Unlock` is going to start. -/
def offers (s : State) : LockSet := fun k =>
  (s.set k).map fun ch => s.senders ch + starts s.goroutines k

/-- The sends for a key that are pending. -/
def pending (s : State) (k : String) : ℕ := (s.offers k).getD 0 + releases s.goroutines k

/-- The key for which an action is. -/
def keyOf (s : State) : Action → Option String
  | .start => none
  | .call _ _ k => some k
  | .advance t => (s.goroutines[t]?).bind fun g => g.phase.key

end State

/-! ### What a step does -/

/-- A step. -/
inductive Stepped (s : State) : Action → State → Prop
  | start : Stepped s .start { s with goroutines := s.goroutines ++ [⟨[], .idle⟩] }
  | call {t : ℕ} {op : Op} {k : String} {held : List String} :
      s.goroutines[t]? = some ⟨held, .idle⟩ →
      Stepped s (.call t op k) (s.setGoroutine t ⟨op.keeps k held, .loading op k⟩)
  | load {t ch : ℕ} {op : Op} {k : String} {held : List String} :
      s.goroutines[t]? = some ⟨held, .loading op k⟩ → s.set k = some ch →
      Stepped s (.advance t) (s.setGoroutine t ⟨held, .gotChan op k ch⟩)
  | store {t : ℕ} {op : Op} {k : String} {held : List String} :
      s.goroutines[t]? = some ⟨held, .loading op k⟩ → s.set k = none →
      Stepped s (.advance t)
        ({ s with set := Function.update s.set k (some s.fresh),
                  fresh := s.fresh + 1 }.setGoroutine t ⟨held, .stored op k s.fresh⟩)
  | first {t ch : ℕ} {op : Op} {k : String} {held : List String} :
      s.goroutines[t]? = some ⟨held, .stored op k ch⟩ →
      Stepped s (.advance t) ((s.addSender ch).setGoroutine t ⟨held, .gotChan op k ch⟩)
  | receive {t ch : ℕ} {k : String} {held : List String} :
      s.goroutines[t]? = some ⟨held, .gotChan .lock k ch⟩ → 0 < s.senders ch →
      Stepped s (.advance t)
        ({ s with senders := Function.update s.senders ch (s.senders ch - 1) }.setGoroutine t
          ⟨k :: held, .idle⟩)
  | send {t ch : ℕ} {k : String} {held : List String} :
      s.goroutines[t]? = some ⟨held, .gotChan .unlock k ch⟩ →
      Stepped s (.advance t) ((s.addSender ch).setGoroutine t ⟨held, .idle⟩)

theorem step_cases {s s' : State} {a : Action} (h : step s a = some s') : Stepped s a s' := by
  cases a with
  | start =>
      obtain rfl := Option.some.inj h
      exact .start
  | call t op k =>
      simp only [step] at h
      split at h
      · rename_i hg
        obtain rfl := Option.some.inj h
        exact .call hg
      · cases h
  | advance t =>
      simp only [step] at h
      split at h
      · rename_i hg
        split at h
        · rename_i hch
          obtain rfl := Option.some.inj h
          exact .load hg hch
        · rename_i hnone
          obtain rfl := Option.some.inj h
          exact .store hg hnone
      · rename_i hg
        obtain rfl := Option.some.inj h
        exact .first hg
      · rename_i hg
        split at h
        · rename_i hpos
          obtain rfl := Option.some.inj h
          exact .receive hg hpos
        · cases h
      · rename_i hg
        obtain rfl := Option.some.inj h
        exact .send hg
      · cases h
      · cases h

namespace State

@[simp] theorem set_setGoroutine (s : State) (t : ℕ) (g : Goroutine) :
    (s.setGoroutine t g).set = s.set := rfl

@[simp] theorem fresh_setGoroutine (s : State) (t : ℕ) (g : Goroutine) :
    (s.setGoroutine t g).fresh = s.fresh := rfl

@[simp] theorem senders_setGoroutine (s : State) (t : ℕ) (g : Goroutine) :
    (s.setGoroutine t g).senders = s.senders := rfl

@[simp] theorem goroutines_setGoroutine (s : State) (t : ℕ) (g : Goroutine) :
    (s.setGoroutine t g).goroutines = s.goroutines.set t g := rfl

@[simp] theorem set_addSender (s : State) (ch : ℕ) : (s.addSender ch).set = s.set := rfl

@[simp] theorem fresh_addSender (s : State) (ch : ℕ) : (s.addSender ch).fresh = s.fresh := rfl

@[simp] theorem senders_addSender (s : State) (ch : ℕ) :
    (s.addSender ch).senders = Function.update s.senders ch (s.senders ch + 1) := rfl

@[simp] theorem goroutines_addSender (s : State) (ch : ℕ) :
    (s.addSender ch).goroutines = s.goroutines := rfl

theorem pending_of_none {s : State} {k : String} (h : s.set k = none) :
    s.pending k = releases s.goroutines k := by
  simp [pending, offers, h]

end State

variable {gs : List Goroutine} {t : ℕ} {g : Goroutine}

theorem holders_set (ht : gs[t]? = some g) (g' : Goroutine) (k : String) :
    holders (gs.set t g') k + g.held.count k = holders gs k + g'.held.count k :=
  ListSet.sum_map_set (fun g => g.held.count k) ht g'

theorem releases_set (ht : gs[t]? = some g) (g' : Goroutine) (k : String) :
    releases (gs.set t g') k + (if g.phase.releasing k then 1 else 0)
      = releases gs k + if g'.phase.releasing k then 1 else 0 :=
  ListSet.countP_set_add (fun g : Goroutine => g.phase.releasing k) ht g'

theorem starts_set (ht : gs[t]? = some g) (g' : Goroutine) (k : String) :
    starts (gs.set t g') k + (if g.phase.starting k then 1 else 0)
      = starts gs k + if g'.phase.starting k then 1 else 0 :=
  ListSet.countP_set_add (fun g : Goroutine => g.phase.starting k) ht g'

/-! ### The invariant -/

/-- Each registered key has a channel of its own. -/
structure Channels (s : State) : Prop where
  channel : ∀ g ∈ s.goroutines, ∀ k ch, g.phase.channel = some (k, ch) → s.set k = some ch
  distinct : ∀ k k' ch, s.set k = some ch → s.set k' = some ch → k = k'
  old : ∀ k ch, s.set k = some ch → ch < s.fresh
  unused : ∀ ch, s.fresh ≤ ch → s.senders ch = 0

structure Inv (s : State) : Prop extends Channels s where
  /-- A registered key has one token. -/
  tokens : ∀ k, holders s.goroutines k + s.pending k = (s.set k).elim 0 fun _ => 1

theorem Inv.initial : Inv State.initial where
  channel := fun g hg => by cases hg
  distinct := fun k k' ch h => by cases h
  old := fun k ch h => by cases h
  unused := fun ch _ => rfl
  tokens := fun k => rfl

/-! ### Other keys -/

theorem Phase.releasing_of_key_ne {ph : Phase} {k : String} (h : ph.key ≠ some k) :
    ph.releasing k = false := by
  cases ph with
  | idle => rfl
  | loading op k' | stored op k' ch | gotChan op k' ch =>
      have hne : k' ≠ k := fun heq => h (congrArg some heq)
      simp [releasing, hne]

theorem Phase.starting_of_key_ne {ph : Phase} {k : String} (h : ph.key ≠ some k) :
    ph.starting k = false := by
  cases ph with
  | idle => rfl
  | loading op k' => rfl
  | stored op k' ch => simpa [starting, key] using h
  | gotChan op k' ch => rfl

theorem count_keeps_of_ne {k k' : String} (h : k' ≠ k) (held : List String) (op : Op) :
    (op.keeps k held).count k' = held.count k' := by
  cases op with
  | lock => rfl
  | unlock => exact List.count_erase_of_ne h

/-- A goroutine goes on that is busy with other keys. -/
theorem counts_set_of_ne (ht : gs[t]? = some g) (g' : Goroutine) {k : String}
    (hheld : g'.held.count k = g.held.count k) (hkey : g.phase.key ≠ some k)
    (hkey' : g'.phase.key ≠ some k) :
    holders (gs.set t g') k = holders gs k ∧ releases (gs.set t g') k = releases gs k ∧
      starts (gs.set t g') k = starts gs k := by
  have hholders := holders_set ht g' k
  have hreleases := releases_set ht g' k
  have hstarts := starts_set ht g' k
  simp only [Phase.releasing_of_key_ne hkey, Phase.releasing_of_key_ne hkey'] at hreleases
  simp only [Phase.starting_of_key_ne hkey, Phase.starting_of_key_ne hkey'] at hstarts
  omega

variable {s s' : State} {a : Action}

theorem offers_congr {k : String} (hset : s'.set k = s.set k)
    (hsenders : ∀ ch, s.set k = some ch → s'.senders ch = s.senders ch)
    (hstarts : starts s'.goroutines k = starts s.goroutines k) : s'.offers k = s.offers k := by
  cases hk : s.set k with
  | none => simp [State.offers, hset, hk]
  | some ch => simp [State.offers, hset, hk, hsenders ch hk, hstarts]

/-- Another key has another channel. -/
theorem Channels.senders_of_ne (h : Channels s) {k k' : String} {ch : ℕ} (hch : s.set k = some ch)
    (hne : k' ≠ k) (offers : ℕ) (ch' : ℕ) (hch' : s.set k' = some ch') :
    Function.update s.senders ch offers ch' = s.senders ch' := by
  refine Function.update_of_ne (fun heq => hne ?_) ..
  exact h.distinct k' k ch (heq ▸ hch') hch

/-- The channel of a goroutine that has got one. -/
theorem Channels.channel_eq (h : Channels s) {t : ℕ} {held : List String} {ph : Phase}
    {k : String} {ch : ℕ} (hg : s.goroutines[t]? = some ⟨held, ph⟩)
    (hph : ph.channel = some (k, ch)) : s.set k = some ch :=
  h.channel _ (List.mem_of_getElem? hg) k ch hph

/-- A step leaves the other keys alone. -/
theorem Channels.frame (h : Channels s) (hs : Stepped s a s') {k : String}
    (hk : s.keyOf a ≠ some k) :
    s'.set k = s.set k ∧ holders s'.goroutines k = holders s.goroutines k ∧
      releases s'.goroutines k = releases s.goroutines k ∧ s'.offers k = s.offers k := by
  have hne : ∀ {t g k₀}, a = .advance t → s.goroutines[t]? = some g → g.phase.key = some k₀ →
      k ≠ k₀ := by
    intro t g k₀ ha hg hkey heq
    subst ha heq
    exact hk (by simp [State.keyOf, hg, hkey])
  cases hs with
  | start =>
      have hholders : holders (s.goroutines ++ [⟨[], .idle⟩]) k = holders s.goroutines k := by
        simp [holders]
      refine ⟨rfl, hholders, ?_, offers_congr rfl (fun _ _ => rfl) ?_⟩
      · simp [releases, Phase.releasing]
      · simp [starts, Phase.starting]
  | @call t op k₀ held hg =>
      have hne : k ≠ k₀ := fun heq => hk (congrArg some heq.symm)
      obtain ⟨hholders, hreleases, hstarts⟩ := counts_set_of_ne hg
        ⟨op.keeps k₀ held, .loading op k₀⟩ (count_keeps_of_ne hne held op) (by simp [Phase.key])
        (by simpa [Phase.key] using hne.symm)
      exact ⟨rfl, hholders, hreleases, offers_congr rfl (fun _ _ => rfl) hstarts⟩
  | @load t ch op k₀ held hg hch =>
      have hne := hne rfl hg rfl
      obtain ⟨hholders, hreleases, hstarts⟩ := counts_set_of_ne hg ⟨held, .gotChan op k₀ ch⟩
        (k := k) rfl (by simpa [Phase.key] using hne.symm) (by simpa [Phase.key] using hne.symm)
      exact ⟨rfl, hholders, hreleases, offers_congr rfl (fun _ _ => rfl) hstarts⟩
  | @store t op k₀ held hg hnone =>
      have hne := hne rfl hg rfl
      obtain ⟨hholders, hreleases, hstarts⟩ := counts_set_of_ne hg ⟨held, .stored op k₀ s.fresh⟩
        (k := k) rfl (by simpa [Phase.key] using hne.symm) (by simpa [Phase.key] using hne.symm)
      have hset : Function.update s.set k₀ (some s.fresh) k = s.set k :=
        Function.update_of_ne hne ..
      exact ⟨hset, hholders, hreleases, offers_congr hset (fun _ _ => rfl) hstarts⟩
  | @first t ch op k₀ held hg =>
      have hne := hne rfl hg rfl
      obtain ⟨hholders, hreleases, hstarts⟩ := counts_set_of_ne hg ⟨held, .gotChan op k₀ ch⟩
        (k := k) rfl (by simpa [Phase.key] using hne.symm) (by simpa [Phase.key] using hne.symm)
      exact ⟨rfl, hholders, hreleases,
        offers_congr rfl (h.senders_of_ne (h.channel_eq hg rfl) hne _) hstarts⟩
  | @receive t ch k₀ held hg hpos =>
      have hne := hne rfl hg rfl
      obtain ⟨hholders, hreleases, hstarts⟩ := counts_set_of_ne hg ⟨k₀ :: held, .idle⟩ (k := k)
        (List.count_cons_of_ne hne.symm) (by simpa [Phase.key] using hne.symm)
        (by simp [Phase.key])
      exact ⟨rfl, hholders, hreleases,
        offers_congr rfl (h.senders_of_ne (h.channel_eq hg rfl) hne _) hstarts⟩
  | @send t ch k₀ held hg =>
      have hne := hne rfl hg rfl
      obtain ⟨hholders, hreleases, hstarts⟩ := counts_set_of_ne hg ⟨held, .idle⟩ (k := k) rfl
        (by simpa [Phase.key] using hne.symm) (by simp [Phase.key])
      exact ⟨rfl, hholders, hreleases,
        offers_congr rfl (h.senders_of_ne (h.channel_eq hg rfl) hne _) hstarts⟩

/-! ### The key of a step -/

/-- Nobody is going to send first for a key that is not registered. -/
theorem Channels.starts_of_none (h : Channels s) {k : String} (hk : s.set k = none) :
    starts s.goroutines k = 0 := by
  refine List.countP_eq_zero.mpr fun g hg hstarting => ?_
  cases hph : g.phase with
  | stored op k' ch =>
      obtain rfl : k' = k := by simpa [hph, Phase.starting] using hstarting
      have hch := h.channel g hg k' ch (by simp [hph, Phase.channel])
      rw [hk] at hch
      cases hch
  | _ => simp [hph, Phase.starting] at hstarting

/-- A step moves the token of its key, or makes it. -/
theorem Inv.balance (h : Inv s) (hpaired : paired s a = true) (hs : Stepped s a s') {k : String}
    (hk : s.keyOf a = some k) :
    holders s'.goroutines k + s'.pending k = (s'.set k).elim 0 fun _ => 1 := by
  have htokens := h.tokens k
  cases hs with
  | start => cases hk
  | @call t op k₀ held hg =>
      obtain rfl : k₀ = k := Option.some.inj hk
      have hholders := holders_set hg ⟨op.keeps k₀ held, .loading op k₀⟩ k₀
      have hreleases := releases_set hg ⟨op.keeps k₀ held, .loading op k₀⟩ k₀
      have hstarts := starts_set hg ⟨op.keeps k₀ held, .loading op k₀⟩ k₀
      simp [Phase.releasing, Phase.starting] at hreleases hstarts
      rw [State.set_setGoroutine, ← htokens]
      simp only [State.pending, State.offers, State.set_setGoroutine, State.senders_setGoroutine,
        State.goroutines_setGoroutine, hstarts]
      cases op with
      | lock =>
          simp [Op.keeps] at hholders hreleases ⊢
          omega
      | unlock =>
          -- the token that the goroutine holds is on its way back
          have hmem : k₀ ∈ held := by simpa [paired, hg] using hpaired
          have hcount := List.count_pos_iff.mpr hmem
          simp [Op.keeps] at hholders hreleases ⊢
          omega
  | @load t ch op k₀ held hg hch =>
      obtain rfl : k₀ = k := by simpa [State.keyOf, hg, Phase.key] using hk
      have hholders := holders_set hg ⟨held, .gotChan op k₀ ch⟩ k₀
      have hreleases := releases_set hg ⟨held, .gotChan op k₀ ch⟩ k₀
      have hstarts := starts_set hg ⟨held, .gotChan op k₀ ch⟩ k₀
      simp [Phase.releasing, Phase.starting] at hholders hreleases hstarts
      simp [State.pending, State.offers, hch] at htokens ⊢
      omega
  | @store t op k₀ held hg hnone =>
      obtain rfl : k₀ = k := by simpa [State.keyOf, hg, Phase.key] using hk
      have hset : Function.update s.set k₀ (some s.fresh) k₀ = some s.fresh :=
        Function.update_self ..
      have hholders := holders_set hg ⟨held, .stored op k₀ s.fresh⟩ k₀
      have hreleases := releases_set hg ⟨held, .stored op k₀ s.fresh⟩ k₀
      have hstarts := starts_set hg ⟨held, .stored op k₀ s.fresh⟩ k₀
      simp [Phase.releasing, Phase.starting, h.starts_of_none hnone] at hholders hreleases hstarts
      have hnew := h.unused s.fresh le_rfl
      rw [State.pending_of_none hnone, hnone] at htokens
      simp only [State.pending, State.offers, State.set_setGoroutine, State.senders_setGoroutine,
        State.goroutines_setGoroutine, hset, Option.map_some, Option.getD_some, Option.elim_some,
        Option.elim_none] at htokens ⊢
      omega
  | @first t ch op k₀ held hg =>
      obtain rfl : k₀ = k := by simpa [State.keyOf, hg, Phase.key] using hk
      have hch := h.channel_eq hg rfl
      have hholders := holders_set hg ⟨held, .gotChan op k₀ ch⟩ k₀
      have hreleases := releases_set hg ⟨held, .gotChan op k₀ ch⟩ k₀
      have hstarts := starts_set hg ⟨held, .gotChan op k₀ ch⟩ k₀
      simp [Phase.releasing, Phase.starting] at hholders hreleases hstarts
      simp [State.pending, State.offers, hch] at htokens ⊢
      omega
  | @receive t ch k₀ held hg hpos =>
      obtain rfl : k₀ = k := by simpa [State.keyOf, hg, Phase.key] using hk
      have hch := h.channel_eq hg rfl
      have hholders := holders_set hg ⟨k₀ :: held, .idle⟩ k₀
      have hreleases := releases_set hg ⟨k₀ :: held, .idle⟩ k₀
      have hstarts := starts_set hg ⟨k₀ :: held, .idle⟩ k₀
      simp [Phase.releasing, Phase.starting] at hholders hreleases hstarts
      simp [State.pending, State.offers, hch] at htokens ⊢
      omega
  | @send t ch k₀ held hg =>
      obtain rfl : k₀ = k := by simpa [State.keyOf, hg, Phase.key] using hk
      have hch := h.channel_eq hg rfl
      have hholders := holders_set hg ⟨held, .idle⟩ k₀
      have hreleases := releases_set hg ⟨held, .idle⟩ k₀
      have hstarts := starts_set hg ⟨held, .idle⟩ k₀
      simp [Phase.releasing, Phase.starting] at hholders hreleases hstarts
      simp [State.pending, State.offers, hch] at htokens ⊢
      omega

/-! ### Channels -/

/-- A goroutine goes on, with the channel of its key if it has one. -/
theorem Channels.setGoroutine (h : Channels s) (t : ℕ) {g : Goroutine}
    (hg : ∀ k ch, g.phase.channel = some (k, ch) → s.set k = some ch) :
    Channels (s.setGoroutine t g) := by
  refine ⟨fun g' hg' => ?_, h.distinct, h.old, h.unused⟩
  rcases List.mem_or_eq_of_mem_set hg' with hold | rfl
  · exact h.channel g' hold
  · exact hg

/-- The senders of a registered channel change. -/
theorem Channels.setSenders (h : Channels s) {k : String} {ch : ℕ} (hch : s.set k = some ch)
    (offers : ℕ) : Channels { s with senders := Function.update s.senders ch offers } := by
  refine ⟨h.channel, h.distinct, h.old, fun ch' hfresh => ?_⟩
  have hne : ch' ≠ ch := Nat.ne_of_gt (Nat.lt_of_lt_of_le (h.old k ch hch) hfresh)
  exact (Function.update_of_ne hne ..).trans (h.unused ch' hfresh)

/-- A key is registered. -/
theorem Channels.register (h : Channels s) {k : String} (hk : s.set k = none) :
    Channels { s with set := Function.update s.set k (some s.fresh), fresh := s.fresh + 1 } := by
  have hcases : ∀ {k' ch}, Function.update s.set k (some s.fresh) k' = some ch →
      k' = k ∧ ch = s.fresh ∨ s.set k' = some ch := by
    intro k' ch hch
    by_cases heq : k' = k
    · subst heq
      rw [Function.update_self] at hch
      exact .inl ⟨rfl, (Option.some.inj hch).symm⟩
    · rw [Function.update_of_ne heq] at hch
      exact .inr hch
  refine ⟨fun g hg k' ch hch => ?_, fun k₁ k₂ ch h₁ h₂ => ?_, fun k' ch hch => ?_,
    fun ch hfresh => h.unused ch (Nat.le_of_succ_le hfresh)⟩
  · have hold := h.channel g hg k' ch hch
    have hne : k' ≠ k := by
      intro heq
      rw [heq, hk] at hold
      cases hold
    exact (Function.update_of_ne hne ..).trans hold
  · rcases hcases h₁ with ⟨rfl, rfl⟩ | hold₁
    · rcases hcases h₂ with ⟨rfl, -⟩ | hold₂
      · rfl
      · exact absurd (h.old k₂ _ hold₂) (Nat.lt_irrefl _)
    · rcases hcases h₂ with ⟨rfl, rfl⟩ | hold₂
      · exact absurd (h.old k₁ _ hold₁) (Nat.lt_irrefl _)
      · exact h.distinct k₁ k₂ ch hold₁ hold₂
  · rcases hcases hch with ⟨-, rfl⟩ | hold
    · exact Nat.lt_succ_self _
    · exact Nat.lt_succ_of_lt (h.old k' ch hold)

theorem Channels.stepped (h : Channels s) (hs : Stepped s a s') : Channels s' := by
  cases hs with
  | start =>
      refine ⟨fun g hg k ch hch => ?_, h.distinct, h.old, h.unused⟩
      rcases List.mem_append.mp hg with hold | hnew
      · exact h.channel g hold k ch hch
      · obtain rfl := List.mem_singleton.mp hnew
        cases hch
  | call hg => exact h.setGoroutine _ fun k ch hch => by cases hch
  | load hg hset =>
      refine h.setGoroutine _ fun k ch hch => ?_
      obtain ⟨rfl, rfl⟩ := Prod.mk.inj (Option.some.inj hch)
      exact hset
  | @store t op k held hg hnone =>
      refine (h.register hnone).setGoroutine _ fun k' ch hch => ?_
      obtain ⟨rfl, rfl⟩ := Prod.mk.inj (Option.some.inj hch)
      exact Function.update_self ..
  | first hg =>
      refine (h.setSenders (h.channel_eq hg rfl) _).setGoroutine _ fun k ch hch => ?_
      exact h.channel_eq hg hch
  | receive hg hpos =>
      exact (h.setSenders (h.channel_eq hg rfl) _).setGoroutine _ fun k ch hch => by cases hch
  | send hg =>
      exact (h.setSenders (h.channel_eq hg rfl) _).setGoroutine _ fun k ch hch => by cases hch

/-! ### `LockSet` -/

/-- Two lock sets that differ at one key. -/
theorem eq_update {ls ls' : LockSet} {k : String} {offers : Option ℕ} (hk : ls' k = offers)
    (hne : ∀ k', k' ≠ k → ls' k' = ls k') : ls' = Function.update ls k offers := by
  funext k'
  by_cases heq : k' = k
  · rw [heq, hk, Function.update_self]
  · rw [hne k' heq, Function.update_of_ne heq]

theorem getChan_of_some {ls : LockSet} {k : String} {offers : ℕ} (hk : ls k = some offers) :
    ls.getChan k = ls := by
  simp [LockSet.getChan, hk]

/-- What a step does to the pending sends: the `LoadOrStore` is `getChan`, the receive is
`lock` and the `go` of `Unlock` is `unlock`. -/
theorem Channels.offers_step (h : Channels s) (hs : Stepped s a s') :
    match a with
    | .start | .call _ _ _ => s'.offers = s.offers
    | .advance t => ∃ g, s.goroutines[t]? = some g ∧
      match g.phase with
      | .loading _ k => s'.offers = s.offers.getChan k
      | .stored _ _ _ => s'.offers = s.offers
      | .gotChan .lock k _ => s.offers.lock k = some s'.offers
      | .gotChan .unlock k _ => s'.offers = s.offers.unlock k
      | .idle => False := by
  have hframe : ∀ k, s.keyOf a ≠ some k → s'.offers k = s.offers k := fun k hk =>
    (h.frame hs hk).2.2.2
  cases hs with
  | start =>
      funext k
      exact hframe k (by simp [State.keyOf])
  | @call t op k held hg =>
      have hstarts := starts_set hg ⟨op.keeps k held, .loading op k⟩ k
      simp [Phase.starting] at hstarts
      funext k'
      by_cases hk : k' = k
      · simp [hk, State.offers, hstarts]
      · exact hframe k' fun heq => hk (Option.some.inj heq).symm
  | @load t ch op k held hg hch =>
      refine ⟨_, hg, ?_⟩
      have hstarts := starts_set hg ⟨held, .gotChan op k ch⟩ k
      simp [Phase.starting] at hstarts
      have hoffers : s.offers k = some (s.senders ch + starts s.goroutines k) := by
        simp [State.offers, hch]
      show _ = s.offers.getChan k
      rw [getChan_of_some hoffers]
      funext k'
      by_cases hk : k' = k
      · simp [hk, State.offers, hstarts]
      · exact hframe k' (by simpa [State.keyOf, hg, Phase.key] using Ne.symm hk)
  | @store t op k held hg hnone =>
      refine ⟨_, hg, ?_⟩
      have hstarts := starts_set hg ⟨held, .stored op k s.fresh⟩ k
      simp [Phase.starting, h.starts_of_none hnone] at hstarts
      have hoffers : s.offers k = none := by simp [State.offers, hnone]
      show _ = s.offers.getChan k
      simp only [LockSet.getChan, hoffers]
      refine eq_update ?_ fun k' hk => hframe k' ?_
      · simp [State.offers, hstarts, h.unused s.fresh le_rfl]
      · simpa [State.keyOf, hg, Phase.key] using Ne.symm hk
  | @first t ch op k held hg =>
      refine ⟨_, hg, ?_⟩
      have hch := h.channel_eq hg rfl
      have hstarts := starts_set hg ⟨held, .gotChan op k ch⟩ k
      simp [Phase.starting] at hstarts
      funext k'
      by_cases hk : k' = k
      · simp [hk, State.offers, hch, ← hstarts]
        omega
      · exact hframe k' (by simpa [State.keyOf, hg, Phase.key] using Ne.symm hk)
  | @receive t ch k held hg hpos =>
      refine ⟨_, hg, ?_⟩
      have hch := h.channel_eq hg rfl
      have hstarts := starts_set hg ⟨k :: held, .idle⟩ k
      simp [Phase.starting] at hstarts
      obtain ⟨offers, hsenders⟩ := Nat.exists_eq_add_of_lt hpos
      have hoffers : s.offers k = some (offers + starts s.goroutines k + 1) := by
        simp [State.offers, hch, hsenders]
        omega
      show s.offers.lock k = some _
      simp only [LockSet.lock, getChan_of_some hoffers, hoffers]
      refine congrArg some (eq_update ?_ fun k' hk => hframe k' ?_).symm
      · simp [State.offers, hch, hstarts, hsenders]
      · simpa [State.keyOf, hg, Phase.key] using Ne.symm hk
  | @send t ch k held hg =>
      refine ⟨_, hg, ?_⟩
      have hch := h.channel_eq hg rfl
      have hstarts := starts_set hg ⟨held, .idle⟩ k
      simp [Phase.starting] at hstarts
      have hoffers : s.offers k = some (s.senders ch + starts s.goroutines k) := by
        simp [State.offers, hch]
      show _ = s.offers.unlock k
      simp only [LockSet.unlock, getChan_of_some hoffers, hoffers, Option.getD_some]
      refine eq_update ?_ fun k' hk => hframe k' ?_
      · simp [State.offers, hch, hstarts]
        omega
      · simpa [State.keyOf, hg, Phase.key] using Ne.symm hk

/-! ### Runs -/

/-- The paired steps keep the invariant. -/
theorem Inv.step (s : State) (a : Action) (s' : State) (h : Inv s) (hpaired : paired s a = true)
    (hstep : step s a = some s') : Inv s' := by
  have hs := step_cases hstep
  refine ⟨h.toChannels.stepped hs, fun k => ?_⟩
  by_cases hk : s.keyOf a = some k
  · exact h.balance hpaired hs hk
  · obtain ⟨hset, hholders, hreleases, hoffers⟩ := h.frame hs hk
    rw [hset, hholders, State.pending, hoffers, hreleases]
    exact h.tokens k

/-- Two goroutines that hold the lock of a key, in different places, hold it twice. -/
theorem two_le_holders {gs : List Goroutine} {t t' : ℕ} {g g' : Goroutine} (hg : gs[t]? = some g)
    (hg' : gs[t']? = some g') (hne : t ≠ t') {k : String} (hk : k ∈ g.held) (hk' : k ∈ g'.held) :
    2 ≤ holders gs k := by
  have hget : (gs.set t ⟨[], .idle⟩)[t']? = some g' := (List.getElem?_set_ne hne).trans hg'
  have hset := holders_set hg ⟨[], .idle⟩ k
  have hset' := holders_set hget ⟨[], .idle⟩ k
  have hpos := List.count_pos_iff.mpr hk
  have hpos' := List.count_pos_iff.mpr hk'
  simp only [List.count_nil] at hset hset'
  omega

/-- **The lock set excludes**, in every run in which only the holder of a key unlocks it: at
most one goroutine holds a key, whoever registered it and when; the token of a registered key is
with its holder or in its channel, and there is only this one; and a step for one key leaves all
other keys alone. -/
theorem lockSet_exclusive {s : State}
    (h : Reach step (fun s a => paired s a = true) State.initial s) :
    (∀ (k : String) (t t' : ℕ) (g g' : Goroutine), s.goroutines[t]? = some g →
      s.goroutines[t']? = some g' → k ∈ g.held → k ∈ g'.held → t = t') ∧
    (∀ k, holders s.goroutines k ≤ 1) ∧
    (∀ k, s.set k ≠ none → holders s.goroutines k + s.pending k = 1) ∧
    ∀ a s', step s a = some s' → ∀ k, s.keyOf a ≠ some k →
      s'.set k = s.set k ∧ holders s'.goroutines k = holders s.goroutines k ∧
        s'.pending k = s.pending k := by
  have hinv : Inv s := h.invariant .initial Inv.step
  have hle : ∀ k, holders s.goroutines k ≤ 1 := by
    intro k
    have htokens := hinv.tokens k
    cases hk : s.set k with
    | none =>
        rw [hk, Option.elim_none] at htokens
        omega
    | some ch =>
        rw [hk, Option.elim_some] at htokens
        omega
  refine ⟨fun k t t' g g' hg hg' hmem hmem' => ?_, hle, fun k hk => ?_,
    fun a s' hstep k hk => ?_⟩
  · by_contra hne
    have htwo := two_le_holders hg hg' hne hmem hmem'
    exact absurd (hle k) (Nat.not_le.mpr htwo)
  · obtain ⟨ch, hch⟩ := Option.ne_none_iff_exists'.mp hk
    have htokens := hinv.tokens k
    rw [hch] at htokens
    exact htokens
  · obtain ⟨hset, hholders, hreleases, hoffers⟩ := hinv.frame (step_cases hstep) hk
    exact ⟨hset, hholders, by rw [State.pending, State.pending, hoffers, hreleases]⟩

/-- Three goroutines; the first one holds the lock again after the second one. -/
theorem lockSet_exclusive_three : ∃ s : State,
    s.goroutines = [⟨["a"], .idle⟩, ⟨[], .idle⟩, ⟨[], .gotChan .lock "a" 0⟩] ∧
    s.pending "a" = 0 ∧ ∀ k, holders s.goroutines k ≤ 1 := by
  let run : List Action := List.replicate 3 .start
    ++ [.call 0 .lock "a", .call 1 .lock "a", .call 2 .lock "a", .advance 1, .advance 0,
      .advance 2, .advance 1, .advance 1, .call 1 .unlock "a", .advance 1, .advance 1, .advance 0]
  have hrun : (exec (restrict step fun s a => paired s a = true) run State.initial).map
      (fun s => (s.goroutines, s.pending "a"))
      = some ([⟨["a"], .idle⟩, ⟨[], .idle⟩, ⟨[], .gotChan .lock "a" 0⟩], 0) := by decide
  obtain ⟨s, hs, hparts⟩ := Option.map_eq_some_iff.mp hrun
  obtain ⟨hgoroutines, hpending⟩ := Prod.mk.inj hparts
  exact ⟨s, hgoroutines, hpending,
    (lockSet_exclusive (Reach.exec_restrict run .refl hs)).2.1⟩

end QuickMpc.DbGate.LockTokens
