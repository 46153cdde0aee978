import QuickMpc.CondCount
import QuickMpc.Lib.StepSystem

/-!
# QuickMpc.CondCount.WakeUp

Whether `Wait` misses a wake-up: any goroutines call `increment` and `Wait`, for any
keys, and go on in any order. The `w`-th call of `Wait` waits while the count is below
`need w`.

A `Wait` receives on the channel that it has loaded first, and an increment sends on the
channel that it has loaded. They miss each other once the entry of the key has got
another channel: the `Delete` of an earlier `Wait` takes away an entry that a second
`Wait` has loaded, or an increment stores an entry back after a `Delete`, over the one
that a new `Wait` has made. When no step does that (`keepsChannels`), no wake-up is
missed.
-/

namespace QuickMpc.CondCount

open StepSystem

namespace WaitPhase

/-- The channel that a `Wait` may still receive from. -/
def channel : WaitPhase → Option ℕ
  | lock mp | reload mp | receive mp => some mp.obj
  | _ => none

/-- The mutex that a `Wait` holds. -/
def mutex : WaitPhase → Option ℕ
  | reload mp | receive mp | delete mp | unlock mp => some mp.obj
  | _ => none

end WaitPhase

namespace State

variable {τ : Type}

/-- The channels that the waits for a key may still receive from; a `Wait` for
`count < 0` never does. -/
def channels (need : ℕ → ℕ) (s : State τ) (key : String) : List ℕ :=
  (List.range s.waits.length).filterMap fun w =>
    match s.waits[w]? with
    | some (key', ph) => if key' = key ∧ 0 < need w then ph.channel else none
    | none => none

/-- An increment that has stored its count has yet to send on the channel. -/
def Sending (s : State τ) (ch : ℕ) : Prop :=
  0 < s.senders ch ∨ ∃ call mp, s.inc = some (call, .notify mp) ∧ mp.obj = ch

/-- The `w`-th `Wait` holds the mutex. -/
def Holds (s : State τ) (w m : ℕ) : Prop :=
  ∃ key ph, s.waits[w]? = some (key, ph) ∧ ph.mutex = some m

theorem mem_channels {need : ℕ → ℕ} {s : State τ} {key : String} {ch : ℕ} :
    ch ∈ s.channels need key ↔
      ∃ w ph, s.waits[w]? = some (key, ph) ∧ 0 < need w ∧ ph.channel = some ch := by
  simp only [channels, List.mem_filterMap, List.mem_range]
  constructor
  · intro ⟨w, _, hch⟩
    split at hch
    · rename_i key' ph hw
      split at hch
      · rename_i hkey
        obtain ⟨rfl, hneed⟩ := hkey
        exact ⟨w, ph, hw, hneed, hch⟩
      · cases hch
    · cases hch
  · intro ⟨w, ph, hw, hneed, hch⟩
    exact ⟨w, (List.getElem?_eq_some_iff.mp hw).1, by simp [hw, hneed, hch]⟩

end State

namespace WakeUp

variable {τ : Type} {need : ℕ → ℕ} {s s' : State τ}

inductive Action (τ : Type)
  /-- `increment` is called. -/
  | increment (call : τ × String)
  /-- `Wait` is called. -/
  | wait (key : String)
  | lockInc (k : ℕ)
  | incStep
  | waitStep (w : ℕ)

/-- One step of a goroutine. -/
def step (need : ℕ → ℕ) (s : State τ) : Action τ → Option (State τ)
  | .increment call => some { s with pending := s.pending ++ [call] }
  | .wait key => some { s with waits := s.waits ++ [(key, .load)] }
  | .lockInc k => s.lockInc k
  | .incStep => s.incStep
  | .waitStep w => s.waitStep (need w) w

/-- For a `Wait` that receives although its condition is false, an increment is about to
send on its channel. -/
def NoMissedWakeUp (need : ℕ → ℕ) (s : State τ) : Prop :=
  ∀ w key mp, s.waits[w]? = some (key, .receive mp) → need w ≤ s.stored key → s.Sending mp.obj

/-- The step does not take from the entry of a key the channel that a `Wait` may still
receive from. -/
def keepsChannels (need : ℕ → ℕ) (s : State τ) : Action τ → Bool
  | .waitStep w =>
    match s.waits[w]? with
    | some (key, .delete _) => (s.channels need key).isEmpty
    | _ => true
  | .incStep =>
    match s.inc with
    | some (call, .store mp) => (s.channels need call.2).all fun ch => ch = mp.obj
    | _ => true
  | _ => true

/-! ### The invariant -/

/-- What the steps that keep the channels preserve. -/
structure Awake (need : ℕ → ℕ) (s : State τ) : Prop where
  /-- The waits for a key receive on the channel of its entry. -/
  heard : ∀ key, ∀ ch ∈ s.channels need key, ∃ count, s.count_map key = some ⟨count, ch⟩
  incLoads : s.loader = some .inc →
    ∃ call, s.inc = some (call, .load) ∧ s.channels need call.2 = []
  waitLoads : ∀ w, s.loader = some (.wait w) →
    ∃ key ph, s.waits[w]? = some (key, ph) ∧ s.channels need key = []
  locked : ∀ w m, s.Holds w m → s.locked m = true
  exclusive : ∀ w w' m, s.Holds w m → s.Holds w' m → w = w'
  /-- The condition of a `Wait` that receives has been true. -/
  receiving : ∀ w key mp, s.waits[w]? = some (key, .receive mp) → 0 < need w
  noMissed : NoMissedWakeUp need s

theorem Awake.initial : Awake need (State.initial : State τ) where
  heard := fun key ch hch => by cases hch
  incLoads := fun h => by cases h
  waitLoads := fun w h => by cases h
  locked := fun w m h => by simp [State.Holds, State.initial] at h
  exclusive := fun w w' m h => by simp [State.Holds, State.initial] at h
  receiving := fun w key mp hw => by simp [State.initial] at hw
  noMissed := fun w key mp hw => by simp [State.initial] at hw

/-- A `Wait` that receives may receive from its channel. -/
theorem Awake.receive_mem (h : Awake need s) {w : ℕ} {key : String} {mp : Counter}
    (hw : s.waits[w]? = some (key, .receive mp)) : mp.obj ∈ s.channels need key :=
  State.mem_channels.mpr ⟨w, _, hw, h.receiving w key mp hw, rfl⟩

/-- An increment that has loaded is not in `load`. -/
theorem Awake.loader_ne_inc (h : Awake need s) {call : τ × String} {ph : IncPhase}
    (hinc : s.inc = some (call, ph)) (hph : ph ≠ .load) : s.loader ≠ some .inc := by
  intro hloader
  obtain ⟨call', hcall', -⟩ := h.incLoads hloader
  rw [hinc] at hcall'
  exact hph (Prod.mk.inj (Option.some.inj hcall')).2

/-- Nobody receives for a key without an entry. -/
theorem Awake.channels_of_none (h : Awake need s) {key : String} (hkey : s.count_map key = none) :
    s.channels need key = [] := by
  refine List.eq_nil_iff_forall_not_mem.mpr fun ch hch => ?_
  obtain ⟨count, hcount⟩ := h.heard key ch hch
  rw [hkey] at hcount
  cases hcount

/-! ### Entries -/

/-- The entry of a key that nobody receives for is changed. -/
theorem Awake.setEntry (h : Awake need s) {key : String} (hkey : s.channels need key = [])
    (entry : Option Counter) :
    Awake need { s with count_map := Function.update s.count_map key entry } := by
  refine ⟨fun key' ch hch => ?_, h.incLoads, h.waitLoads, h.locked, h.exclusive, h.receiving,
    fun w key' mp hw hneed => ?_⟩
  · have hne : key' ≠ key := by
      intro heq
      subst heq
      exact absurd (hkey ▸ hch) List.not_mem_nil
    obtain ⟨count, hcount⟩ := h.heard key' ch hch
    exact ⟨count, (Function.update_of_ne hne ..).trans hcount⟩
  · have hne : key' ≠ key := by
      intro heq
      subst heq
      exact absurd (hkey ▸ h.receive_mem hw) List.not_mem_nil
    have hstored : State.stored { s with count_map := Function.update s.count_map key entry } key'
        = s.stored key' := by simp [State.stored, hne]
    rw [hstored] at hneed
    exact h.noMissed w key' mp hw hneed

/-- `load` has returned. -/
theorem Awake.loaded (h : Awake need s) {who : Loader} {key : String} {mp : Counter}
    (hloaded : State.Loaded s who key mp s')
    (hkey : s.loader = some who → s.channels need key = []) :
    Awake need s' ∧ s'.loader = none ∧ s'.count_map key = some mp ∧
      s'.waits = s.waits ∧ s'.inc = s.inc := by
  cases hloaded with
  | found hloader hmp => exact ⟨h, hloader, hmp, rfl, rfl⟩
  | created hloader hmp =>
      have hentry := h.setEntry (hkey hloader) (some mp)
      exact ⟨⟨hentry.heard, fun hnone => (by cases hnone), fun w hnone => (by cases hnone),
        hentry.locked, hentry.exclusive, hentry.receiving, hentry.noMissed⟩, rfl,
        by simp, rfl, rfl⟩

/-! ### Phases of a wait -/

theorem getElem?_setWait {w : ℕ} {key : String} {ph : WaitPhase}
    (hw : s.waits[w]? = some (key, ph)) (ph' : WaitPhase) (w' : ℕ) :
    (s.setWait w key ph').waits[w']? = if w' = w then some (key, ph') else s.waits[w']? := by
  by_cases heq : w' = w
  · subst heq
    simp [State.setWait, (List.getElem?_eq_some_iff.mp hw).1]
  · simp [State.setWait, heq, Ne.symm heq]

/-- A wait after the `w`-th one has gone on. -/
theorem setWait_cases {w : ℕ} {key : String} {ph ph' : WaitPhase}
    (hw : s.waits[w]? = some (key, ph)) {w' : ℕ} {key' : String} {ph'' : WaitPhase}
    (hw' : (s.setWait w key ph').waits[w']? = some (key', ph'')) :
    w' = w ∧ key' = key ∧ ph'' = ph' ∨ w' ≠ w ∧ s.waits[w']? = some (key', ph'') := by
  rw [getElem?_setWait hw] at hw'
  split at hw'
  · rename_i heq
    obtain ⟨rfl, rfl⟩ := Prod.mk.inj (Option.some.inj hw')
    exact .inl ⟨heq, rfl, rfl⟩
  · rename_i hne
    exact .inr ⟨hne, hw'⟩

theorem mem_channels_setWait {w : ℕ} {key : String} {ph ph' : WaitPhase}
    (hw : s.waits[w]? = some (key, ph)) {key' : String} {ch : ℕ}
    (hch : ch ∈ (s.setWait w key ph').channels need key') :
    ch ∈ s.channels need key' ∨ key' = key ∧ 0 < need w ∧ ph'.channel = some ch := by
  obtain ⟨w', ph'', hw', hneed, hphase⟩ := State.mem_channels.mp hch
  rcases setWait_cases hw hw' with ⟨rfl, rfl, rfl⟩ | ⟨-, hold⟩
  · exact .inr ⟨rfl, hneed, hphase⟩
  · exact .inl (State.mem_channels.mpr ⟨w', ph'', hold, hneed, hphase⟩)

theorem holds_setWait {w : ℕ} {key : String} {ph ph' : WaitPhase}
    (hw : s.waits[w]? = some (key, ph)) {w' m : ℕ} (hholds : (s.setWait w key ph').Holds w' m) :
    w' = w ∧ ph'.mutex = some m ∨ w' ≠ w ∧ s.Holds w' m := by
  obtain ⟨key', ph'', hw', hmutex⟩ := hholds
  rcases setWait_cases hw hw' with ⟨rfl, rfl, rfl⟩ | ⟨hne, hold⟩
  · exact .inl ⟨rfl, hmutex⟩
  · exact .inr ⟨hne, key', ph'', hold, hmutex⟩

/-- A `Wait` goes on: to the channel it had or one it has loaded, with a mutex that no
other `Wait` holds, and it receives when its condition is true. -/
theorem Awake.setWait (h : Awake need s) {w : ℕ} {key : String} {ph ph' : WaitPhase}
    (hw : s.waits[w]? = some (key, ph))
    (hchannel : ∀ ch, ph'.channel = some ch →
      ph.channel = some ch ∨ s.loader = none ∧ ∃ count, s.count_map key = some ⟨count, ch⟩)
    (hmutex : ∀ m, ph'.mutex = some m → s.locked m = true ∧ ∀ w', s.Holds w' m → w' = w)
    (hreceive : ∀ mp, ph' = .receive mp → s.stored key < need w) :
    Awake need (s.setWait w key ph') := by
  -- while an entry is missing, nobody gets a channel
  have hsame : ∀ {who}, s.loader = some who → ∀ key',
      (s.setWait w key ph').channels need key' ⊆ s.channels need key' := by
    intro who hloader key' ch hch
    rcases mem_channels_setWait hw hch with hold | ⟨rfl, hneed, hnew⟩
    · exact hold
    · rcases hchannel ch hnew with hold | ⟨hnone, -⟩
      · exact State.mem_channels.mpr ⟨w, ph, hw, hneed, hold⟩
      · rw [hnone] at hloader
        cases hloader
  refine ⟨fun key' ch hch => ?_, fun hloader => ?_, fun w' hloader => ?_, fun w' m hholds => ?_,
    fun w₁ w₂ m h₁ h₂ => ?_, fun w' key' mp hw' => ?_, fun w' key' mp hw' hneed => ?_⟩
  · rcases mem_channels_setWait hw hch with hold | ⟨rfl, hneed, hnew⟩
    · exact h.heard key' ch hold
    · rcases hchannel ch hnew with hold | ⟨-, hcount⟩
      · exact h.heard key' ch (State.mem_channels.mpr ⟨w, ph, hw, hneed, hold⟩)
      · exact hcount
  · obtain ⟨call, hinc, hkey⟩ := h.incLoads hloader
    exact ⟨call, hinc, List.subset_nil.mp (hkey ▸ hsame hloader call.2)⟩
  · obtain ⟨key', ph'', hw', hkey⟩ := h.waitLoads w' hloader
    have hnil := List.subset_nil.mp (hkey ▸ hsame hloader key')
    by_cases heq : w' = w
    · subst heq
      rw [hw] at hw'
      obtain ⟨rfl, -⟩ := Prod.mk.inj (Option.some.inj hw')
      exact ⟨key, ph', by simp [getElem?_setWait hw], hnil⟩
    · exact ⟨key', ph'', by simp [getElem?_setWait hw, heq, hw'], hnil⟩
  · rcases holds_setWait hw hholds with ⟨rfl, hnew⟩ | ⟨-, hold⟩
    · exact (hmutex m hnew).1
    · exact h.locked w' m hold
  · rcases holds_setWait hw h₁ with ⟨rfl, hnew₁⟩ | ⟨-, hold₁⟩
    · rcases holds_setWait hw h₂ with ⟨rfl, -⟩ | ⟨-, hold₂⟩
      · rfl
      · exact ((hmutex m hnew₁).2 w₂ hold₂).symm
    · rcases holds_setWait hw h₂ with ⟨rfl, hnew₂⟩ | ⟨-, hold₂⟩
      · exact (hmutex m hnew₂).2 w₁ hold₁
      · exact h.exclusive w₁ w₂ m hold₁ hold₂
  · rcases setWait_cases hw hw' with ⟨rfl, rfl, hph'⟩ | ⟨-, hold⟩
    · exact Nat.zero_lt_of_lt (hreceive mp hph'.symm)
    · exact h.receiving w' key' mp hold
  · rcases setWait_cases hw hw' with ⟨rfl, rfl, hph'⟩ | ⟨-, hold⟩
    · exact absurd (hreceive mp hph'.symm) (Nat.not_lt.mpr hneed)
    · exact h.noMissed w' key' mp hold hneed

/-! ### Steps of a wait -/

/-- A `Wait` has its mutex alone. -/
theorem Awake.mutex_held (h : Awake need s) {w : ℕ} {key : String} {ph : WaitPhase}
    (hw : s.waits[w]? = some (key, ph)) {m : ℕ} (hm : ph.mutex = some m) :
    s.locked m = true ∧ ∀ w', s.Holds w' m → w' = w := by
  have hholds : s.Holds w m := ⟨key, ph, hw, hm⟩
  exact ⟨h.locked w m hholds, fun w' h' => h.exclusive w' w m h' hholds⟩

/-- A `Wait` gets a free mutex. -/
theorem Awake.lock (h : Awake need s) {w : ℕ} {key : String} {mp : Counter}
    (hw : s.waits[w]? = some (key, .lock mp)) (hfree : s.locked mp.obj = false) :
    Awake need ({ s with locked := Function.update s.locked mp.obj true }.setWait w key
      (.reload mp)) := by
  have hlocked : Awake need { s with locked := Function.update s.locked mp.obj true } := by
    refine ⟨h.heard, h.incLoads, h.waitLoads, fun w' m hholds => ?_, h.exclusive, h.receiving,
      h.noMissed⟩
    simp [Function.update_apply, h.locked w' m hholds]
  refine hlocked.setWait hw (fun ch hch => .inl hch) (fun m hm => ?_)
    fun mp' hmp' => (by cases hmp')
  obtain rfl : mp.obj = m := Option.some.inj hm
  refine ⟨by simp, fun w' hholds => ?_⟩
  have htaken := h.locked w' mp.obj hholds
  rw [hfree] at htaken
  cases htaken

/-- A `Wait` has received: nobody else receives from the channel. -/
theorem Awake.takeSender (h : Awake need s) {w : ℕ} {key : String} {mp : Counter}
    (hw : s.waits[w]? = some (key, .reload mp)) :
    Awake need { s with
      senders := Function.update s.senders mp.obj (s.senders mp.obj - 1) } := by
  refine ⟨h.heard, h.incLoads, h.waitLoads, h.locked, h.exclusive, h.receiving,
    fun w' key' mp' hw' hneed => ?_⟩
  have hne : mp'.obj ≠ mp.obj := by
    intro heq
    have hsame := h.exclusive w w' mp.obj ⟨key, _, hw, rfl⟩ ⟨key', _, hw', congrArg some heq⟩
    subst hsame
    rw [hw] at hw'
    cases (Prod.mk.inj (Option.some.inj hw')).2
  rcases h.noMissed w' key' mp' hw' hneed with hsenders | hinc
  · exact .inl (by simpa [hne] using hsenders)
  · exact .inr hinc

/-- Nobody holds the mutex that is unlocked. -/
theorem Awake.unlock (h : Awake need s) {m : ℕ} (hm : ∀ w, ¬ s.Holds w m) :
    Awake need { s with locked := Function.update s.locked m false } := by
  refine ⟨h.heard, h.incLoads, h.waitLoads, fun w m' hholds => ?_, h.exclusive, h.receiving,
    h.noMissed⟩
  have hne : m' ≠ m := by
    intro heq
    subst heq
    exact hm w hholds
  exact (Function.update_of_ne hne ..).trans (h.locked w m' hholds)

theorem Awake.waitStep (h : Awake need s) {w : ℕ} {key : String} {ph : WaitPhase}
    (hw : s.waits[w]? = some (key, ph))
    (hkeeps : ∀ mp, ph = .delete mp → s.channels need key = [])
    (hs : State.WaitStepped (need w) s w key ph s') : Awake need s' := by
  have hloads : s.loader = some (.wait w) → s.channels need key = [] := by
    intro hloader
    obtain ⟨key', ph', hw', hkey⟩ := h.waitLoads w hloader
    rw [hw] at hw'
    obtain ⟨rfl, -⟩ := Prod.mk.inj (Option.some.inj hw')
    exact hkey
  cases hs with
  | miss hph hloader hmap =>
      refine ⟨h.heard, fun hinc => (by cases hinc), fun w' hw' => ?_, h.locked, h.exclusive,
        h.receiving, h.noMissed⟩
      obtain rfl : w = w' := Loader.wait.inj (Option.some.inj hw')
      exact ⟨key, ph, hw, h.channels_of_none hmap⟩
  | @load mp s₁ hloaded =>
      obtain ⟨hawake, hloader, hmap, hwaits, -⟩ := h.loaded hloaded hloads
      refine hawake.setWait (hwaits.symm ▸ hw) (fun ch hch => .inr ⟨hloader, mp.count, ?_⟩)
        (fun m hm => (by cases hm)) fun mp' hmp' => (by cases hmp')
      obtain rfl : mp.obj = ch := Option.some.inj hch
      exact hmap
  | lock hfree => exact h.lock hw hfree
  | @reload mp now s₁ hloaded =>
      obtain ⟨hawake, hloader, hmap, hwaits, -⟩ := h.loaded hloaded hloads
      have hw₁ := hwaits.symm ▸ hw
      refine hawake.setWait hw₁ (fun ch hch => .inl ?_)
        (fun m hm => hawake.mutex_held hw₁ ?_) fun mp' hmp' => ?_
      · split at hch
        · exact hch
        · cases hch
      · split at hm
        · exact hm
        · exact hm
      · split at hmp'
        · rename_i hcount
          simpa [State.stored, hmap] using hcount
        · cases hmp'
  | @receive mp hsender =>
      have hreload : Awake need (s.setWait w key (.reload mp)) :=
        h.setWait hw (fun ch hch => .inl hch) (fun m hm => h.mutex_held hw hm)
          fun mp' hmp' => by cases hmp'
      have hw' : (s.setWait w key (.reload mp)).waits[w]? = some (key, .reload mp) := by
        simp [getElem?_setWait hw]
      exact hreload.takeSender hw'
  | @delete mp =>
      have hunlock : Awake need (s.setWait w key (.unlock mp)) :=
        h.setWait hw (fun ch hch => by cases hch) (fun m hm => h.mutex_held hw hm)
          fun mp' hmp' => by cases hmp'
      refine hunlock.setEntry (List.eq_nil_iff_forall_not_mem.mpr fun ch hch => ?_) none
      rcases mem_channels_setWait hw hch with hold | ⟨-, -, hnew⟩
      · exact absurd (hkeeps mp rfl ▸ hold) List.not_mem_nil
      · cases hnew
  | @unlock mp =>
      have hreturned : Awake need (s.setWait w key .returned) :=
        h.setWait hw (fun ch hch => by cases hch) (fun m hm => by cases hm)
          fun mp' hmp' => by cases hmp'
      refine hreturned.unlock fun w' hholds => ?_
      rcases holds_setWait hw hholds with ⟨-, hnew⟩ | ⟨hne, hold⟩
      · cases hnew
      · exact hne ((h.mutex_held hw rfl).2 w' hold)

/-! ### Steps of an increment -/

theorem senders_pos {ch : ℕ} (hsending : s.Sending ch) {call : τ × String} {ph : IncPhase}
    (hinc : s.inc = some (call, ph)) (hph : ∀ mp, ph ≠ .notify mp) : 0 < s.senders ch := by
  rcases hsending with hsenders | ⟨call', mp, hnotify, -⟩
  · exact hsenders
  · rw [hinc] at hnotify
    exact absurd (Prod.mk.inj (Option.some.inj hnotify)).2 (hph mp)

/-- An increment stores its count where the waits for the key receive, and is going to
send there. -/
theorem Awake.store (h : Awake need s) {call : τ × String} {mp : Counter}
    (hinc : s.inc = some (call, .store mp)) (hch : ∀ ch ∈ s.channels need call.2, ch = mp.obj) :
    Awake need { s with
      count_map := Function.update s.count_map call.2 (some ⟨mp.count + 1, mp.obj⟩),
      inc := some (call, .notify mp) } := by
  refine ⟨fun key ch hmem => ?_, fun hloader => absurd hloader (h.loader_ne_inc hinc (by simp)),
    h.waitLoads, h.locked, h.exclusive, h.receiving, fun w key mp' hw hneed => ?_⟩
  · by_cases hkey : key = call.2
    · subst hkey
      obtain rfl := hch ch hmem
      exact ⟨mp.count + 1, by simp⟩
    · obtain ⟨count, hcount⟩ := h.heard key ch hmem
      exact ⟨count, (Function.update_of_ne hkey ..).trans hcount⟩
  · by_cases hkey : key = call.2
    · subst hkey
      exact .inr ⟨call, mp, rfl, (hch _ (h.receive_mem hw)).symm⟩
    · have hstored : State.stored { s with
          count_map := Function.update s.count_map call.2 (some ⟨mp.count + 1, mp.obj⟩),
          inc := some (call, .notify mp) } key = s.stored key := by
        simp [State.stored, hkey]
      rw [hstored] at hneed
      have hpos := senders_pos (h.noMissed w key mp' hw hneed) hinc (by simp)
      exact .inl hpos

theorem Awake.incStep (h : Awake need s)
    (hkeeps : ∀ call mp, s.inc = some (call, .store mp) →
      ∀ ch ∈ s.channels need call.2, ch = mp.obj)
    (hs : State.IncStepped s s') : Awake need s' := by
  cases hs with
  | @miss call hinc hloader hmap =>
      exact ⟨h.heard, fun _ => ⟨call, hinc, h.channels_of_none hmap⟩,
        fun w hwait => (by cases hwait), h.locked, h.exclusive, h.receiving, h.noMissed⟩
  | @load call mp s₁ hinc hloaded =>
      obtain ⟨hawake, hloader, -, -, hinc₁⟩ := h.loaded hloaded fun hloader => by
        obtain ⟨call', hcall', hkey⟩ := h.incLoads hloader
        rw [hinc] at hcall'
        obtain ⟨rfl, -⟩ := Prod.mk.inj (Option.some.inj hcall')
        exact hkey
      refine ⟨hawake.heard, fun hsome => ?_, fun w hsome => ?_, hawake.locked, hawake.exclusive,
        hawake.receiving, fun w key mp' hw hneed => .inl ?_⟩
      · rw [hloader] at hsome
        cases hsome
      · rw [hloader] at hsome
        cases hsome
      · have hpos := senders_pos (hawake.noMissed w key mp' hw hneed) (hinc₁.trans hinc) (by simp)
        exact hpos
  | store hinc => exact h.store hinc (hkeeps _ _ hinc)
  | @notify call mp hinc =>
      refine ⟨h.heard, fun hloader => absurd hloader (h.loader_ne_inc hinc (by simp)),
        h.waitLoads, h.locked, h.exclusive, h.receiving, fun w key mp' hw hneed => .inl ?_⟩
      by_cases hobj : mp'.obj = mp.obj
      · simp [hobj]
      · rcases h.noMissed w key mp' hw hneed with hsenders | ⟨call', mp'', hnotify, hobj'⟩
        · simpa [hobj] using hsenders
        · rw [hinc] at hnotify
          obtain ⟨-, hmp⟩ := Prod.mk.inj (Option.some.inj hnotify)
          obtain rfl := IncPhase.notify.inj hmp
          exact absurd hobj'.symm hobj

/-! ### Runs -/

theorem Awake.lockInc (h : Awake need s) {k : ℕ} (hs : s.lockInc k = some s') : Awake need s' := by
  obtain ⟨call, hinc, -, rfl⟩ := lockInc_eq_some hs
  refine ⟨h.heard, fun hloader => ?_, h.waitLoads, h.locked, h.exclusive, h.receiving,
    fun w key mp hw hneed => .inl ?_⟩
  · obtain ⟨call', hcall', -⟩ := h.incLoads hloader
    rw [hinc] at hcall'
    cases hcall'
  · rcases h.noMissed w key mp hw hneed with hsenders | ⟨call', mp', hnotify, -⟩
    · exact hsenders
    · rw [hinc] at hnotify
      cases hnotify

/-- An entry of the waits after a call of `Wait`. -/
theorem getElem?_callWait {key : String} {w : ℕ} {wait : String × WaitPhase}
    (hw : (s.waits ++ [(key, WaitPhase.load)])[w]? = some wait) :
    s.waits[w]? = some wait ∨ wait = (key, .load) := by
  rw [List.getElem?_append] at hw
  split at hw
  · exact .inl hw
  · exact .inr (List.mem_singleton.mp (List.mem_of_getElem? hw))

theorem Awake.callWait (h : Awake need s) (key : String) :
    Awake need { s with waits := s.waits ++ [(key, .load)] } := by
  have hchannels : ∀ key',
      State.channels need { s with waits := s.waits ++ [(key, WaitPhase.load)] } key'
        ⊆ s.channels need key' := by
    intro key' ch hch
    obtain ⟨w, ph, hw, hneed, hphase⟩ := State.mem_channels.mp hch
    rcases getElem?_callWait hw with hold | hnew
    · exact State.mem_channels.mpr ⟨w, ph, hold, hneed, hphase⟩
    · obtain ⟨-, rfl⟩ := Prod.mk.inj hnew
      cases hphase
  have hholds : ∀ w m,
      State.Holds { s with waits := s.waits ++ [(key, WaitPhase.load)] } w m → s.Holds w m := by
    intro w m ⟨key', ph, hw, hmutex⟩
    rcases getElem?_callWait hw with hold | hnew
    · exact ⟨key', ph, hold, hmutex⟩
    · obtain ⟨-, rfl⟩ := Prod.mk.inj hnew
      cases hmutex
  have hreceive : ∀ (w : ℕ) (key' : String) (mp : Counter),
      (s.waits ++ [(key, WaitPhase.load)])[w]? = some (key', WaitPhase.receive mp) →
      s.waits[w]? = some (key', .receive mp) := by
    intro w key' mp hw
    rcases getElem?_callWait hw with hold | hnew
    · exact hold
    · cases (Prod.mk.inj hnew).2
  refine ⟨fun key' ch hch => h.heard key' ch (hchannels key' hch), fun hloader => ?_,
    fun w hloader => ?_, fun w m hw => h.locked w m (hholds w m hw),
    fun w w' m hw hw' => h.exclusive w w' m (hholds w m hw) (hholds w' m hw'),
    fun w key' mp hw => h.receiving w key' mp (hreceive w key' mp hw),
    fun w key' mp hw => h.noMissed w key' mp (hreceive w key' mp hw)⟩
  · obtain ⟨call, hinc, hkey⟩ := h.incLoads hloader
    exact ⟨call, hinc, List.subset_nil.mp (hkey ▸ hchannels call.2)⟩
  · obtain ⟨key', ph, hw, hkey⟩ := h.waitLoads w hloader
    refine ⟨key', ph, ?_, List.subset_nil.mp (hkey ▸ hchannels key')⟩
    rw [List.getElem?_append_left (List.getElem?_eq_some_iff.mp hw).1, hw]

/-- The steps that keep the channels preserve the invariant. -/
theorem Awake.step (s : State τ) (a : Action τ) (s' : State τ) (h : Awake need s)
    (hkeeps : keepsChannels need s a = true) (hs : step need s a = some s') : Awake need s' := by
  cases a with
  | increment call =>
      obtain rfl := Option.some.inj hs
      exact ⟨h.heard, h.incLoads, h.waitLoads, h.locked, h.exclusive, h.receiving, h.noMissed⟩
  | wait key =>
      obtain rfl := Option.some.inj hs
      exact h.callWait key
  | lockInc k => exact h.lockInc hs
  | incStep =>
      refine h.incStep (fun call mp hinc ch hch => ?_) (State.incStep_cases hs)
      simp only [keepsChannels, hinc, List.all_eq_true, decide_eq_true_eq] at hkeeps
      exact hkeeps ch hch
  | waitStep w =>
      obtain ⟨key, ph, hw, hstepped⟩ := State.waitStep_cases hs
      refine h.waitStep hw (fun mp hph => ?_) hstepped
      subst hph
      simpa [keepsChannels, hw] using hkeeps

/-- **No wake-up is missed**, in every run that keeps the channels, for any keys and any number
of calls of `Wait` and `increment`: a `Wait` whose count has been reached has a channel on which
an increment has sent, or is still about to send, and so it goes on. -/
theorem wait_wakes {s : State τ}
    (h : Reach (step need) (fun s a => keepsChannels need s a = true) State.initial s) :
    NoMissedWakeUp need s := by
  have hawake : Awake need s := h.invariant .initial Awake.step
  exact hawake.noMissed

/-- An increment that goes `steps` steps. -/
def incremented (key : String) (steps : ℕ) : List (Action Unit) :=
  .increment ((), key) :: .lockInc 0 :: List.replicate steps .incStep

/-- A key is used again, and its second `Wait` is about to be woken. -/
theorem wait_wakes_reused : ∃ s : State Unit,
    s.waits = [("a", .returned), ("a", .receive ⟨0, 1⟩)] ∧ s.stored "a" = 1 ∧
      NoMissedWakeUp (fun _ => 1) s := by
  let run : List (Action Unit) :=
    .wait "a" :: List.replicate 4 (.waitStep 0) ++ incremented "a" 3
      ++ List.replicate 4 (.waitStep 0) ++ .wait "a" :: List.replicate 4 (.waitStep 1)
      ++ incremented "a" 2
  have hrun : (exec (restrict (step fun _ => 1) fun s a => keepsChannels (fun _ => 1) s a = true)
      run State.initial).map (fun s => (s.waits, s.stored "a"))
      = some ([("a", .returned), ("a", .receive ⟨0, 1⟩)], 1) := by decide
  obtain ⟨s, hs, hparts⟩ := Option.map_eq_some_iff.mp hrun
  obtain ⟨hwaits, hstored⟩ := Prod.mk.inj hparts
  exact ⟨s, hwaits, hstored, wait_wakes (Reach.exec_restrict run .refl hs)⟩

/-- Two waits for a key have loaded one entry, and the first deletes it. The second
receives on its channel, and the next increment has sent on another one. -/
theorem wait_misses : ∃ s : State Unit,
    Reach (step fun _ => 1) (fun _ _ => True) State.initial s ∧
      ¬ NoMissedWakeUp (fun _ => 1) s := by
  let run : List (Action Unit) :=
    [.wait "a", .wait "a", .waitStep 0, .waitStep 0, .waitStep 1, .waitStep 0, .waitStep 0]
      ++ incremented "a" 3 ++ List.replicate 4 (.waitStep 0) ++ List.replicate 3 (.waitStep 1)
      ++ incremented "a" 3
  have hrun : (exec (step fun _ => 1) run State.initial).map
      (fun s => (s.waits, s.stored "a", s.senders 0, s.inc.isNone))
      = some ([("a", .returned), ("a", .receive ⟨0, 0⟩)], 1, 0, true) := by decide
  obtain ⟨s, hs, hparts⟩ := Option.map_eq_some_iff.mp hrun
  obtain ⟨hwaits, hparts⟩ := Prod.mk.inj hparts
  obtain ⟨hstored, hparts⟩ := Prod.mk.inj hparts
  obtain ⟨hsenders, hinc⟩ := Prod.mk.inj hparts
  refine ⟨s, .of_exec hs, fun hwakes => ?_⟩
  rcases hwakes 1 "a" ⟨0, 0⟩ (by rw [hwaits]; rfl) (by rw [hstored]) with hpos | ⟨_, _, hnotify, _⟩
  · rw [hsenders] at hpos
    cases hpos
  · rw [Option.isNone_iff_eq_none.mp hinc] at hnotify
    cases hnotify

end WakeUp

end QuickMpc.CondCount
