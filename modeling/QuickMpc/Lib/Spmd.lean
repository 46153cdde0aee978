import Mathlib.Data.List.FinRange
import Mathlib.Data.List.Nodup
import Mathlib.Data.List.Perm.Subperm
import Mathlib.Data.List.Range

/-!
# Single program, multiple data

Programs that `n` parties run side by side, each on its own counter of message
addresses. A program may draw the next address, send and wait for messages under
addresses, and read the values that all parties obtain alike; it may also ask
which party it runs at. A program fails at all parties alike or at one party
alone; in the second case the others may go on and wait for that party for ever.
`Lockstep own m post` says that, unless a party fails alone, the parties stay
together although they run different branches:

* they return the same result and draw the same addresses, and
* what one party sends to another is, address by address, what the other waits
  for, and no address is used twice.

The last part is a matter of ownership, as in separation logic: `own` are the
addresses that `m` may still send under, `post` those that its result hands on to
the caller. Everything else that `m` sends is under addresses drawn by `m`.
-/

namespace Spmd

/-- What a thread does with addresses. -/
inductive Event (n : ℕ)
  | construct (id : ℕ)
  | send (receiver : Fin n) (id : ℕ)
  | wait (sender : Fin n) (id : ℕ)

/-- The state of a thread: the next address, the common values still to be read,
and what it has done. -/
structure Local (n : ℕ) (ν : Type) where
  next : ℕ
  inputs : List ν
  trace : List (Event n)

/-- How a program ends without a result. -/
inductive Failure (ε : Type)
  /-- All parties fail, at the same point. -/
  | together (e : ε)
  /-- This party fails, whatever the others do. -/
  | alone (e : ε)

/-- A program, at each party. -/
def Program (n : ℕ) (ν ε α : Type) : Type :=
  Fin n → Local n ν → Except (Failure ε) α × Local n ν

variable {n : ℕ} {ν ε α β : Type}

instance : Monad (Program n ν ε) where
  pure x := fun _ s => (.ok x, s)
  bind m f := fun i s =>
    match m i s with
    | (.ok x, s) => f x i s
    | (.error e, s) => (.error e, s)

/-- Draw the next address. -/
def fresh : Program n ν ε ℕ := fun _ s =>
  (.ok s.next, ⟨s.next + 1, s.inputs, s.trace ++ [.construct s.next]⟩)

/-- Send and receive. -/
def emit (events : List (Event n)) : Program n ν ε Unit := fun _ s =>
  (.ok (), { s with trace := s.trace ++ events })

/-- Read a common value; `e` when there is none left. -/
def input (e : ε) : Program n ν ε ν := fun _ s =>
  match s.inputs with
  | [] => (.error (.together e), s)
  | x :: inputs => (.ok x, { s with inputs := inputs })

def abort (e : ε) : Program n ν ε α := fun _ s => (.error (.together e), s)

def failAlone (e : ε) : Program n ν ε α := fun _ s => (.error (.alone e), s)

/-- Branch on the party. -/
def onParty (f : Fin n → Program n ν ε α) : Program n ν ε α := fun i s => f i i s

/-- Send under the addresses to all others. -/
def sendAll (ids : List ℕ) : Program n ν ε Unit := onParty fun i =>
  emit ((List.finRange n).flatMap fun j => if j = i then [] else ids.map (.send j))

/-- Wait for the messages of all others under the addresses. -/
def waitAll (ids : List ℕ) : Program n ν ε Unit := onParty fun i =>
  emit ((List.finRange n).flatMap fun j => if j = i then [] else ids.map (.wait j))

/-- One round for each element of a list, with the results. -/
def each : List β → (β → Program n ν ε α) → Program n ν ε (List α)
  | [], _ => pure []
  | x :: xs, f => do
    let y ← f x
    let ys ← each xs f
    return y :: ys

/-- `k` rounds, with the results. -/
def times (k : ℕ) (m : Program n ν ε α) : Program n ν ε (List α) := each (List.range k) fun _ => m

/-- Open the values under the addresses: send them, and wait for those of the
others; `k` further addresses are drawn in between. -/
def exchange (ids : List ℕ) (k : ℕ) : Program n ν ε Unit := do
  sendAll ids
  let _ ← times k fresh
  waitAll ids

/-- At most `k` turns of a loop that ends at the first result. -/
def turns (e : ε) (body : Program n ν ε (Option α)) : ℕ → Program n ν ε α
  | 0 => abort e
  | k + 1 => do
    match ← body with
    | some x => return x
    | none => turns e body k

/-- `while (true)` around a body that reads a common value in every turn: there
are no more turns than values. -/
def untilSome (e : ε) (body : Program n ν ε (Option α)) : Program n ν ε α := fun i s =>
  turns e body (s.inputs.length + 1) i s

theorem onParty_ite_emit {c : Fin n} {m : Program n ν ε Unit} {f g : Fin n → List (Event n)}
    (hm : ∀ i, m i = emit (f i) i) :
    (onParty fun i => if i = c then m else emit (g i))
      = onParty fun i => emit (if i = c then f i else g i) := by
  funext i s
  show (if i = c then m else emit (g i)) i s = emit (if i = c then f i else g i) i s
  by_cases hi : i = c
  · rw [if_pos hi, if_pos hi, hm]
  · rw [if_neg hi, if_neg hi]

/-- What follows both branches follows the branch. -/
theorem onParty_ite_bind {c : Fin n} {f g : Program n ν ε α} {k : α → Program n ν ε β} :
    (onParty fun i => if i = c then f >>= k else g >>= k)
      = (onParty fun i => if i = c then f else g) >>= k := by
  funext i s
  show (if i = c then f >>= k else g >>= k) i s
    = match (if i = c then f else g) i s with
      | (.ok x, s) => k x i s
      | (.error e, s) => (.error e, s)
  split
  · rfl
  · rfl

/-! ### What is read off a trace -/

def constructed (events : List (Event n)) : List ℕ :=
  events.filterMap fun
    | .construct id => some id
    | _ => none

def sentTo (j : Fin n) (events : List (Event n)) : List ℕ :=
  events.filterMap fun
    | .send receiver id => if receiver = j then some id else none
    | _ => none

def waitedFrom (j : Fin n) (events : List (Event n)) : List ℕ :=
  events.filterMap fun
    | .wait sender id => if sender = j then some id else none
    | _ => none

@[simp] theorem constructed_append (e e' : List (Event n)) :
    constructed (e ++ e') = constructed e ++ constructed e' := List.filterMap_append

@[simp] theorem sentTo_append (j : Fin n) (e e' : List (Event n)) :
    sentTo j (e ++ e') = sentTo j e ++ sentTo j e' := List.filterMap_append

@[simp] theorem waitedFrom_append (j : Fin n) (e e' : List (Event n)) :
    waitedFrom j (e ++ e') = waitedFrom j e ++ waitedFrom j e' := List.filterMap_append

/-- What a party does in a run. -/
def events (m : Program n ν ε α) (a : ℕ) (inputs : List ν) (i : Fin n) : List (Event n) :=
  (m i ⟨a, inputs, []⟩).2.trace

/-! ### The triple -/

/-- How a run ends, alike at all parties; `msgs i j` are the addresses under which
`i` sends to `j`. -/
structure Outcome (n : ℕ) (ν ε α : Type) where
  result : Except (Failure ε) α
  next : ℕ
  inputs : List ν
  msgs : Fin n → Fin n → List ℕ

/-- The addresses handed on to the caller. -/
def Outcome.held (o : Outcome n ν ε α) (post : α → List ℕ) : List ℕ :=
  match o.result with
  | .ok x => post x
  | .error _ => []

/-- All parties reach the outcome, and every message sent is waited for. -/
structure Reaches (m : Program n ν ε α) (a : ℕ) (inputs : List ν) (o : Outcome n ν ε α) : Prop where
  le : a ≤ o.next
  run : ∀ i trace, ∃ events,
    m i ⟨a, inputs, trace⟩ = (o.result, ⟨o.next, o.inputs, trace ++ events⟩) ∧
    constructed events = List.range' a (o.next - a) ∧
    ∀ j, sentTo j events = o.msgs i j ∧ waitedFrom j events = o.msgs j i

/-- The messages use each address once, and only those owned or drawn. -/
structure Fresh (own : List ℕ) (a : ℕ) (o : Outcome n ν ε α) (held : List ℕ) : Prop where
  nodup : held.Nodup
  mem : ∀ id ∈ held, id ∈ own ∨ a ≤ id ∧ id < o.next
  msgs_nodup : ∀ i j, (o.msgs i j).Nodup
  msgs_mem : ∀ i j, ∀ id ∈ o.msgs i j, id ∈ own ∨ a ≤ id ∧ id < o.next
  disjoint : ∀ i j, ∀ id ∈ o.msgs i j, id ∉ held

/-- Some party fails alone. -/
def FailsAlone (m : Program n ν ε α) (a : ℕ) (inputs : List ν) : Prop :=
  ∃ i, ∀ trace, ∃ e s, m i ⟨a, inputs, trace⟩ = (.error (.alone e), s)

/-- The parties stay together (see the head of this file). -/
def Lockstep (own : List ℕ) (m : Program n ν ε α) (post : α → List ℕ) : Prop :=
  ∀ a inputs, (∀ id ∈ own, id < a) → own.Nodup →
    FailsAlone m a inputs ∨ ∃ o, Reaches m a inputs o ∧ Fresh own a o (o.held post)

/-- What follows a failure is not reached. -/
theorem FailsAlone.bind {m : Program n ν ε α} {a : ℕ} {inputs : List ν} (h : FailsAlone m a inputs)
    (f : α → Program n ν ε β) : FailsAlone (m >>= f) a inputs := by
  obtain ⟨i, hi⟩ := h
  refine ⟨i, fun trace => ?_⟩
  obtain ⟨e, s, hrun⟩ := hi trace
  refine ⟨e, s, ?_⟩
  show (match m i ⟨a, inputs, trace⟩ with
    | (.ok x, s) => f x i s
    | (.error e, s) => (.error e, s)) = _
  rw [hrun]

theorem FailsAlone.of_bind {m : Program n ν ε α} {f : α → Program n ν ε β} {a : ℕ} {inputs : List ν}
    {o : Outcome n ν ε α} (ho : Reaches m a inputs o) {x : α} (hx : o.result = .ok x)
    (h : FailsAlone (f x) o.next o.inputs) : FailsAlone (m >>= f) a inputs := by
  obtain ⟨i, hi⟩ := h
  refine ⟨i, fun trace => ?_⟩
  obtain ⟨events, hrun, -⟩ := ho.run i trace
  obtain ⟨e, s, hfail⟩ := hi (trace ++ events)
  refine ⟨e, s, ?_⟩
  show (match m i ⟨a, inputs, trace⟩ with
    | (.ok x, s) => f x i s
    | (.error e, s) => (.error e, s)) = _
  rw [hrun, hx]
  exact hfail

namespace Lockstep

variable {own : List ℕ}

/-! ### Rules -/

/-- A program without messages of its own. -/
theorem of_silent {m : Program n ν ε α} {post : α → List ℕ}
    (h : ∀ a inputs, (∀ id ∈ own, id < a) → own.Nodup → ∃ result next inputs', a ≤ next ∧
      (∀ i trace, ∃ events, m i ⟨a, inputs, trace⟩ = (result, ⟨next, inputs', trace ++ events⟩) ∧
        constructed events = List.range' a (next - a) ∧
        ∀ j, sentTo j events = [] ∧ waitedFrom j events = []) ∧
      ∀ x, result = .ok x → (post x).Nodup ∧ ∀ id ∈ post x, id ∈ own ∨ a ≤ id ∧ id < next) :
    Lockstep own m post := by
  intro a inputs hown hnodup
  obtain ⟨result, next, inputs', hle, hrun, hpost⟩ := h a inputs hown hnodup
  refine .inr ⟨⟨result, next, inputs', fun _ _ => []⟩, ⟨hle, hrun⟩, ?_⟩
  cases result with
  | ok x =>
      exact ⟨(hpost x rfl).1, (hpost x rfl).2, fun _ _ => List.nodup_nil, by simp, by simp⟩
  | error e =>
      exact ⟨List.nodup_nil, by simp [Outcome.held], fun _ _ => List.nodup_nil, by simp, by simp⟩

/-- Returning keeps what is owned. -/
theorem pure {post : α → List ℕ} {x : α} (h : (post x).Subperm own) :
    Lockstep own (Pure.pure x : Program n ν ε α) post := by
  refine of_silent fun a inputs _ hnodup => ⟨.ok x, a, inputs, le_rfl, fun i trace => ?_, ?_⟩
  · exact ⟨[], by rw [List.append_nil]; rfl, by simp [constructed], fun j => ⟨rfl, rfl⟩⟩
  · intro y hy
    obtain rfl := Except.ok.inj hy
    have hsubset := h.subset
    obtain ⟨ids, hperm, hsub⟩ := h
    exact ⟨hperm.nodup (hnodup.sublist hsub), fun id hid => .inl (hsubset hid)⟩

theorem abort (e : ε) (post : α → List ℕ) :
    Lockstep own (Spmd.abort e : Program n ν ε α) post := by
  refine of_silent fun a inputs _ _ =>
    ⟨.error (.together e), a, inputs, le_rfl, fun i trace => ?_, ?_⟩
  · exact ⟨[], by rw [List.append_nil]; rfl, by simp [constructed], fun j => ⟨rfl, rfl⟩⟩
  · intro y hy
    exact absurd hy (by simp)

/-- A party that fails alone asks nothing of the others. -/
theorem of_failsAlone {m : Program n ν ε α} {post : α → List ℕ}
    (h : ∀ a inputs, FailsAlone m a inputs) : Lockstep own m post :=
  fun a inputs _ _ => .inl (h a inputs)

/-- A drawn address is owned. -/
theorem fresh : Lockstep [] (Spmd.fresh : Program n ν ε ℕ) fun id => [id] := by
  refine of_silent fun a inputs _ _ => ⟨.ok a, a + 1, inputs, Nat.le_succ a, fun i trace => ?_, ?_⟩
  · exact ⟨[.construct a], rfl, by simp [constructed], fun j => ⟨rfl, rfl⟩⟩
  · intro y hy
    obtain rfl := Except.ok.inj hy
    exact ⟨List.nodup_singleton _, fun id hid => .inr (by rw [List.mem_singleton.mp hid]; omega)⟩

theorem input (e : ε) : Lockstep own (Spmd.input e : Program n ν ε ν) fun _ => [] := by
  refine of_silent fun a inputs _ _ => ?_
  cases inputs with
  | nil =>
      refine ⟨.error (.together e), a, [], le_rfl,
        fun i trace => ⟨[], ?_, ?_, fun j => ⟨rfl, rfl⟩⟩, ?_⟩
      · rw [List.append_nil]; rfl
      · simp [constructed]
      · intro x hx
        exact absurd hx (by simp)
  | cons x inputs =>
      refine ⟨.ok x, a, inputs, le_rfl, fun i trace => ⟨[], ?_, ?_, fun j => ⟨rfl, rfl⟩⟩, ?_⟩
      · rw [List.append_nil]; rfl
      · simp [constructed]
      · intro _ _
        exact ⟨List.nodup_nil, by simp⟩

/-- Matching messages under owned addresses use them up. -/
theorem emit {events : Fin n → List (Event n)} (msgs : Fin n → Fin n → List ℕ)
    (hconstruct : ∀ i, constructed (events i) = [])
    (hmsgs : ∀ i j, sentTo j (events i) = msgs i j ∧ waitedFrom j (events i) = msgs j i)
    (hsub : ∀ i j, (msgs i j).Sublist own) :
    Lockstep own (onParty fun i => Spmd.emit (events i) : Program n ν ε Unit)
      fun _ => [] := by
  intro a inputs _ hnodup
  refine .inr ⟨⟨.ok (), a, inputs, msgs⟩, ⟨le_rfl, fun i trace => ⟨events i, rfl, ?_, hmsgs i⟩⟩, ?_⟩
  · simp [hconstruct i]
  · exact ⟨List.nodup_nil, by simp [Outcome.held], fun i j => hnodup.sublist (hsub i j),
      fun i j id hid => .inl ((hsub i j).subset hid), by simp [Outcome.held]⟩

/-- The second program owns what the first one hands on. -/
theorem bind {m : Program n ν ε α} {f : α → Program n ν ε β} {mid : α → List ℕ}
    {post : β → List ℕ} (hm : Lockstep own m mid) (hf : ∀ x, Lockstep (mid x) (f x) post) :
    Lockstep own (m >>= f) post := by
  intro a inputs hown hnodup
  rcases hm a inputs hown hnodup with halone | ⟨o, ho, hfresh⟩
  · exact .inl (halone.bind f)
  have hle := ho.le
  cases hresult : o.result with
  | error e =>
      refine .inr ⟨⟨.error e, o.next, o.inputs, o.msgs⟩, ⟨hle, fun i trace => ?_⟩,
        ⟨List.nodup_nil, by simp [Outcome.held], hfresh.msgs_nodup, hfresh.msgs_mem,
          by simp [Outcome.held]⟩⟩
      obtain ⟨events, hrun, hevents⟩ := ho.run i trace
      refine ⟨events, ?_, hevents⟩
      show (match m i ⟨a, inputs, trace⟩ with
        | (.ok x, s) => f x i s
        | (.error e, s) => (.error e, s)) = _
      rw [hrun, hresult]
  | ok x =>
      have hheld : o.held mid = mid x := by rw [Outcome.held, hresult]
      rw [hheld] at hfresh
      have hmid : ∀ id ∈ mid x, id < o.next := by
        intro id hid
        rcases hfresh.mem id hid with h | h
        · exact (hown id h).trans_le hle
        · exact h.2
      rcases hf x o.next o.inputs hmid hfresh.nodup with halone | ⟨o', ho', hfresh'⟩
      · exact .inl (.of_bind ho hresult halone)
      have hle' := ho'.le
      -- an address of the second program is owned, or drawn by one of the two
      have hlift : ∀ id, id ∈ mid x ∨ o.next ≤ id ∧ id < o'.next →
          id ∈ own ∨ a ≤ id ∧ id < o'.next := by
        intro id hid
        rcases hid with hid | hid
        · rcases hfresh.mem id hid with h | h
          · exact .inl h
          · exact .inr ⟨h.1, h.2.trans_le hle'⟩
        · exact .inr ⟨hle.trans hid.1, hid.2⟩
      -- what the first program sent under is no longer available
      have hapart : ∀ i j, ∀ id ∈ o.msgs i j, ¬ (id ∈ mid x ∨ o.next ≤ id ∧ id < o'.next) := by
        intro i j id hid h
        rcases h with h | h
        · exact hfresh.disjoint i j id hid h
        · rcases hfresh.msgs_mem i j id hid with h' | h'
          · exact absurd (hown id h') (by omega)
          · omega
      refine .inr ⟨⟨o'.result, o'.next, o'.inputs, fun i j => o.msgs i j ++ o'.msgs i j⟩,
        ⟨hle.trans hle', fun i trace => ?_⟩, ⟨hfresh'.nodup, ?_, ?_, ?_, ?_⟩⟩
      · obtain ⟨events, hrun, hconstruct, hevents⟩ := ho.run i trace
        obtain ⟨events', hrun', hconstruct', hevents'⟩ := ho'.run i (trace ++ events)
        refine ⟨events ++ events', ?_, ?_, fun j => ?_⟩
        · show (match m i ⟨a, inputs, trace⟩ with
            | (.ok x, s) => f x i s
            | (.error e, s) => (.error e, s)) = _
          rw [hrun, hresult, ← List.append_assoc]
          exact hrun'
        · have hsplit : o.next = a + (o.next - a) := by omega
          rw [constructed_append, hconstruct, hconstruct', hsplit, Nat.add_sub_cancel_left,
            List.range'_append_1]
          congr 1
          dsimp only
          omega
        · rw [sentTo_append, waitedFrom_append, (hevents j).1, (hevents j).2, (hevents' j).1,
            (hevents' j).2]
          exact ⟨rfl, rfl⟩
      · exact fun id hid => hlift id (hfresh'.mem id hid)
      · intro i j
        refine List.nodup_append'.mpr ⟨hfresh.msgs_nodup i j, hfresh'.msgs_nodup i j, ?_⟩
        exact fun id hid hid' => hapart i j id hid (hfresh'.msgs_mem i j id hid')
      · intro i j id hid
        rcases List.mem_append.mp hid with hid | hid
        · rcases hfresh.msgs_mem i j id hid with h | h
          · exact .inl h
          · exact .inr ⟨h.1, h.2.trans_le hle'⟩
        · exact hlift id (hfresh'.msgs_mem i j id hid)
      · intro i j id hid hheld'
        rcases List.mem_append.mp hid with hid | hid
        · exact hapart i j id hid (hfresh'.mem id hheld')
        · exact hfresh'.disjoint i j id hid hheld'

/-- Addresses that a program does not touch stay owned. -/
theorem frame {m : Program n ν ε α} {post : α → List ℕ} (h : Lockstep own m post) (rest : List ℕ) :
    Lockstep (own ++ rest) m fun x => post x ++ rest := by
  intro a inputs hown hnodup
  obtain ⟨hnown, hnrest, happ⟩ := List.nodup_append'.mp hnodup
  have hrest : ∀ id ∈ rest, id < a := fun id hid => hown id (List.mem_append_right _ hid)
  rcases h a inputs (fun id hid => hown id (List.mem_append_left _ hid)) hnown with
    halone | ⟨o, ho, hfresh⟩
  · exact .inl halone
  have hlift : ∀ id, id ∈ own ∨ a ≤ id ∧ id < o.next → id ∈ own ++ rest ∨ a ≤ id ∧ id < o.next :=
    fun id hid => hid.imp_left (List.mem_append_left _)
  have hapart : ∀ id ∈ rest, ¬ (id ∈ own ∨ a ≤ id ∧ id < o.next) := by
    intro id hid hmem
    rcases hmem with hmem | hmem
    · exact happ hmem hid
    · exact absurd (hrest id hid) (by omega)
  refine .inr ⟨o, ho, ?_⟩
  cases hresult : o.result with
  | error e =>
      rw [Outcome.held, hresult]
      exact ⟨List.nodup_nil, by simp, hfresh.msgs_nodup,
        fun i j id hid => hlift id (hfresh.msgs_mem i j id hid), by simp⟩
  | ok x =>
      have hheld : o.held post = post x := by rw [Outcome.held, hresult]
      rw [hheld] at hfresh
      rw [Outcome.held, hresult]
      refine ⟨?_, ?_, hfresh.msgs_nodup,
        fun i j id hid => hlift id (hfresh.msgs_mem i j id hid), ?_⟩
      · refine List.nodup_append'.mpr ⟨hfresh.nodup, hnrest, ?_⟩
        exact fun id hid hid' => hapart id hid' (hfresh.mem id hid)
      · intro id hid
        rcases List.mem_append.mp hid with hid | hid
        · exact hlift id (hfresh.mem id hid)
        · exact .inl (List.mem_append_right _ hid)
      · intro i j id hid hmem
        rcases List.mem_append.mp hmem with hmem | hmem
        · exact hfresh.disjoint i j id hid hmem
        · exact hapart id hmem (hfresh.msgs_mem i j id hid)

/-- What is owned may be left unused, what is handed on may be dropped. -/
theorem weaken {m : Program n ν ε α} {own' : List ℕ} {post post' : α → List ℕ}
    (h : Lockstep own m post) (hown : own.Subperm own') (hpost : ∀ x, (post' x).Sublist (post x)) :
    Lockstep own' m post' := by
  intro a inputs hlt hnodup
  have hsub := hown.subset
  obtain ⟨ids, hperm, hids⟩ := hown
  rcases h a inputs (fun id hid => hlt id (hsub hid)) (hperm.nodup (hnodup.sublist hids)) with
    halone | ⟨o, ho, hfresh⟩
  · exact .inl halone
  have hheld : (o.held post').Sublist (o.held post) := by
    unfold Outcome.held
    cases o.result with
    | error e => exact List.Sublist.refl _
    | ok x => exact hpost x
  have hlift : ∀ id, id ∈ own ∨ a ≤ id ∧ id < o.next → id ∈ own' ∨ a ≤ id ∧ id < o.next :=
    fun id hid => hid.imp_left fun h => hsub h
  exact .inr ⟨o, ho, hfresh.nodup.sublist hheld, fun id hid => hlift id (hfresh.mem id (hheld.subset hid)),
    hfresh.msgs_nodup, fun i j id hid => hlift id (hfresh.msgs_mem i j id hid),
    fun i j id hid hmem => hfresh.disjoint i j id hid (hheld.subset hmem)⟩

/-- A program that owns nothing runs anywhere. -/
theorem anywhere {m : Program n ν ε α} {post : α → List ℕ} (h : Lockstep [] m post) :
    Lockstep own m post := h.weaken List.nil_subperm fun _ => List.Sublist.refl _

/-- Run a program while holding on to addresses. -/
theorem hold {m : Program n ν ε α} (h : Lockstep [] m fun _ => []) (rest : List ℕ) :
    Lockstep rest m fun _ => rest := h.frame rest

/-- Forget the result. -/
theorem drop {m : Program n ν ε α} {post : α → List ℕ} (h : Lockstep own m post) :
    Lockstep own m fun _ => [] := h.weaken (List.Subperm.refl _) fun _ => List.nil_sublist _

/-- First one program, then another that does not need its result. -/
theorem seq {m : Program n ν ε α} {f : α → Program n ν ε β} {mid : α → List ℕ}
    {post : β → List ℕ} (hm : Lockstep own m mid) (hf : ∀ x, Lockstep [] (f x) post) :
    Lockstep own (m >>= f) post := hm.bind fun x => (hf x).anywhere

/-- The order of the owned addresses does not matter. -/
theorem perm {m : Program n ν ε α} {own' : List ℕ} {post : α → List ℕ} (h : Lockstep own m post)
    (hown : own.Perm own') : Lockstep own' m post :=
  h.weaken hown.subperm fun _ => List.Sublist.refl _

theorem each {xs : List β} {f : β → Program n ν ε α} {post : α → List ℕ}
    (h : ∀ x, Lockstep [] (f x) post) :
    Lockstep [] (Spmd.each xs f) fun ys => ys.flatMap post := by
  induction xs with
  | nil => exact pure List.nil_subperm
  | cons x xs ih =>
      refine (h x).bind fun y => (ih.frame (post y)).bind fun ys => pure ?_
      rw [List.flatMap_cons]
      exact List.perm_append_comm.subperm

/-- Constructing a vector: its elements are owned. -/
theorem eachId {xs : List β} {f : β → Program n ν ε ℕ} (h : ∀ x, Lockstep [] (f x) fun id => [id]) :
    Lockstep [] (Spmd.each xs f) fun ids => ids := by
  have heach : Lockstep [] (Spmd.each xs f) fun ids => ids.flatMap fun id => [id] := each h
  simpa only [List.flatMap_singleton'] using heach

theorem times {m : Program n ν ε ℕ} (h : Lockstep [] m fun id => [id]) (k : ℕ) :
    Lockstep [] (Spmd.times k m) fun ids => ids := eachId fun _ => h

theorem loop {xs : List β} {f : β → Program n ν ε α} (h : ∀ x, Lockstep [] (f x) fun _ => []) :
    Lockstep [] (Spmd.each xs f) fun _ => [] := (each h).drop

theorem rounds {m : Program n ν ε α} (h : Lockstep [] m fun _ => []) (k : ℕ) :
    Lockstep [] (Spmd.times k m) fun _ => [] := loop fun _ => h

theorem turns {e : ε} {body : Program n ν ε (Option α)} {post : α → List ℕ}
    (h : Lockstep [] body fun r => r.elim [] post) (k : ℕ) :
    Lockstep [] (Spmd.turns e body k) post := by
  induction k with
  | zero => exact abort e post
  | succ k ih =>
      refine h.bind fun r => ?_
      cases r with
      | some x => exact pure (List.Subperm.refl _)
      | none => exact ih

theorem untilSome {e : ε} {body : Program n ν ε (Option α)} {post : α → List ℕ}
    (h : Lockstep [] body fun r => r.elim [] post) : Lockstep [] (Spmd.untilSome e body) post := by
  intro a inputs hown hnodup
  rcases turns (e := e) h (inputs.length + 1) a inputs hown hnodup with halone | ⟨o, ho, hfresh⟩
  · exact .inl halone
  · exact .inr ⟨o, ⟨ho.le, ho.run⟩, hfresh⟩

/-! ### Opening -/

/-- A list built from one of its elements. -/
theorem flatMap_eq_single [DecidableEq β] {xs : List β} (hnodup : xs.Nodup) {x : β} (hx : x ∈ xs)
    {f : β → List α} (hf : ∀ y ∈ xs, y ≠ x → f y = []) : xs.flatMap f = f x := by
  induction xs with
  | nil => exact absurd hx List.not_mem_nil
  | cons y ys ih =>
      obtain ⟨hy, hys⟩ := List.nodup_cons.mp hnodup
      rw [List.flatMap_cons]
      by_cases hyx : y = x
      · subst hyx
        have hrest : ys.flatMap f = [] := by
          rw [List.flatMap_eq_nil_iff]
          intro z hz
          exact hf z (List.mem_cons_of_mem _ hz) fun h => hy (h ▸ hz)
        rw [hrest, List.append_nil]
      · have hmem : x ∈ ys := (List.mem_cons.mp hx).resolve_left (Ne.symm hyx)
        rw [hf y List.mem_cons_self hyx, List.nil_append,
          ih hys hmem fun z hz => hf z (List.mem_cons_of_mem _ hz)]

/-- What the loop over the other parties does with one of them, when `g` keeps its events. -/
theorem filterMap_others {g : Event n → Option ℕ} {event : Fin n → ℕ → Event n} {j : Fin n}
    (h : ∀ k id, g (event k id) = if k = j then some id else none) (ids : List ℕ) (i : Fin n) :
    ((List.finRange n).flatMap fun k => if k = i then [] else ids.map (event k)).filterMap g
      = if j = i then [] else ids := by
  rw [List.filterMap_flatMap, flatMap_eq_single (List.nodup_finRange n) (List.mem_finRange j)]
  · by_cases hji : j = i
    · simp [hji]
    · simp [hji, List.filterMap_map, h]
  · intro k _ hkj
    by_cases hki : k = i
    · simp [hki]
    · simp [hki, hkj, List.filterMap_map, h]

theorem sentTo_sends (ids : List ℕ) (i j : Fin n) :
    sentTo j ((List.finRange n).flatMap fun k => if k = i then [] else ids.map (.send k))
      = if j = i then [] else ids :=
  filterMap_others (fun _ _ => rfl) ids i

theorem waitedFrom_waits (ids : List ℕ) (i j : Fin n) :
    waitedFrom j ((List.finRange n).flatMap fun k => if k = i then [] else ids.map (.wait k))
      = if j = i then [] else ids :=
  filterMap_others (fun _ _ => rfl) ids i

/-- Every event of the loop over the other parties comes from its body. -/
theorem filterMap_others_eq_nil {g : Event n → Option ℕ} {event : Fin n → ℕ → Event n}
    (h : ∀ j id, g (event j id) = none) (ids : List ℕ) (i : Fin n) :
    ((List.finRange n).flatMap fun j => if j = i then [] else ids.map (event j)).filterMap g
      = [] := by
  rw [List.filterMap_eq_nil_iff]
  intro e he
  obtain ⟨j, -, he⟩ := List.mem_flatMap.mp he
  split at he
  · exact absurd he List.not_mem_nil
  · obtain ⟨id, -, rfl⟩ := List.mem_map.mp he
    exact h j id

theorem each_fresh (xs : List β) (i : Fin n) (a : ℕ) (inputs : List ν) (trace : List (Event n)) :
    (Spmd.each xs fun _ => Spmd.fresh : Program n ν ε (List ℕ)) i ⟨a, inputs, trace⟩
      = (.ok (List.range' a xs.length), ⟨a + xs.length, inputs,
          trace ++ (List.range' a xs.length).map .construct⟩) := by
  induction xs generalizing a trace with
  | nil => simp [Spmd.each, Pure.pure]
  | cons x xs ih =>
      simp only [Spmd.each, Bind.bind, Spmd.fresh, ih, Pure.pure, List.length_cons,
        List.range'_succ, List.map_cons, List.append_assoc, List.singleton_append]
      rw [Nat.add_assoc, Nat.add_comm 1]

/-- An opening uses the addresses up. -/
theorem exchange (ids : List ℕ) (k : ℕ) :
    Lockstep ids (Spmd.exchange ids k : Program n ν ε Unit) fun _ => [] := by
  intro a inputs _ hnodup
  refine .inr ⟨⟨.ok (), a + k, inputs, fun i j => if j = i then [] else ids⟩,
    ⟨Nat.le_add_right a k, fun i trace => ?_⟩, ⟨List.nodup_nil, by simp [Outcome.held], ?_, ?_, ?_⟩⟩
  · let sends := (List.finRange n).flatMap fun k => if k = i then [] else ids.map (Event.send k)
    let draws := (List.range' a k).map (Event.construct (n := n))
    let waits := (List.finRange n).flatMap fun k => if k = i then [] else ids.map (Event.wait k)
    refine ⟨sends ++ draws ++ waits, ?_, ?_, fun j => ?_⟩
    · have hdraw := each_fresh (ν := ν) (ε := ε) (List.range k) i a inputs (trace ++ sends)
      rw [List.length_range] at hdraw
      simp only [Spmd.exchange, sendAll, waitAll, onParty, Bind.bind, Spmd.emit, Spmd.times]
      rw [hdraw]
      simp only [List.append_assoc, sends, draws, waits]
    · have hsends : constructed sends = [] := filterMap_others_eq_nil (fun _ _ => rfl) ids i
      have hwaits : constructed waits = [] := filterMap_others_eq_nil (fun _ _ => rfl) ids i
      rw [constructed_append, constructed_append, hsends, hwaits, List.append_nil, List.nil_append,
        Nat.add_sub_cancel_left, constructed, List.filterMap_map]
      exact List.filterMap_some
    · have hdraws : sentTo j draws = [] ∧ waitedFrom j draws = [] := by
        constructor
        · simp [sentTo, draws, List.filterMap_map]
        · simp [waitedFrom, draws, List.filterMap_map]
      have hwaits : sentTo j waits = [] := filterMap_others_eq_nil (fun _ _ => rfl) ids i
      have hsends : waitedFrom j sends = [] := filterMap_others_eq_nil (fun _ _ => rfl) ids i
      simp only [sentTo_append, waitedFrom_append, hdraws.1, hdraws.2, hwaits, hsends,
        List.append_nil, List.nil_append]
      refine ⟨sentTo_sends ids i j, (waitedFrom_waits ids i j).trans ?_⟩
      exact if_congr eq_comm rfl rfl
  · intro i j
    dsimp only
    split
    · exact List.nodup_nil
    · exact hnodup
  · intro i j id hid
    dsimp only at hid
    split at hid
    · exact absurd hid List.not_mem_nil
    · exact .inl hid
  · intro i j id _
    simp [Outcome.held]

/-! ### One party apart -/

/-- One party sends to all others. -/
theorem scatter (c : Fin n) (id : ℕ) :
    Lockstep [id]
      (onParty fun i => if i = c then sendAll [id] else Spmd.emit [.wait c id] : Program n ν ε Unit)
      fun _ => [] := by
  rw [onParty_ite_emit (g := fun _ => [.wait c id]) fun i => (rfl : sendAll [id] i = Spmd.emit _ i)]
  refine emit (fun i j => if i = c ∧ j ≠ c then [id] else []) (fun i => ?_) (fun i j => ?_)
    fun i j => ?_
  · by_cases hi : i = c
    · rw [if_pos hi]
      exact filterMap_others_eq_nil (fun _ _ => rfl) [id] i
    · rw [if_neg hi]
      rfl
  · by_cases hi : i = c
    · subst hi
      rw [if_pos rfl, sentTo_sends]
      refine ⟨?_, ?_⟩
      · by_cases hj : j = i <;> simp [hj]
      · rw [waitedFrom, filterMap_others_eq_nil (fun _ _ => rfl) [id] i]
        simp
    · rw [if_neg hi]
      refine ⟨by simp [sentTo, hi], ?_⟩
      by_cases hj : j = c
      · simp [waitedFrom, hj, hi]
      · simp [waitedFrom, hj, Ne.symm hj]
  · split
    · exact List.Sublist.refl _
    · exact List.nil_sublist _

/-- All others send to one party. -/
theorem gather (c : Fin n) (id : ℕ) :
    Lockstep [id]
      (onParty fun i => if i = c then waitAll [id] else Spmd.emit [.send c id] : Program n ν ε Unit)
      fun _ => [] := by
  rw [onParty_ite_emit (g := fun _ => [.send c id]) fun i => (rfl : waitAll [id] i = Spmd.emit _ i)]
  refine emit (fun i j => if j = c ∧ i ≠ c then [id] else []) (fun i => ?_) (fun i j => ?_)
    fun i j => ?_
  · by_cases hi : i = c
    · rw [if_pos hi]
      exact filterMap_others_eq_nil (fun _ _ => rfl) [id] i
    · rw [if_neg hi]
      rfl
  · by_cases hi : i = c
    · subst hi
      rw [if_pos rfl, waitedFrom_waits]
      refine ⟨?_, ?_⟩
      · rw [sentTo, filterMap_others_eq_nil (fun _ _ => rfl) [id] i]
        simp
      · by_cases hj : j = i <;> simp [hj]
    · rw [if_neg hi]
      refine ⟨?_, by simp [waitedFrom, hi]⟩
      by_cases hj : j = c
      · simp [sentTo, hj, hi]
      · simp [sentTo, hj, Ne.symm hj]
  · split
    · exact List.Sublist.refl _
    · exact List.nil_sublist _

/-! ### What lockstep means for the traces -/

/-- Unless a party fails alone, all parties draw the same addresses, and what one
waits for from another is sent there, once. -/
theorem matched {m : Program n ν ε α} {post : α → List ℕ} (h : Lockstep [] m post) {a : ℕ}
    {inputs : List ν} (hno : ¬ FailsAlone m a inputs) (i j : Fin n) :
    constructed (events m a inputs i) = constructed (events m a inputs j) ∧
      ∀ id ∈ waitedFrom j (events m a inputs i), (sentTo i (events m a inputs j)).count id = 1 := by
  obtain ⟨o, ho, hfresh⟩ := (h a inputs (by simp) List.nodup_nil).resolve_left hno
  obtain ⟨ei, hruni, hci, hi⟩ := ho.run i []
  obtain ⟨ej, hrunj, hcj, hj⟩ := ho.run j []
  have hei : events m a inputs i = ei := by rw [events, hruni, List.nil_append]
  have hej : events m a inputs j = ej := by rw [events, hrunj, List.nil_append]
  rw [hei, hej]
  refine ⟨hci.trans hcj.symm, fun id hid => ?_⟩
  rw [(hi j).2] at hid
  rw [(hj i).1]
  exact List.count_eq_one_of_mem (hfresh.msgs_nodup j i) hid

end Lockstep

-- from here on, loops are taken apart by the rules only
attribute [irreducible] times each

end Spmd
