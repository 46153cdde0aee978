import QuickMpc.DbGate.Client
import QuickMpc.Lib.ListSet
import QuickMpc.Lib.LockOrder
import QuickMpc.Lib.StepSystem

/-!
# QuickMpc.DbGate.LockOrder

The locks of the database calls do not deadlock as long as there always is an order of
the ids in which the locks that a call holds come before the ones it has still to take
(`untangled`). Only `deleteShares` holds a lock while it waits for another one. There is
such an order, in particular, when the calls in progress list their ids in a common
order, without repetitions (`ordered`).

`held` and `pending` are the locks that a call holds and the ones it takes before it
releases any; `Inv` says that a lock is free or held once.
-/

namespace QuickMpc.DbGate

open StepSystem
open Registration (QueryResult)

variable {J : Type}

/-! ### What the calls hold -/

/-- The locks that a call holds, in the order in which it has taken them. -/
def held (req : Request) : Phase J → List String
  | .checkLock => []
  | .checkQuery | .checkUnlock _ => req.ids
  | .lock taken _ => req.ids.take taken
  | .body _ | .delete => req.ids
  | .unlock left _ => req.ids.take (left + 1)
  | .returned _ => []

/-- The locks that a call has still to take before it releases one. -/
def pending (req : Request) : Phase J → List String
  | .checkLock => req.ids
  | .lock taken _ => req.ids.drop taken
  | _ => []

/-- The indices of a phase are in range. The calls that check first have one id. -/
def Fits (req : Request) : Phase J → Prop
  | .checkLock | .checkQuery | .checkUnlock _ => req.ids.length = 1
  | .lock taken _ => taken < req.ids.length
  | .unlock left _ => left < req.ids.length
  | .body _ | .delete | .returned _ => True

theorem held_locking (req : Request) (answer : Except Err Bool) (taken : ℕ) :
    held req (locking req taken answer : Phase J) = req.ids.take taken ∧
      Fits req (locking req taken answer : Phase J) := by
  unfold locking
  split
  · rename_i hlt
    exact ⟨rfl, hlt⟩
  · rename_i hge
    exact ⟨(List.take_of_length_le (Nat.le_of_not_lt hge)).symm, trivial⟩

theorem held_leave (req : Request) (out : Outcome J) {left : ℕ} (h : left ≤ req.ids.length) :
    held req (leave left out) = req.ids.take left ∧ Fits req (leave left out) := by
  cases left with
  | zero => exact ⟨rfl, trivial⟩
  | succ left => exact ⟨rfl, h⟩

theorem pending_leave (req : Request) (left : ℕ) (out : Outcome J) :
    pending req (leave left out) = [] := by
  cases left with
  | zero => rfl
  | succ left => rfl

theorem held_begin (req : Request) :
    held req (begin req : Phase J) = [] ∧ Fits req (begin req : Phase J) := by
  cases req with
  | insertShares _ _ _ _ _ => exact ⟨rfl, rfl⟩
  | insertModelParams _ _ => exact ⟨rfl, rfl⟩
  | _ => exact held_locking _ _ _

theorem held_checked (req : Request) (answer : Except Err Bool) :
    held req (checked req answer : Phase J) = [] ∧ Fits req (checked req answer : Phase J) := by
  unfold checked
  split
  · exact ⟨rfl, trivial⟩
  · exact ⟨rfl, trivial⟩
  · exact held_locking _ _ _

/-- With all locks held, a call goes on to its unlocks, except `deleteShares`. -/
theorem body_phase (env : Externals J) (db : Db J) (answer : Except Err Bool)
    (reply : QueryResult) (uuid : String) (req : Request) :
    (body env db answer reply uuid req).2 = .delete ∨
      ∃ out, (body env db answer reply uuid req).2 = leave req.ids.length out := by
  cases req with
  | insertShares _ _ _ _ _ => exact .inr ⟨_, rfl⟩
  | insertModelParams _ _ => exact .inr ⟨_, rfl⟩
  | getSchema _ => exact .inr ⟨_, rfl⟩
  | getComputationResult _ => exact .inr ⟨_, rfl⟩
  | deleteShares dataIDs =>
      simp only [body]
      split
      · exact .inr ⟨_, rfl⟩
      · exact .inl rfl
  | count field id =>
      simp only [body]
      split
      · exact .inr ⟨_, rfl⟩
      · exact .inr ⟨_, rfl⟩

/-! ### What a step does to the locks -/

/-- The locks and the phase after a step of a call. -/
inductive Locked (req : Request) (ls : LockSet) (ph : Phase J) : LockSet → Phase J → Prop
  | lock {k : String} {ls' : LockSet} {ph' : Phase J} : ls.lock k = some ls' →
      held req ph' = held req ph ++ [k] → Locked req ls ph ls' ph'
  | unlock {k : String} {ph' : Phase J} : held req ph = held req ph' ++ [k] →
      Locked req ls ph (ls.unlock k) ph'
  | keep {ph' : Phase J} : held req ph' = held req ph → Locked req ls ph ls ph'

theorem advance_locked {env : Externals J} {ls ls' : LockSet} {db db' : Db J} {req : Request}
    {reply : QueryResult} {uuid : String} {ph ph' : Phase J} (hfits : Fits req ph)
    (h : Advanced env ls db req reply uuid ph ls' db' ph') :
    Locked req ls ph ls' ph' ∧ Fits req ph' := by
  cases h with
  | checkLock hid hlock =>
      obtain ⟨x, hx⟩ := List.length_eq_one_iff.mp hfits
      rw [hx] at hid
      obtain rfl := Option.some.inj hid
      exact ⟨.lock hlock hx, hfits⟩
  | checkQuery => exact ⟨.keep rfl, hfits⟩
  | @checkUnlock id answer hid =>
      obtain ⟨hheld, hfits'⟩ := held_checked (J := J) req answer
      obtain ⟨x, hx⟩ := List.length_eq_one_iff.mp hfits
      rw [hx] at hid
      obtain rfl := Option.some.inj hid
      refine ⟨.unlock ?_, hfits'⟩
      rw [hheld]
      exact hx
  | @lock id ls' taken answer hid hlock =>
      obtain ⟨hheld, hfits'⟩ := held_locking (J := J) req answer (taken + 1)
      have htake : req.ids.take (taken + 1) = req.ids.take taken ++ [id] := by
        rw [List.take_add_one, hid, Option.toList_some]
      exact ⟨.lock hlock (hheld.trans htake), hfits'⟩
  | @body answer =>
      rcases body_phase env db answer reply uuid req with hdelete | ⟨out, hleave⟩
      · rw [hdelete]
        exact ⟨.keep rfl, trivial⟩
      · obtain ⟨hheld, hfits'⟩ := held_leave req out (Nat.le_refl _)
        rw [List.take_length] at hheld
        rw [hleave]
        exact ⟨.keep hheld, hfits'⟩
  | delete =>
      obtain ⟨hheld, hfits'⟩ := held_leave req (deleteShares env db reply req.ids).2 (Nat.le_refl _)
      rw [List.take_length] at hheld
      exact ⟨.keep hheld, hfits'⟩
  | @unlock id left out hid =>
      obtain ⟨hheld, hfits'⟩ := held_leave req out (Nat.le_of_lt hfits)
      have htake : req.ids.take (left + 1) = req.ids.take left ++ [id] := by
        rw [List.take_add_one, hid, Option.toList_some]
      refine ⟨.unlock ?_, hfits'⟩
      rw [hheld]
      exact htake

/-! ### Free or held once -/

/-- How often the calls hold a lock. -/
def holders (calls : List (Call J)) (k : String) : ℕ :=
  (calls.map fun call => (held call.req call.phase).count k).sum

/-- What the steps preserve. -/
structure Inv (s : State J) : Prop where
  fits : ∀ call ∈ s.calls, Fits call.req call.phase
  free : ∀ k, s.ls.free k + holders s.calls k = 1

theorem Inv.start (db : Db J) : Inv (start db) where
  fits := fun call hcall => by cases hcall
  free := fun k => rfl

theorem Inv.call {s s' : State J} (h : Inv s) {env : Externals J} {req : Request}
    (hs : step env s (.call req) = some s') : Inv s' := by
  obtain rfl := Option.some.inj hs
  obtain ⟨hheld, hfits⟩ := held_begin (J := J) req
  refine ⟨fun call hcall => ?_, fun k => ?_⟩
  · rcases List.mem_append.mp hcall with hold | hnew
    · exact h.fits call hold
    · rw [List.mem_singleton.mp hnew]
      exact hfits
  · rw [holders, List.map_append, List.sum_append, List.map_singleton, List.sum_singleton, hheld,
      List.count_nil, Nat.add_zero]
    exact h.free k

theorem Inv.next {s s' : State J} (h : Inv s) {env : Externals J} {c : ℕ}
    {reply : QueryResult} {uuid : String}
    (hs : step env s (.next c reply uuid) = some s') : Inv s' := by
  obtain ⟨call, ls', db', ph', hc, hadvance, rfl⟩ := next_eq_some hs
  obtain ⟨hlocked, hfits⟩ := advance_locked (h.fits call (List.mem_of_getElem? hc)) hadvance
  refine ⟨fun call' hcall' => ?_, fun k => ?_⟩
  · rcases List.mem_or_eq_of_mem_set hcall' with hold | hnew
    · exact h.fits call' hold
    · rw [hnew]
      exact hfits
  · have hsum := ListSet.sum_map_set (fun call => (held call.req call.phase).count k) hc
      ⟨call.req, ph'⟩
    have hfree := h.free k
    simp only [holders] at hfree ⊢
    cases hlocked with
    | keep hheld =>
        rw [hheld] at hsum
        omega
    | @lock id ls₁ ph₁ hlock hheld =>
        have htaken := LockSet.free_lock hlock k
        rw [hheld, List.count_append, List.count_singleton] at hsum
        simp only [beq_iff_eq, eq_comm (a := id)] at hsum
        omega
    | @unlock id ph₁ hheld =>
        rw [hheld, List.count_append, List.count_singleton] at hsum
        simp only [beq_iff_eq, eq_comm (a := id)] at hsum
        rw [LockSet.free_unlock]
        omega

theorem Inv.step {env : Externals J} (s : State J) (a : Action) (s' : State J) (h : Inv s)
    (hs : DbGate.step env s a = some s') : Inv s' := by
  cases a with
  | call req => exact h.call hs
  | next c reply uuid => exact h.next hs

/-- Who holds a lock that is not free has not returned. -/
theorem Inv.exists_holder {s : State J} (h : Inv s) {k : String} (hk : s.ls.free k = 0) :
    ∃ call ∈ s.calls, call.phase.isReturned = false ∧ k ∈ held call.req call.phase := by
  have hfree := h.free k
  have hpos : 0 < holders s.calls k := by omega
  obtain ⟨count, hmem, hcount⟩ := List.exists_mem_ne_zero_of_sum_ne_zero (Nat.ne_of_gt hpos)
  obtain ⟨call, hcall, rfl⟩ := List.mem_map.mp hmem
  have hheld : k ∈ held call.req call.phase := List.count_pos_iff.mp (Nat.pos_of_ne_zero hcount)
  refine ⟨call, hcall, ?_, hheld⟩
  cases hphase : call.phase with
  | returned out =>
      rw [hphase] at hheld
      cases hheld
  | _ => rfl

/-! ### No deadlock -/

/-- The locks held come before the ones still to take. -/
def HeldFirst (rank : String → ℕ) (call : Call J) : Prop :=
  ∀ k ∈ held call.req call.phase, ∀ k' ∈ pending call.req call.phase, rank k < rank k'

instance (rank : String → ℕ) (call : Call J) : Decidable (HeldFirst rank call) :=
  inferInstanceAs (Decidable (∀ k ∈ _, ∀ k' ∈ _, _))

/-- The ids have an order in which all calls hold the first ones. -/
def Untangled (s : State J) : Prop :=
  ∃ rank : String → ℕ, ∀ call ∈ s.calls, HeldFirst rank call

/-- When a call takes a lock, the ids have an order in which all calls hold the first
ones, and in which this lock comes before those that the call has to take after it. -/
def untangled (s : State J) : Action → Prop
  | .call _ => True
  | .next c _ _ => ∀ call taken answer, s.calls[c]? = some call → call.phase = .lock taken answer →
      ∃ rank : String → ℕ, (∀ call' ∈ s.calls, HeldFirst rank call') ∧
        ∀ k ∈ call.req.ids[taken]?, ∀ k' ∈ call.req.ids.drop (taken + 1), rank k < rank k'

/-- Unless all calls have returned, one of them can take its next step. -/
def Live (env : Externals J) (s : State J) : Prop :=
  (∃ call ∈ s.calls, call.phase.isReturned = false) →
    ∃ c, ∀ reply uuid, (step env s (.next c reply uuid)).isSome = true

/-- A call that has not returned can go on when the next lock it has to take is free. -/
theorem advance_isSome {env : Externals J} {ls : LockSet} {db : Db J} {call : Call J}
    (hfits : Fits call.req call.phase) (hrunning : call.phase.isReturned = false)
    (hfree : ∀ k, (pending call.req call.phase).head? = some k → ls.free k ≠ 0)
    (reply : QueryResult) (uuid : String) :
    (advance env ls db call reply uuid).isSome = true := by
  have hlock : ∀ k, (pending call.req call.phase).head? = some k → ∃ ls', ls.lock k = some ls' := by
    intro k hk
    exact Option.ne_none_iff_exists'.mp fun hnone => hfree k hk (LockSet.lock_eq_none.mp hnone)
  obtain ⟨req, ph⟩ := call
  cases ph with
  | checkLock =>
      have hlen : 0 < req.ids.length := hfits.symm ▸ Nat.one_pos
      have hid : req.ids[0]? = some req.ids[0] := List.getElem?_eq_getElem hlen
      obtain ⟨ls', hls'⟩ := hlock req.ids[0] (by rw [← hid]; exact List.head?_eq_getElem?)
      simp only [advance, hid, Option.bind_eq_bind, Option.bind_some, hls']
      rfl
  | checkQuery => rfl
  | checkUnlock answer =>
      have hlen : 0 < req.ids.length := hfits.symm ▸ Nat.one_pos
      have hid : req.ids[0]? = some req.ids[0] := List.getElem?_eq_getElem hlen
      simp only [advance, hid, Option.bind_eq_bind, Option.bind_some]
      rfl
  | lock taken answer =>
      have hid : req.ids[taken]? = some req.ids[taken] := List.getElem?_eq_getElem hfits
      obtain ⟨ls', hls'⟩ := hlock req.ids[taken] (by rw [← hid]; exact List.head?_drop)
      simp only [advance, hid, Option.bind_eq_bind, Option.bind_some, hls']
      rfl
  | body answer => rfl
  | delete => rfl
  | unlock left out =>
      have hid : req.ids[left]? = some req.ids[left] := List.getElem?_eq_getElem hfits
      simp only [advance, hid, Option.bind_eq_bind, Option.bind_some]
      rfl
  | returned out => cases hrunning

/-- In an order in which all calls hold the first ids, the call that waits for the last
one can go on. -/
theorem Inv.live {s : State J} (h : Inv s) (horder : Untangled s) (env : Externals J) :
    Live env s := by
  intro hunreturned
  obtain ⟨rank, hrank⟩ := horder
  let running : Set (Call J) := {call | call ∈ s.calls ∧ call.phase.isReturned = false}
  have hfin : running.Finite := s.calls.finite_toSet.subset fun call hcall => hcall.1
  have hincreasing : ∀ call ∈ running, ∀ k, (pending call.req call.phase).head? = some k →
      ∀ k' ∈ held call.req call.phase, rank k' < rank k :=
    fun call hcall k hk k' hk' => hrank call hcall.1 k' hk' k (List.mem_of_mem_head? hk)
  obtain ⟨call, hcall, hfree⟩ := LockOrder.exists_unblocked (fun k => s.ls.free k = 0)
    hfin hunreturned hincreasing fun k hk => by
      obtain ⟨holder, hmem, hrunning, hheld⟩ := h.exists_holder hk
      exact ⟨holder, ⟨hmem, hrunning⟩, hheld⟩
  obtain ⟨c, hc⟩ := List.mem_iff_getElem?.mp hcall.1
  refine ⟨c, fun reply uuid => ?_⟩
  simp only [DbGate.step, hc, Option.isSome_map]
  exact advance_isSome (h.fits call hcall.1) hcall.2 hfree reply uuid

/-- The locks still to take after one of them has been taken. -/
theorem pending_locking (req : Request) (taken : ℕ) (answer : Except Err Bool) :
    pending req (locking req taken answer : Phase J) = req.ids.drop taken := by
  unfold locking
  split
  · rfl
  · rename_i hge
    exact (List.drop_of_length_le (Nat.le_of_not_lt hge)).symm

/-- A call that has taken no lock in this step holds none, or has none to take. -/
theorem heldFirst_advance {env : Externals J} {ls ls' : LockSet} {db db' : Db J} {req : Request}
    {reply : QueryResult} {uuid : String} {ph ph' : Phase J}
    (h : Advanced env ls db req reply uuid ph ls' db' ph')
    (hlock : ∀ taken answer, ph ≠ .lock taken answer) :
    held req ph' = [] ∨ pending req ph' = [] := by
  cases h with
  | checkLock _ _ => exact .inr rfl
  | checkQuery => exact .inr rfl
  | @checkUnlock id answer _ => exact .inl (held_checked req answer).1
  | lock _ _ => exact absurd rfl (hlock _ _)
  | @body answer =>
      rcases body_phase env db answer reply uuid req with hdelete | ⟨out, hleave⟩
      · rw [hdelete]
        exact .inr rfl
      · rw [hleave]
        exact .inr (pending_leave _ _ _)
  | delete => exact .inr (pending_leave _ _ _)
  | unlock _ => exact .inr (pending_leave _ _ _)

theorem untangled_next {env : Externals J} {s s' : State J} {c : ℕ}
    {reply : QueryResult} {uuid : String} (h : Untangled s)
    (hok : untangled s (.next c reply uuid)) (hs : step env s (.next c reply uuid) = some s') :
    Untangled s' := by
  obtain ⟨call, ls', db', ph', hc, hadvance, rfl⟩ := next_eq_some hs
  by_cases hphase : ∃ taken answer, call.phase = .lock taken answer
  · obtain ⟨taken, answer, hphase⟩ := hphase
    obtain ⟨rank, hrank, hlater⟩ := hok call taken answer hc hphase
    refine ⟨rank, fun call' hcall' => ?_⟩
    rcases List.mem_or_eq_of_mem_set hcall' with hold | hnew
    · exact hrank call' hold
    · obtain ⟨req, ph⟩ := call
      obtain rfl : ph = .lock taken answer := hphase
      cases hadvance with
      | @lock id ls₁ _ _ hid hls₁ =>
          rw [hnew]
          intro k hk k' hk'
          rw [(held_locking req answer (taken + 1)).1, List.take_add_one, hid,
            Option.toList_some] at hk
          rw [pending_locking] at hk'
          rcases List.mem_append.mp hk with hold | hlast
          · have hmem : k' ∈ req.ids.drop taken := by
              rw [← List.drop_drop] at hk'
              exact List.mem_of_mem_drop hk'
            exact hrank _ (List.mem_of_getElem? hc) k hold k' hmem
          · rw [List.mem_singleton.mp hlast]
            exact hlater id hid k' hk'
  · obtain ⟨rank, hrank⟩ := h
    refine ⟨rank, fun call' hcall' => ?_⟩
    rcases List.mem_or_eq_of_mem_set hcall' with hold | hnew
    · exact hrank call' hold
    · have hnone := heldFirst_advance hadvance fun taken answer hlock =>
        hphase ⟨taken, answer, hlock⟩
      intro k hk k' hk'
      rw [hnew] at hk hk'
      rcases hnone with hheld | hpending
      · rw [hheld] at hk
        cases hk
      · rw [hpending] at hk'
        cases hk'

theorem untangled_call {env : Externals J} {s s' : State J} {req : Request} (h : Untangled s)
    (hs : step env s (.call req) = some s') : Untangled s' := by
  obtain rfl := Option.some.inj hs
  obtain ⟨rank, hrank⟩ := h
  refine ⟨rank, fun call hcall => ?_⟩
  rcases List.mem_append.mp hcall with hold | hnew
  · exact hrank call hold
  · intro k hk
    rw [List.mem_singleton.mp hnew, (held_begin req).1] at hk
    cases hk

/-- **No deadlock**, in every run in which each lock is taken in such an order, for any number
of calls and any ids: as long as one of the calls has not returned, one of them can take its
next step, whatever the database answers it. -/
theorem locks_live {env : Externals J} {db : Db J} {s : State J}
    (h : Reach (step env) untangled (start db) s) : Live env s := by
  have horder : Untangled s := by
    induction h with
    | refl => exact ⟨fun _ => 0, fun call hcall => by cases hcall⟩
    | step a _ hok hs ih =>
        cases a with
        | call req => exact untangled_call ih hs
        | next c reply uuid => exact untangled_next ih hok hs
  have hinv : Inv s := h.invariant (.start db) fun s a s' hinv _ hs => hinv.step s a s' hs
  exact hinv.live horder env

/-- Two calls of `deleteShares` that list two ids in different orders, after a common
first one. The second call waits for it. -/
theorem locks_live_two : ∃ s : State String,
    s.calls.map (fun call => held call.req call.phase) = [["g", "a"], []] ∧
      Live plainDatabase s := by
  let rank : String → ℕ := fun id => if id = "g" then 0 else if id = "a" then 1 else 2
  have hfirst : Reach (step plainDatabase) untangled (start ⟨[], []⟩) _ :=
    .step (Action.call (.deleteShares ["g", "a", "b"])) .refl trivial rfl
  have hcalls := hfirst.step (Action.call (.deleteShares ["g", "b", "a"])) trivial rfl
  have hgate := hcalls.step (Action.next 0 .ok "") (fun call taken answer hc hphase => by
    obtain rfl := Option.some.inj hc
    cases hphase
    exact ⟨rank, by decide, by decide⟩) rfl
  have hlock := hgate.step (Action.next 0 .ok "") (fun call taken answer hc hphase => by
    obtain rfl := Option.some.inj hc
    cases hphase
    exact ⟨rank, by decide, by decide⟩) rfl
  exact ⟨_, rfl, locks_live hlock⟩

/-- A call of `deleteShares` with a repeated id waits for itself. -/
theorem deleteShares_stuck : ∃ s : State String,
    Reach (step plainDatabase) (fun _ _ => True) (start ⟨[], []⟩) s ∧ ¬ Live plainDatabase s := by
  have hcall : Reach (step plainDatabase) (fun _ _ => True) (start ⟨[], []⟩) _ :=
    .step (Action.call (.deleteShares ["a", "a"])) .refl trivial rfl
  have hlock := hcall.step (Action.next 0 .ok "") trivial rfl
  refine ⟨_, hlock, fun hlive => ?_⟩
  obtain ⟨c, hc⟩ := hlive ⟨_, List.mem_cons_self, rfl⟩
  have hnext := hc .ok ""
  cases c with
  | zero => cases hnext
  | succ c => cases hnext

/-! ### Ids in a common order -/

/-- The ids of the calls that have not returned. -/
def unreturnedIds (s : State J) : List (List String) :=
  (s.calls.filter fun call => !call.phase.isReturned).map fun call => call.req.ids

/-- The ids have an order in which every list is strictly increasing. -/
def CommonOrder (lists : List (List String)) : Prop :=
  ∃ rank : String → ℕ, ∀ ids ∈ lists, ids.Pairwise fun id id' => rank id < rank id'

/-- A new call and the calls in progress list their ids in a common order. -/
def ordered (s : State J) : Action → Prop
  | .call req => CommonOrder (req.ids :: unreturnedIds s)
  | .next _ _ _ => True

theorem heldFirst_of_pairwise {rank : String → ℕ} {call : Call J}
    (h : call.req.ids.Pairwise fun id id' => rank id < rank id') : HeldFirst rank call := by
  obtain ⟨req, ph⟩ := call
  cases ph with
  | lock taken answer =>
      intro k hk k' hk'
      rw [← List.take_append_drop taken req.ids] at h
      exact (List.pairwise_append.mp h).2.2 k hk k' hk'
  | checkLock =>
      intro k hk
      cases hk
  | _ =>
      intro k _ k' hk'
      cases hk'

theorem CommonOrder.untangled {s : State J} (h : CommonOrder (unreturnedIds s)) : Untangled s := by
  obtain ⟨rank, hrank⟩ := h
  refine ⟨rank, fun call hcall => ?_⟩
  by_cases hreturned : call.phase.isReturned = true
  · obtain ⟨req, ph⟩ := call
    cases ph with
    | returned out =>
        intro k hk
        cases hk
    | _ => cases hreturned
  · refine heldFirst_of_pairwise (hrank call.req.ids ?_)
    exact List.mem_map.mpr ⟨call, List.mem_filter.mpr ⟨hcall, by simpa using hreturned⟩, rfl⟩

theorem commonOrder_next {env : Externals J} {s s' : State J} {c : ℕ}
    {reply : QueryResult} {uuid : String} (h : CommonOrder (unreturnedIds s))
    (hs : step env s (.next c reply uuid) = some s') : CommonOrder (unreturnedIds s') := by
  obtain ⟨call, ls', db', ph', hc, hadvance, rfl⟩ := next_eq_some hs
  have hrunning : call.phase.isReturned = false := by
    obtain ⟨req, ph⟩ := call
    cases ph with
    | returned out => cases hadvance
    | _ => rfl
  obtain ⟨rank, hrank⟩ := h
  refine ⟨rank, fun ids hids => hrank ids ?_⟩
  obtain ⟨call', hcall', rfl⟩ := List.mem_map.mp hids
  obtain ⟨hmem, hrunning'⟩ := List.mem_filter.mp hcall'
  rcases List.mem_or_eq_of_mem_set hmem with hold | hnew
  · exact List.mem_map.mpr ⟨call', List.mem_filter.mpr ⟨hold, hrunning'⟩, rfl⟩
  · refine List.mem_map.mpr ⟨call, List.mem_filter.mpr ⟨List.mem_of_getElem? hc, ?_⟩, ?_⟩
    · rw [hrunning]
      rfl
    · rw [hnew]

theorem commonOrder_call {env : Externals J} {s s' : State J} {req : Request}
    (hok : ordered s (.call req)) (hs : step env s (.call req) = some s') :
    CommonOrder (unreturnedIds s') := by
  obtain rfl := Option.some.inj hs
  obtain ⟨rank, hrank⟩ := hok
  refine ⟨rank, fun ids hids => hrank ids ?_⟩
  obtain ⟨call', hcall', rfl⟩ := List.mem_map.mp hids
  obtain ⟨hmem, hrunning⟩ := List.mem_filter.mp hcall'
  rcases List.mem_append.mp hmem with hold | hnew
  · refine List.mem_cons_of_mem _ (List.mem_map.mpr ⟨call', ?_, rfl⟩)
    exact List.mem_filter.mpr ⟨hold, hrunning⟩
  · rw [List.mem_singleton.mp hnew]
    exact List.mem_cons_self

/-- No deadlock in runs whose calls list their ids in a common order. -/
theorem live_of_ordered {env : Externals J} {db : Db J} {s : State J}
    (h : Reach (step env) ordered (start db) s) : Live env s := by
  have horder : CommonOrder (unreturnedIds s) := by
    induction h with
    | refl => exact ⟨fun _ => 0, fun ids hids => by cases hids⟩
    | step a _ hok hs ih =>
        cases a with
        | call req => exact commonOrder_call hok hs
        | next c reply uuid => exact commonOrder_next ih hs
  have hinv : Inv s := h.invariant (.start db) fun s a s' hinv _ hs => hinv.step s a s' hs
  exact hinv.live horder.untangled env

end QuickMpc.DbGate
