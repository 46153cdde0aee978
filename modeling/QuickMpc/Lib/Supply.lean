import Mathlib.Data.Fin.Tuple.Basic
import Mathlib.Data.List.Basic

/-!
# QuickMpc.Lib.Supply

Computations that take things from a supply, one after the other, and may fail.
The state is the number of things taken so far.

`Returns m P` is total correctness, from every state: `m` returns, and its result
satisfies `P`. `Ensures m P` is partial correctness. Each has one rule for every
way of composing computations. `Computes m o P` compares with a plain computation
that may fail as well. `ReturnsOr m P Q` lets `m` fail for a reason: it returns a result
with `P`, and where it does not, there is `Q`.
-/

namespace QuickMpc

/-- A computation that takes from a supply; `none` when it has no result. -/
abbrev Supply (α : Type) := StateT ℕ Option α

namespace Supply

variable {α β : Type}

/-- The next `m` things: `f` gets the number of things taken before. -/
def take (m : ℕ) (f : ℕ → α) : Supply α := fun k => some (f k, k + m)

/-- One result for each index, in order. -/
def tabulate : (N : ℕ) → (Fin N → Supply α) → Supply (Fin N → α)
  | 0, _ => return Fin.elim0
  | N + 1, f => do
      let a ← f 0
      let as ← tabulate N fun i => f i.succ
      return Fin.cons a as

/-- From every state, `m` returns a result with `P`. -/
def Returns (m : Supply α) (P : α → Prop) : Prop :=
  ∀ k, ∃ a k', m k = some (a, k') ∧ P a

/-- Whenever `m` returns, its result has `P`. -/
def Ensures (m : Supply α) (P : α → Prop) : Prop :=
  ∀ k a k', m k = some (a, k') → P a

/-- `m` never returns. -/
def Fails (m : Supply α) : Prop := ∀ k, m k = none

/-- `m` computes `o`, up to `P`: it returns a result with `P`, or nothing when `o` is nothing. -/
def Computes (m : Supply α) (o : Option β) (P : α → β → Prop) : Prop :=
  match o with
  | some b => Returns m fun a => P a b
  | none => Fails m

/-- From every state, `m` returns a result with `P`, or it has none and there is `Q`. -/
def ReturnsOr (m : Supply α) (P : α → Prop) (Q : Prop) : Prop :=
  ∀ k, (∃ a k', m k = some (a, k') ∧ P a) ∨ m k = none ∧ Q

/-- A computation that takes nothing. -/
def ofOption : Option α → Supply α
  | some a => return a
  | none => failure

def ofExcept {ε : Type} : Except ε α → Supply α
  | .ok a => return a
  | .error _ => failure

theorem run_bind (m : Supply α) (f : α → Supply β) (k : ℕ) :
    (m >>= f) k = (m k).bind fun r => f r.1 r.2 := rfl

/-! ### Total correctness -/

theorem Returns.ensures {m : Supply α} {P : α → Prop} (h : Returns m P) : Ensures m P := by
  intro k a k' hrun
  obtain ⟨b, k₁, hb, hP⟩ := h k
  rw [hb] at hrun
  obtain ⟨rfl, -⟩ := Prod.mk.inj (Option.some.inj hrun)
  exact hP

theorem Returns.mono {m : Supply α} {P Q : α → Prop} (h : Returns m P) (hPQ : ∀ a, P a → Q a) :
    Returns m Q := by
  intro k
  obtain ⟨a, k', hrun, hP⟩ := h k
  exact ⟨a, k', hrun, hPQ a hP⟩

theorem Returns.and_ensures {m : Supply α} {P Q : α → Prop} (h : Returns m P)
    (h' : Ensures m Q) : Returns m fun a => P a ∧ Q a := by
  intro k
  obtain ⟨a, k', hrun, hP⟩ := h k
  exact ⟨a, k', hrun, hP, h' k a k' hrun⟩

theorem Returns.and {m : Supply α} {P Q : α → Prop} (h : Returns m P) (h' : Returns m Q) :
    Returns m fun a => P a ∧ Q a :=
  h.and_ensures h'.ensures

theorem Returns.pure {a : α} {P : α → Prop} (h : P a) : Returns (pure a) P :=
  fun k => ⟨a, k, rfl, h⟩

theorem Returns.take {m : ℕ} {f : ℕ → α} {P : α → Prop} (h : ∀ k, P (f k)) :
    Returns (take m f) P :=
  fun k => ⟨f k, k + m, rfl, h k⟩

theorem Returns.bind {m : Supply α} {f : α → Supply β} {P : α → Prop} {Q : β → Prop}
    (hm : Returns m P) (hf : ∀ a, P a → Returns (f a) Q) : Returns (m >>= f) Q := by
  intro k
  obtain ⟨a, k₁, hrun, hP⟩ := hm k
  obtain ⟨b, k₂, hrun₂, hQ⟩ := hf a hP k₁
  refine ⟨b, k₂, ?_, hQ⟩
  rw [run_bind, hrun]
  exact hrun₂

/-- A loop that collects one result for each element, in order, by any pair of rules for
`pure` and `bind`. -/
theorem mapM_of_rules {Holds : ∀ {γ : Type}, Supply γ → (γ → Prop) → Prop}
    (hpure : ∀ {γ : Type} {c : γ} {P : γ → Prop}, P c → Holds (Pure.pure c) P)
    (hbind : ∀ {γ δ : Type} {m : Supply γ} {f : γ → Supply δ} {P : γ → Prop} {Q : δ → Prop},
      Holds m P → (∀ c, P c → Holds (f c) Q) → Holds (m >>= f) Q)
    {f : α → Supply β} {as : List α} :
    ∀ {P : ℕ → β → Prop}, (∀ k a, as[k]? = some a → Holds (f a) (P k)) →
      Holds (as.mapM f) fun bs => bs.length = as.length ∧ ∀ k b, bs[k]? = some b → P k b := by
  induction as with
  | nil =>
      intro P _
      rw [List.mapM_nil]
      exact hpure ⟨rfl, by simp⟩
  | cons a as ih =>
      intro P h
      rw [List.mapM_cons]
      refine hbind (h 0 a rfl) fun b hb => ?_
      have htail := ih (P := fun k => P (k + 1)) fun k a' ha' => h (k + 1) a' (by simpa using ha')
      refine hbind htail fun bs hbs => hpure ⟨by simp [hbs.1], fun k b' hb' => ?_⟩
      cases k with
      | zero =>
          obtain rfl : b = b' := by simpa using hb'
          exact hb
      | succ k => exact hbs.2 k b' (by simpa using hb')

theorem Returns.mapM {f : α → Supply β} {as : List α} {P : ℕ → β → Prop}
    (h : ∀ k a, as[k]? = some a → Returns (f a) (P k)) :
    Returns (as.mapM f) fun bs => bs.length = as.length ∧ ∀ k b, bs[k]? = some b → P k b :=
  mapM_of_rules Returns.pure Returns.bind h

theorem Returns.mapM_forall₂ {f : α → Supply β} {P : α → β → Prop} {as : List α}
    (h : ∀ a ∈ as, Returns (f a) (P a)) : Returns (as.mapM f) (List.Forall₂ P as) := by
  induction as with
  | nil => exact .pure .nil
  | cons a as ih =>
      rw [List.mapM_cons]
      have htail := ih fun a' ha' => h a' (List.mem_cons_of_mem a ha')
      exact (h a List.mem_cons_self).bind fun b hb => htail.bind fun bs hbs => .pure (.cons hb hbs)

theorem Returns.tabulate : ∀ {N : ℕ} {f : Fin N → Supply α} {P : Fin N → α → Prop},
    (∀ i, Returns (f i) (P i)) → Returns (tabulate N f) fun v => ∀ i, P i (v i)
  | 0, _, _, _ => .pure fun i => i.elim0
  | N + 1, f, P, h => by
      refine (h 0).bind fun a ha => ?_
      refine (Returns.tabulate fun i => h i.succ).bind fun as has => .pure fun i => ?_
      cases i using Fin.cases with
      | zero => exact ha
      | succ i => exact has i

/-- A loop with an accumulator, of which nothing needs to be known. -/
theorem Returns.foldlM {f : β → α → Supply β} (h : ∀ b a, Returns (f b a) fun _ => True) :
    ∀ {as : List α} {b : β}, Returns (as.foldlM f b) fun _ => True
  | [], _ => .pure trivial
  | a :: as, b => by
      rw [List.foldlM_cons]
      exact (h b a).bind fun _ _ => Returns.foldlM h

/-- A loop with an accumulator: `P` of the elements that it has passed and of the
accumulator is kept. -/
theorem Returns.foldlM_passed {f : β → α → Supply β} {P : List α → β → Prop} {as : List α}
    (hstep : ∀ passed a rest b, passed ++ a :: rest = as → P passed b →
      Returns (f b a) (P (passed ++ [a]))) {b : β} (h : P [] b) :
    Returns (as.foldlM f b) (P as) := by
  have hloop : ∀ (rest passed : List α) (b : β), passed ++ rest = as → P passed b →
      Returns (rest.foldlM f b) (P as) := by
    intro rest
    induction rest with
    | nil =>
        intro passed b has hb
        rw [List.append_nil] at has
        exact .pure (has ▸ hb)
    | cons a rest ih =>
        intro passed b has hb
        rw [List.foldlM_cons]
        refine (hstep passed a rest b has hb).bind fun b' hb' => ih (passed ++ [a]) b' ?_ hb'
        rw [List.append_assoc, List.singleton_append, has]
  exact hloop as [] b (List.nil_append as) h

/-- A recursion that removes an entry of a list with every call, down to a depth. When the
depth is that of the list, the calls below it are never made. -/
theorem Returns.of_erase {ι σ κ : Type} [DecidableEq κ] {call : ℕ → σ → List κ → Supply α}
    {body : (σ → List κ → Supply α) → σ → List κ → Supply α} {below : σ → List κ → Supply α}
    (hzero : ∀ s R, call 0 s R = body below s R)
    (hsucc : ∀ depth s R, call (depth + 1) s R = body (call depth) s R)
    {I : ι → σ → List κ → Prop} {P : ι → List κ → α → Prop}
    (hbody : ∀ {child : σ → List κ → Supply α} {x : ι} {s : σ} {R : List κ}, I x s R →
      (∀ a ∈ R, ∀ y s', I y s' (R.erase a) →
        Returns (child s' (R.erase a)) (P y (R.erase a))) →
      Returns (body child s R) (P x R)) :
    ∀ {depth : ℕ} {x : ι} {s : σ} {R : List κ}, R.length ≤ depth → I x s R →
      Returns (call depth s R) (P x R) := by
  intro depth
  induction depth with
  | zero =>
      intro x s R hlen hinv
      obtain rfl := List.length_eq_zero_iff.mp (Nat.le_zero.mp hlen)
      rw [hzero]
      exact hbody hinv fun a ha => by cases ha
  | succ depth ih =>
      intro x s R hlen hinv
      rw [hsucc]
      refine hbody hinv fun a ha y s' hinv' => ih ?_ hinv'
      rw [List.length_erase_of_mem ha]
      omega

theorem Returns.ofExcept {ε : Type} {m : Except ε α} {a : α} {P : α → Prop} (hm : m = .ok a)
    (h : P a) : Returns (ofExcept m) P := by
  rw [hm]
  exact .pure h

/-! ### The same as a plain computation -/

theorem Fails.failure : Fails (failure : Supply α) := fun _ => rfl

theorem Fails.bind {m : Supply α} (h : Fails m) (f : α → Supply β) : Fails (m >>= f) := by
  intro k
  rw [run_bind, h k]
  rfl

theorem Returns.bind_fails {m : Supply α} {f : α → Supply β} {P : α → Prop} (hm : Returns m P)
    (hf : ∀ a, P a → Fails (f a)) : Fails (m >>= f) := by
  intro k
  obtain ⟨a, k', hrun, hP⟩ := hm k
  rw [run_bind, hrun]
  exact hf a hP k'

theorem Computes.mono {m : Supply α} {o : Option β} {P Q : α → β → Prop} (h : Computes m o P)
    (hPQ : ∀ a b, P a b → Q a b) : Computes m o Q := by
  cases o with
  | none => exact h
  | some b => exact Returns.mono h fun a => hPQ a b

theorem Computes.pure {a : α} {b : β} {P : α → β → Prop} (h : P a b) :
    Computes (pure a) (some b) P := Returns.pure h

/-- What follows is only looked at for the result of the plain computation. -/
theorem Computes.bind {γ δ : Type} {m : Supply α} {o : Option β} {P : α → β → Prop}
    {f : α → Supply γ} {g : β → Option δ} {Q : γ → δ → Prop} (hm : Computes m o P)
    (hf : ∀ a, ∀ b ∈ o, P a b → Computes (f a) (g b) Q) : Computes (m >>= f) (o >>= g) Q := by
  cases o with
  | none => exact Fails.bind hm f
  | some b =>
      rw [Option.bind_eq_bind, Option.bind_some]
      have hstep : ∀ a, P a b → Computes (f a) (g b) Q := fun a => hf a b rfl
      revert hstep
      cases g b with
      | none => exact fun hstep => Returns.bind_fails hm hstep
      | some d => exact fun hstep => Returns.bind hm hstep

theorem Computes.bind_returns {γ : Type} {m : Supply α} {o : Option β} {P : α → β → Prop}
    {f : α → Supply γ} {Q : γ → β → Prop} (hm : Computes m o P)
    (hf : ∀ a, ∀ b ∈ o, P a b → Returns (f a) fun c => Q c b) : Computes (m >>= f) o Q := by
  rw [← bind_pure o]
  exact hm.bind hf

theorem Returns.bind_computes {γ δ : Type} {m : Supply α} {f : α → Supply γ} {o : Option δ}
    {P : α → Prop} {Q : γ → δ → Prop} (hm : Returns m P) (hf : ∀ a, P a → Computes (f a) o Q) :
    Computes (m >>= f) o Q := by
  cases o with
  | none => exact hm.bind_fails hf
  | some d => exact hm.bind hf

theorem Computes.mapM {f : α → Supply β} {γ : Type} {g : α → Option γ} {P : β → γ → Prop}
    {as : List α} (h : ∀ a ∈ as, Computes (f a) (g a) P) :
    Computes (as.mapM f) (as.mapM g) (List.Forall₂ P) := by
  induction as with
  | nil => exact .pure .nil
  | cons a as ih =>
      rw [List.mapM_cons, List.mapM_cons]
      have htail := ih fun a' ha' => h a' (List.mem_cons_of_mem a ha')
      exact (h a List.mem_cons_self).bind fun b c _ hb =>
        htail.bind fun bs cs _ hbs => .pure (.cons hb hbs)

/-- Two loops with accumulators: `R` of the number of elements passed is kept. -/
theorem Computes.foldlM {γ : Type} {f : β → α → Supply β} {g : γ → α → Option γ}
    {R : ℕ → β → γ → Prop} {as : List α}
    (hstep : ∀ a ∈ as, ∀ k b c, R k b c → Computes (f b a) (g c a) (R (k + 1))) {b : β} {c : γ}
    (h : R 0 b c) : Computes (as.foldlM f b) (as.foldlM g c) (R as.length) := by
  induction as generalizing R b c with
  | nil => exact .pure h
  | cons a as ih =>
      rw [List.foldlM_cons, List.foldlM_cons, List.length_cons]
      refine (hstep a List.mem_cons_self 0 b c h).bind fun b' c' _ h' => ?_
      exact ih (R := fun k => R (k + 1))
        (fun a' ha' k => hstep a' (List.mem_cons_of_mem a ha') (k + 1)) h'

theorem Computes.ofOption (o : Option α) : Computes (ofOption o) o Eq := by
  cases o with
  | none => exact Fails.failure
  | some a => exact Returns.pure rfl

/-! ### Failing for a reason -/

theorem Returns.returnsOr {m : Supply α} {P : α → Prop} (h : Returns m P) (Q : Prop) :
    ReturnsOr m P Q :=
  fun k => .inl (h k)

theorem Computes.returnsOr {m : Supply α} {o : Option β} {P : α → β → Prop} (h : Computes m o P) :
    ReturnsOr m (fun a => ∃ b ∈ o, P a b) (o = none) := by
  cases o with
  | none => exact fun k => .inr ⟨h k, rfl⟩
  | some b => exact (Returns.mono h fun a ha => ⟨b, rfl, ha⟩).returnsOr _

theorem ReturnsOr.returns {m : Supply α} {P : α → Prop} {Q : Prop} (h : ReturnsOr m P Q)
    (hQ : ¬Q) : Returns m P :=
  fun k => (h k).resolve_right fun hfail => hQ hfail.2

theorem ReturnsOr.mono {m : Supply α} {P P' : α → Prop} {Q Q' : Prop} (h : ReturnsOr m P Q)
    (hP : ∀ a, P a → P' a) (hQ : Q → Q') : ReturnsOr m P' Q' := by
  intro k
  rcases h k with ⟨a, k', hrun, ha⟩ | ⟨hrun, hq⟩
  · exact .inl ⟨a, k', hrun, hP a ha⟩
  · exact .inr ⟨hrun, hQ hq⟩

theorem ReturnsOr.bind {m : Supply α} {f : α → Supply β} {P : α → Prop} {P' : β → Prop} {Q : Prop}
    (hm : ReturnsOr m P Q) (hf : ∀ a, P a → ReturnsOr (f a) P' Q) :
    ReturnsOr (m >>= f) P' Q := by
  intro k
  rw [run_bind]
  rcases hm k with ⟨a, k', hrun, ha⟩ | ⟨hrun, hq⟩
  · rw [hrun]
    exact hf a ha k'
  · rw [hrun]
    exact .inr ⟨rfl, hq⟩

theorem Returns.bind_returnsOr {m : Supply α} {f : α → Supply β} {P : α → Prop} {P' : β → Prop}
    {Q : Prop} (hm : Returns m P) (hf : ∀ a, P a → ReturnsOr (f a) P' Q) :
    ReturnsOr (m >>= f) P' Q :=
  (hm.returnsOr Q).bind hf

theorem ReturnsOr.bind_returns {m : Supply α} {f : α → Supply β} {P : α → Prop} {P' : β → Prop}
    {Q : Prop} (hm : ReturnsOr m P Q) (hf : ∀ a, P a → Returns (f a) P') :
    ReturnsOr (m >>= f) P' Q :=
  hm.bind fun a ha => (hf a ha).returnsOr Q

theorem ReturnsOr.tabulate : ∀ {N : ℕ} {f : Fin N → Supply α} {P : Fin N → α → Prop} {Q : Prop},
    (∀ i, ReturnsOr (f i) (P i) Q) → ReturnsOr (tabulate N f) (fun v => ∀ i, P i (v i)) Q
  | 0, _, _, Q, _ => (Returns.pure fun i => i.elim0).returnsOr Q
  | N + 1, f, P, Q, h => by
      refine (h 0).bind fun a ha => ?_
      refine (ReturnsOr.tabulate fun i => h i.succ).bind_returns fun as has => .pure fun i => ?_
      cases i using Fin.cases with
      | zero => exact ha
      | succ i => exact has i

theorem ReturnsOr.mapM_forall₂ {f : α → Supply β} {P : α → β → Prop} {Q : Prop} {as : List α}
    (h : ∀ a ∈ as, ReturnsOr (f a) (P a) Q) : ReturnsOr (as.mapM f) (List.Forall₂ P as) Q := by
  induction as with
  | nil => exact (Returns.pure .nil).returnsOr Q
  | cons a as ih =>
      rw [List.mapM_cons]
      have htail := ih fun a' ha' => h a' (List.mem_cons_of_mem a ha')
      exact (h a List.mem_cons_self).bind fun b hb =>
        htail.bind_returns fun bs hbs => .pure (.cons hb hbs)

/-! ### Partial correctness -/

theorem Ensures.mono {m : Supply α} {P Q : α → Prop} (h : Ensures m P) (hPQ : ∀ a, P a → Q a) :
    Ensures m Q :=
  fun k a k' hrun => hPQ a (h k a k' hrun)

theorem Ensures.trivial {m : Supply α} : Ensures m fun _ => True :=
  fun _ _ _ _ => True.intro

theorem Ensures.failure {P : α → Prop} : Ensures failure P :=
  fun _ _ _ hrun => by cases hrun

theorem Ensures.pure {a : α} {P : α → Prop} (h : P a) : Ensures (pure a) P :=
  (Returns.pure h).ensures

theorem Ensures.bind {m : Supply α} {f : α → Supply β} {P : α → Prop} {Q : β → Prop}
    (hm : Ensures m P) (hf : ∀ a, P a → Ensures (f a) Q) : Ensures (m >>= f) Q := by
  intro k b k' hrun
  rw [run_bind] at hrun
  obtain ⟨⟨a, k₁⟩, hrun₁, hrun₂⟩ := Option.bind_eq_some_iff.mp hrun
  exact hf a (hm k a k₁ hrun₁) k₁ b k' hrun₂

theorem Ensures.mapM {f : α → Supply β} {as : List α} {P : ℕ → β → Prop}
    (h : ∀ k a, as[k]? = some a → Ensures (f a) (P k)) :
    Ensures (as.mapM f) fun bs => bs.length = as.length ∧ ∀ k b, bs[k]? = some b → P k b :=
  mapM_of_rules Ensures.pure Ensures.bind h

end Supply

end QuickMpc
