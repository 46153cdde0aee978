import Mathlib.Data.List.Basic
import Mathlib.Logic.Function.Basic

/-!
# Guarded step functions

A system is an executable step function: `step s a` is `some s'` when the action
`a` is possible in state `s`, and `none` otherwise. The step function is the
only definition; `exec` replays a list of actions, and `Reach` is the set of
states of all runs whose steps meet a condition `ok`, which is where facts about
every run are proved (`Reach.invariant`).

With `ok` trivial, `Reach` is plain reachability. A condition on the steps says
under which circumstances a property of the system holds that fails in general.
-/

namespace StepSystem

variable {σ α : Type*}

/-- Replay a list of actions; `none` when one of them is not possible. -/
def exec (step : σ → α → Option σ) : List α → σ → Option σ
  | [], s => some s
  | a :: as, s => (step s a).bind (exec step as)

/-- The steps that meet a condition. -/
def restrict (step : σ → α → Option σ) (ok : σ → α → Prop) [∀ s a, Decidable (ok s a)] :
    σ → α → Option σ :=
  fun s a => if ok s a then step s a else none

/-- The states of the runs from `init` whose steps all meet `ok`. -/
inductive Reach (step : σ → α → Option σ) (ok : σ → α → Prop) (init : σ) : σ → Prop
  | refl : Reach step ok init init
  | step {s s' : σ} (a : α) :
      Reach step ok init s → ok s a → step s a = some s' → Reach step ok init s'

variable {step : σ → α → Option σ} {ok : σ → α → Prop} {init : σ}

/-- **The invariant rule.** What holds initially and is preserved by every step
that meets `ok` holds in every state of every such run. -/
theorem Reach.invariant {Inv : σ → Prop} (hinit : Inv init)
    (hstep : ∀ s a s', Inv s → ok s a → step s a = some s' → Inv s') {s : σ}
    (h : Reach step ok init s) : Inv s := by
  induction h with
  | refl => exact hinit
  | step a _ hok hs ih => exact hstep _ a _ ih hok hs

/-- A weaker condition on the steps reaches more states. -/
theorem Reach.mono {ok' : σ → α → Prop} (hle : ∀ s a, ok s a → ok' s a) {s : σ}
    (h : Reach step ok init s) : Reach step ok' init s := by
  induction h with
  | refl => exact .refl
  | step a _ hok hs ih => exact ih.step a (hle _ a hok) hs

/-- A replay from a reached state whose steps meet the condition ends in a
reached state. -/
theorem Reach.exec_restrict [∀ s a, Decidable (ok s a)] (as : List α) :
    ∀ {s s' : σ}, Reach step ok init s → exec (restrict step ok) as s = some s' →
      Reach step ok init s' := by
  induction as with
  | nil =>
      intro s s' h hexec
      obtain rfl : s = s' := Option.some.inj hexec
      exact h
  | cons a as ih =>
      intro s s' h hexec
      rw [exec, Option.bind_eq_some_iff] at hexec
      obtain ⟨s₁, hstep, hrest⟩ := hexec
      unfold restrict at hstep
      split at hstep
      · rename_i hok
        exact ih (h.step a hok hstep) hrest
      · exact absurd hstep (by simp)

/-- Replays are runs. -/
theorem Reach.of_exec {as : List α} {s : σ} (h : exec step as init = some s) :
    Reach step (fun _ _ => True) init s := by
  refine Reach.exec_restrict as .refl ?_
  have hsame : restrict step (fun _ _ => True) = step := by
    funext s a
    exact if_pos trivial
  rwa [hsame]

/-- A step of party `i` changes the list of that party only. -/
theorem mem_update {ι β : Type*} [DecidableEq ι] {f : ι → List β} {i j : ι} {l : List β} {b : β} :
    b ∈ Function.update f i l j ↔ j = i ∧ b ∈ l ∨ j ≠ i ∧ b ∈ f j := by
  by_cases h : j = i
  · subst h
    simp
  · simp [h]

end StepSystem
