import Mathlib.Data.Fin.Tuple.Basic

/-!
# QuickMpc.Basic

How a modelled call ends. A C++ call of the computation container returns,
throws, or ends the process; a rejection loop (`while (true)` around a random
draw) may also still be drawing when the draws handed to the model run out.
`Run α` is the result type of every fallible definition, and `collect` runs a
loop `for (i = 0; i < m; i++) v[i] = f(i);` whose body is fallible.
-/

namespace QuickMpc

/-- How a call ends other than by returning. -/
inductive Abort
  /-- `std::runtime_error`, raised through `throw_with_trace`. -/
  | runtimeError (what : String)
  /-- `std::range_error`, raised by a checked Boost integer. -/
  | rangeError
  /-- Raised by Boost: a quotient by 0 is converted to an integer. -/
  | divisionByZero
  /-- `std::exit(EXIT_FAILURE)`. -/
  | exit
  /-- The draws handed to the model ended inside a rejection loop. -/
  | outOfDraws
  deriving DecidableEq, Repr

/-- The result of a fallible call. -/
abbrev Run (α : Type) := Except Abort α

section Bind

variable {ε α β : Type} {x : Except ε α} {f : α → Except ε β}

theorem Except.bind_ok {a : α} (h : x = .ok a) (f : α → Except ε β) : (x >>= f) = f a := by
  rw [h]
  rfl

theorem Except.bind_error {e : ε} (h : x = .error e) (f : α → Except ε β) :
    (x >>= f) = .error e := by
  rw [h]
  rfl

theorem Except.bind_eq_ok {b : β} (h : (x >>= f) = .ok b) : ∃ a, x = .ok a ∧ f a = .ok b := by
  cases x with
  | error e => cases h
  | ok a => exact ⟨a, rfl, h⟩

end Bind

/-- The vector filled by a loop over its indices, or the first abort. -/
def collect {α : Type} : {m : ℕ} → (Fin m → Run α) → Run (Fin m → α)
  | 0, _ => .ok Fin.elim0
  | _ + 1, f => do
    let head ← f 0
    let tail ← collect fun i => f i.succ
    return Fin.cons head tail

/-- The loop returns `g` exactly when its `i`-th round returns `g i`. -/
theorem collect_eq_ok {α : Type} :
    ∀ {m : ℕ} {f : Fin m → Run α} {g : Fin m → α}, collect f = .ok g ↔ ∀ i, f i = .ok (g i)
  | 0, f, g => by
      constructor
      · intro _ i
        exact i.elim0
      · intro _
        exact congrArg Except.ok (funext fun i => i.elim0)
  | m + 1, f, g => by
      constructor
      · intro h
        cases h0 : f 0 with
        | error e => simp [collect, h0, bind, Except.bind] at h
        | ok a =>
            cases ht : collect fun i => f i.succ with
            | error e => simp [collect, h0, ht, bind, Except.bind] at h
            | ok t =>
                simp only [collect, h0, ht, bind, Except.bind, pure, Except.pure,
                  Except.ok.injEq] at h
                subst h
                exact Fin.cases h0 fun i => collect_eq_ok.mp ht i
      · intro h
        have ht : collect (fun i => f i.succ) = .ok fun i => g i.succ :=
          collect_eq_ok.mpr fun i => h i.succ
        simp only [collect, h 0, ht, bind, Except.bind, pure, Except.pure, Except.ok.injEq]
        exact Fin.cons_self_tail g

end QuickMpc
