import Mathlib.Data.Nat.Notation
import Mathlib.Logic.Function.Basic

/-!
# QuickMpc.DbGate.LockSet

`lockSet`: a lock for each key, made when the key is used for the first time.

The lock of a key is an unbuffered channel. It is free when a goroutine offers to
send on it: `Lock` receives, and `Unlock` starts another goroutine that sends.
`getChan` starts the first one.
-/

namespace QuickMpc.DbGate

/-- For each registered key, how many goroutines offer to send on its channel. -/
abbrev LockSet := String → Option ℕ

namespace LockSet

def newLockSet : LockSet := fun _ => none

/-- `LoadOrStore`. -/
def getChan (set : LockSet) (k : String) : LockSet :=
  match set k with
  | some _ => set
  | none => Function.update set k (some 1)

/-- `Lock`, when it can receive. A `Lock` that waits has registered the key, which is
nothing that another goroutine can tell. -/
def lock (set : LockSet) (k : String) : Option LockSet :=
  let set' := set.getChan k
  match set' k with
  | some (offers + 1) => some (Function.update set' k (some offers))
  | _ => none

def unlock (set : LockSet) (k : String) : LockSet :=
  let set' := set.getChan k
  Function.update set' k (some ((set' k).getD 0 + 1))

/-- How often the lock of a key can be taken. -/
def free (set : LockSet) (k : String) : ℕ := (set k).getD 1

theorem getChan_self (set : LockSet) (k : String) : set.getChan k k = some (set.free k) := by
  cases hk : set k with
  | some offers => simp [getChan, free, hk]
  | none => simp [getChan, free, hk]

@[simp] theorem free_getChan (set : LockSet) (k k' : String) :
    (set.getChan k).free k' = set.free k' := by
  by_cases hk : k' = k
  · subst hk
    rw [free, getChan_self]
    rfl
  · cases hset : set k with
    | some offers => simp [getChan, hset]
    | none => simp [getChan, free, hset, Function.update_of_ne hk]

theorem lock_eq_none {set : LockSet} {k : String} : set.lock k = none ↔ set.free k = 0 := by
  simp only [lock, getChan_self]
  cases set.free k with
  | zero => simp
  | succ offers => simp

/-- `Lock` takes one of the offers. -/
theorem free_lock {set set' : LockSet} {k : String} (h : set.lock k = some set') (k' : String) :
    set'.free k' + (if k' = k then 1 else 0) = set.free k' := by
  simp only [lock, getChan_self] at h
  cases hfree : set.free k with
  | zero =>
      rw [hfree] at h
      cases h
  | succ offers =>
      rw [hfree] at h
      obtain rfl := Option.some.inj h
      by_cases hk : k' = k
      · subst hk
        simp [free, ← hfree]
      · rw [if_neg hk, free, Function.update_of_ne hk, ← free, free_getChan, Nat.add_zero]

@[simp] theorem free_unlock (set : LockSet) (k k' : String) :
    (set.unlock k).free k' = set.free k' + if k' = k then 1 else 0 := by
  simp only [unlock, getChan_self, Option.getD_some]
  by_cases hk : k' = k
  · subst hk
    simp [free]
  · rw [if_neg hk, free, Function.update_of_ne hk, ← free, free_getChan, Nat.add_zero]

end LockSet

end QuickMpc.DbGate
