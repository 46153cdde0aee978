import QuickMpc.Residue

/-!
# QuickMpc.PrimeField.Checked

The operators of `PrimeField` with the checks of `checked_uint128_t`.

Every addition, subtraction and multiplication of the source is checked here; on stored
values none of them raises, and the result is the one of `QuickMpc.PrimeField`
(`eval_eq`). Every operator is the one of `ZMod p`, but the stored integer is reduced only
as long as no `0` is negated (`keeps_iff`).
-/

namespace QuickMpc.PrimeField.Checked

/-! ### Checked integers -/

/-- `+` of `checked_uint128_t`. -/
def add (x y : ℕ) : Run ℕ :=
  if x + y < 2 ^ 128 then .ok (x + y) else .error (.runtimeError "overflow in addition")

/-- `-` of `checked_uint128_t`. -/
def sub (x y : ℕ) : Run ℕ := if y ≤ x then .ok (x - y) else .error .rangeError

/-- `*` of `checked_uint128_t`. -/
def mul (x y : ℕ) : Run ℕ :=
  if x * y < 2 ^ 128 then .ok (x * y) else .error (.runtimeError "overflow in multiplication")

theorem add_ok {x y : ℕ} (hx : x ≤ p) (hy : y ≤ p) : add x y = .ok (x + y) := by
  have hp := p_lt_two_pow
  exact if_pos (by omega)

theorem sub_ok {x y : ℕ} (h : y ≤ x) : sub x y = .ok (x - y) := if_pos h

theorem mul_ok {x y : ℕ} (hx : x ≤ p) (hy : y ≤ p) : mul x y = .ok (x * y) := by
  refine if_pos ((Nat.mul_le_mul hx hy).trans_lt ?_)
  norm_num [p]

/-! ### Operators -/

/-- `operator*=`; `modpow` multiplies in the same way. -/
def times (value obj : ℕ) : Run ℕ := do
  let value ← mul value obj
  return value % p

/-- `if (b & 1) ret = ret * a % p`. -/
def accumulate (ret a b : ℕ) : Run ℕ := if b % 2 = 1 then times ret a else .ok ret

/-- The loop of `modpow`; `b` has at most `fuel` bits. -/
def modpowLoop : ℕ → ℕ → ℕ → ℕ → Run ℕ
  | 0, ret, _, _ => .ok ret
  | fuel + 1, ret, a, b =>
    if b = 0 then .ok ret
    else do
      let ret ← accumulate ret a b
      let a ← times a a
      modpowLoop fuel ret a (b / 2)

/-- `modpow(a, b)`. -/
def modpow (a b : ℕ) : Run ℕ := modpowLoop 128 1 a b

/-- `operator+=`. -/
def plus (value obj : ℕ) : Run ℕ := do
  let value ← add value obj
  return value % p

/-- `operator-=`. -/
def minus (value obj : ℕ) : Run ℕ := do
  let complement ← sub p obj
  let value ← add value complement
  return value % p

/-- `getInv`, through the constructor. -/
def getInv (value : ℕ) : Run ℕ := do
  let b ← sub p 2
  let inv ← modpow value b
  let ret ← construct inv
  return ret.value

/-- `operator/=`. -/
def divide (value obj : ℕ) : Run ℕ := do
  let tmp ← getInv obj
  times value tmp

/-- Unary minus. -/
def neg (value : ℕ) : Run ℕ := sub p value

theorem times_ok {x y : ℕ} (hx : x ≤ p) (hy : y ≤ p) : times x y = .ok (x * y % p) :=
  Except.bind_ok (mul_ok hx hy) _

theorem mod_p_le (k : ℕ) : k % p ≤ p := (Nat.mod_lt k p_pos).le

theorem modpowLoop_eq : ∀ (fuel : ℕ) {ret a : ℕ} (b : ℕ), ret ≤ p → a ≤ p →
    modpowLoop fuel ret a b = .ok (PowMod.loop p fuel ret a b) := by
  intro fuel
  induction fuel with
  | zero => exact fun _ _ _ => rfl
  | succ fuel ih =>
      intro ret a b hret ha
      have haccumulate : accumulate ret a b = .ok (if b % 2 = 1 then ret * a % p else ret) := by
        rw [accumulate, times_ok hret ha]
        split <;> rfl
      have hle : (if b % 2 = 1 then ret * a % p else ret) ≤ p := by
        split
        · exact mod_p_le _
        · exact hret
      rw [modpowLoop, PowMod.loop]
      split
      · rfl
      · rw [Except.bind_ok haccumulate, Except.bind_ok (times_ok ha ha), ih _ hle (mod_p_le _)]

theorem modpow_ok {a : ℕ} (ha : a ≤ p) (b : ℕ) :
    modpow a b = .ok (PrimeField.modpow a b) :=
  modpowLoop_eq 128 b p_pos ha

section Operators

variable (x y : PrimeField)

theorem plus_eq : plus x.value y.value = .ok (x + y).value :=
  Except.bind_ok (add_ok x.le_p y.le_p) _

theorem minus_eq : minus x.value y.value = .ok (x - y).value := by
  rw [minus, Except.bind_ok (sub_ok y.le_p), Except.bind_ok (add_ok x.le_p (Nat.sub_le _ _))]
  rfl

theorem times_eq : times x.value y.value = .ok (x * y).value := times_ok x.le_p y.le_p

theorem getInv_eq : getInv x.value = .ok x.getInv.value := by
  have hle : PrimeField.modpow x.value (p - 2) ≤ p := by
    rw [modpow_eq (by norm_num [p])]
    exact mod_p_le _
  rw [getInv, Except.bind_ok (sub_ok (by norm_num [p])), Except.bind_ok (modpow_ok x.le_p _),
    Except.bind_ok (construct_natCast hle)]
  rfl

theorem divide_eq : divide x.value y.value = .ok (x / y).value := by
  rw [divide, Except.bind_ok (getInv_eq y), times_ok x.le_p y.getInv.le_p]
  rfl

theorem neg_eq : neg x.value = .ok (-x).value := sub_ok x.le_p

end Operators

/-! ### Computations -/

/-- A value built by the constructors and the operators. -/
inductive Expr
  | construct (obj : ℤ) (h : 0 ≤ obj ∧ obj ≤ p)
  | plus (x y : Expr)
  | minus (x y : Expr)
  | times (x y : Expr)
  | divide (x y : Expr)
  | neg (x : Expr)
  | getInv (x : Expr)

namespace Expr

/-- The stored integer. -/
def eval : Expr → Run ℕ
  | construct obj _ => (PrimeField.construct obj).map PrimeField.value
  | plus x y => do Checked.plus (← x.eval) (← y.eval)
  | minus x y => do Checked.minus (← x.eval) (← y.eval)
  | times x y => do Checked.times (← x.eval) (← y.eval)
  | divide x y => do Checked.divide (← x.eval) (← y.eval)
  | neg x => do Checked.neg (← x.eval)
  | getInv x => do Checked.getInv (← x.eval)

/-- The value in the field. -/
def denote : Expr → ZMod p
  | construct obj _ => obj
  | plus x y => x.denote + y.denote
  | minus x y => x.denote - y.denote
  | times x y => x.denote * y.denote
  | divide x y => x.denote / y.denote
  | neg x => -x.denote
  | getInv x => x.denote⁻¹

/-- The value of the unchecked operators. -/
def stored : Expr → PrimeField
  | construct obj _ => ofNat obj.toNat
  | plus x y => x.stored + y.stored
  | minus x y => x.stored - y.stored
  | times x y => x.stored * y.stored
  | divide x y => x.stored / y.stored
  | neg x => -x.stored
  | getInv x => x.stored.getInv

/-- All values of a computation. -/
def values : Expr → List Expr
  | construct obj h => [construct obj h]
  | plus x y => plus x y :: (x.values ++ y.values)
  | minus x y => minus x y :: (x.values ++ y.values)
  | times x y => times x y :: (x.values ++ y.values)
  | divide x y => divide x y :: (x.values ++ y.values)
  | neg x => neg x :: x.values
  | getInv x => getInv x :: x.values

/-- No check fails, and nothing else is computed than without them. -/
theorem eval_eq (e : Expr) : e.eval = .ok e.stored.value := by
  induction e with
  | construct obj h =>
      have hguard : ¬(obj < 0 ∨ obj > p) := by omega
      rw [eval, PrimeField.construct, if_neg hguard]
      rfl
  | plus x y ihx ihy => rw [eval, Except.bind_ok ihx, Except.bind_ok ihy, plus_eq, stored]
  | minus x y ihx ihy => rw [eval, Except.bind_ok ihx, Except.bind_ok ihy, minus_eq, stored]
  | times x y ihx ihy => rw [eval, Except.bind_ok ihx, Except.bind_ok ihy, times_eq, stored]
  | divide x y ihx ihy => rw [eval, Except.bind_ok ihx, Except.bind_ok ihy, divide_eq, stored]
  | neg x ih => rw [eval, Except.bind_ok ih, neg_eq, stored]
  | getInv x ih => rw [eval, Except.bind_ok ih, getInv_eq, stored]

/-- Every operator is that of the field. -/
theorem toZMod_stored (e : Expr) : toZMod e.stored = e.denote := by
  induction e with
  | construct obj h =>
      rw [stored, toZMod_ofNat, denote, ← Int.cast_natCast, Int.toNat_of_nonneg h.1]
  | _ => simp_all [stored, denote]

theorem self_mem_values (e : Expr) : e ∈ e.values := by
  cases e <;> simp [values]

/-- The values of a value are values of the computation. -/
theorem values_subset {x e : Expr} (h : x ∈ e.values) : ∀ y ∈ x.values, y ∈ e.values := by
  induction e with
  | construct obj h' =>
      obtain rfl := List.mem_singleton.mp h
      exact fun y hy => hy
  | plus a b iha ihb | minus a b iha ihb | times a b iha ihb | divide a b iha ihb =>
      intro y hy
      rcases List.mem_cons.mp h with rfl | h
      · exact hy
      · refine List.mem_cons_of_mem _ (List.mem_append.mpr ?_)
        rcases List.mem_append.mp h with h | h
        · exact .inl (iha h y hy)
        · exact .inr (ihb h y hy)
  | neg a ih | getInv a ih =>
      intro y hy
      rcases List.mem_cons.mp h with rfl | h
      · exact hy
      · exact List.mem_cons_of_mem _ (ih h y hy)

/-- Every value is stored in `[0, p)` and is the one of the field, without an overflow, and
`operator==` is congruence. -/
def Keeps (e : Expr) : Prop :=
  (∀ x ∈ e.values, ∃ value, x.eval = .ok value ∧ value < p ∧ (value : ZMod p) = x.denote)
    ∧ ∀ x ∈ e.values, ∀ y ∈ e.values, x.eval = y.eval ↔ x.denote = y.denote

/-- No `0` is negated. -/
def NoNegZero (e : Expr) : Prop := ∀ x, neg x ∈ e.values → x.denote ≠ 0

theorem stored_lt {e : Expr} (h : ∀ x, e = neg x → x.denote ≠ 0) : e.stored.value < p := by
  cases e with
  | neg x =>
      have hne := h x rfl
      rw [← toZMod_stored] at hne
      have hpos : x.stored.value ≠ 0 := by
        intro hzero
        exact hne (by rw [toZMod, hzero, Nat.cast_zero])
      have hp := p_pos
      rw [stored, neg_value]
      omega
  | _ => exact Nat.mod_lt _ p_pos

/-- Reduced values are equal if and only if they are congruent. -/
theorem eval_eq_eval_iff {x y : Expr} (hx : x.stored.value < p) (hy : y.stored.value < p) :
    x.eval = y.eval ↔ x.denote = y.denote := by
  rw [eval_eq, eval_eq, Except.ok.injEq, ← toZMod_stored, ← toZMod_stored]
  constructor
  · intro h
    rw [toZMod, toZMod, h]
  · intro h
    rw [eq_of_toZMod_eq hx hy h]

/-- **When the representation is kept**: in a computation with the operators, every value is
stored below `p` as the element of the field that it denotes, and `operator==` tells the
elements apart, exactly when no `0` is negated on the way. -/
theorem keeps_iff (e : Expr) : Keeps e ↔ NoNegZero e := by
  constructor
  · intro hkeeps x hneg hzero
    obtain ⟨value, hvalue, hlt, -⟩ := hkeeps.1 x (values_subset hneg x (by simp [values,
      self_mem_values]))
    obtain ⟨value', hvalue', hlt', -⟩ := hkeeps.1 (neg x) hneg
    rw [eval_eq] at hvalue hvalue'
    obtain rfl := Except.ok.inj hvalue
    obtain rfl := Except.ok.inj hvalue'
    -- the operand is stored as `0`, its negation as `p`
    have hval := value_eq_val hlt
    rw [toZMod_stored, hzero, ZMod.val_zero] at hval
    rw [stored, neg_value, hval] at hlt'
    exact Nat.lt_irrefl _ hlt'
  · intro hnoNegZero
    have hlt : ∀ x ∈ e.values, x.stored.value < p := by
      intro x hx
      refine stored_lt fun y hy => hnoNegZero y ?_
      rwa [← hy]
    refine ⟨fun x hx => ⟨_, eval_eq x, hlt x hx, toZMod_stored x⟩, fun x hx y hy => ?_⟩
    exact eval_eq_eval_iff (hlt x hx) (hlt y hy)

def zero : Expr := construct 0 (by norm_num [p])

/-- `-0` is stored as `p`, and is not equal to `0 - 0`. -/
theorem neg_zero_not_reduced :
    (neg zero).eval = .ok p ∧ (minus zero zero).eval = .ok 0
      ∧ (neg zero).denote = (minus zero zero).denote ∧ ¬Keeps (neg zero) := by
  have hneg : (neg zero).eval = .ok p := rfl
  refine ⟨hneg, rfl, by simp [denote, zero], fun h => ?_⟩
  obtain ⟨value, hvalue, hlt, -⟩ := h.1 (neg zero) (self_mem_values _)
  obtain rfl := Except.ok.inj (hvalue.symm.trans hneg)
  exact Nat.lt_irrefl _ hlt

end Expr

end QuickMpc.PrimeField.Checked
