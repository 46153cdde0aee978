import QuickMpc.LessThanZero

/-!
# QuickMpc.ShareOrder

The comparison operators between a share and a public `FixedPoint`.

The program defines `<` and `==` only; the other operators come from Boost:
`less_than_comparable<Share, SV>` derives them from `<` and `>` with the share on
the left. That `>` is not defined by the program, so `x > c` converts `c` through
the constructor `Share(const SV &)` and resolves to `Share(c) < x` of
`less_than_comparable<Share>`. The converted constant is stored by *every* party
and therefore reconstructs to `n * c`, while `x < c` subtracts `c` once.

The two operators `<` of the program are parameters of this module (`less` and
`lessValue`), assumed to decide the order of the reconstructed values;
`LessThanZero` is where the first of them is analysed.
-/

namespace QuickMpc.Share

open FixedPoint (ofInt)

variable {n : ℕ}

/-- The six comparison operators. -/
inductive Comparison
  | eq
  | ne
  | lt
  | gt
  | le
  | ge
  deriving DecidableEq, Repr

/-- The plain comparison of two stored values, in their exact order. -/
def Comparison.holds : Comparison → FixedPoint → FixedPoint → Bool
  | .eq, a, b => decide (a.value = b.value)
  | .ne, a, b => !decide (a.value = b.value)
  | .lt, a, b => decide (a < b)
  | .gt, a, b => decide (b < a)
  | .le, a, b => !decide (b < a)
  | .ge, a, b => !decide (a < b)

/-- `!` on a fallible result. -/
def negate (r : Run Bool) : Run Bool := r.map fun b => !b

section Operators

variable (less : Share n FixedPoint → Share n FixedPoint → Run Bool)
  (lessValue : Share n FixedPoint → FixedPoint → Run Bool)

/-- `x > c`: `c` is converted to a share, and the order of shares is asked. -/
def greaterValue (x : Share n FixedPoint) (c : FixedPoint) : Run Bool := less (ofValue c) x

/-- `operator==(const Share<FixedPoint> &, const FixedPoint &)`: neither
`left < right` nor `right < left`, decided with the thresholds of `operator<`. -/
def equalsValue (left : Share n FixedPoint) (right : FixedPoint) : Run Bool := do
  let x_ret ← lessValue left right
  let y_ret ← greaterValue less left right
  decideOpened ((ofInt 1 - ofInt x_ret.toNat) * (ofInt 1 - ofInt y_ret.toNat))

/-- The operators with the share on the left. -/
def compareShareValue : Comparison → Share n FixedPoint → FixedPoint → Run Bool
  | .eq, x, c => equalsValue less lessValue x c
  | .ne, x, c => negate (equalsValue less lessValue x c)
  | .lt, x, c => lessValue x c
  | .gt, x, c => greaterValue less x c
  | .le, x, c => negate (greaterValue less x c)
  | .ge, x, c => negate (lessValue x c)

/-- The operators with the share on the right. -/
def compareValueShare : Comparison → FixedPoint → Share n FixedPoint → Run Bool
  | .eq, c, x => equalsValue less lessValue x c
  | .ne, c, x => negate (equalsValue less lessValue x c)
  | .lt, c, x => greaterValue less x c
  | .gt, c, x => lessValue x c
  | .le, c, x => negate (lessValue x c)
  | .ge, c, x => negate (greaterValue less x c)

end Operators

/-! ### What the operators return -/

/-- A constant converted to a share is held by every party. -/
theorem recons_ofValue (c : FixedPoint) :
    (recons (ofValue c : Share n FixedPoint)).value = n * c.value := by
  rw [recons_value_fixedPoint, secret_ofValue, denote_eq_value, nsmul_eq_mul]

/-- The product of two complemented flags is decided as their conjunction. -/
theorem decideOpened_flags (b b' : Bool) :
    decideOpened ((ofInt 1 - ofInt b.toNat) * (ofInt 1 - ofInt b'.toNat)) = .ok (!b && !b') := by
  have hval : ∀ b b' : Bool, ((ofInt 1 - ofInt b.toNat) * (ofInt 1 - ofInt b'.toNat)).getDoubleVal
      = if !b && !b' then 1 else 0 := by
    decide +kernel
  refine decideOpened_of_close ?_
  rw [hval, sub_self, abs_zero]
  norm_num

section Exact

variable {less : Share n FixedPoint → Share n FixedPoint → Run Bool}
  {lessValue : Share n FixedPoint → FixedPoint → Run Bool}
  (hless : ∀ x y, less x y = .ok (decide (recons x < recons y)))
  (hlessValue : ∀ x c, lessValue x c = .ok (decide (recons x < c)))

include hless in
theorem greaterValue_eq (x : Share n FixedPoint) (c : FixedPoint) :
    greaterValue less x c = .ok (decide (n * c.value < (recons x).value)) := by
  rw [greaterValue, hless]
  simp only [FixedPoint.lt_iff, recons_ofValue]

include hless hlessValue in
theorem equalsValue_eq (x : Share n FixedPoint) (c : FixedPoint) :
    equalsValue less lessValue x c
      = .ok (!decide (recons x < c) && !decide (n * c.value < (recons x).value)) := by
  simp only [equalsValue, hlessValue, greaterValue_eq hless, bind, Except.bind]
  exact decideOpened_flags _ _

include hless hlessValue in
/-- **When the operators agree with the reconstructed value.** All of them do
exactly when multiplying the constant by the number of parties does not move it
across the secret. -/
theorem comparisons_correct_iff (x : Share n FixedPoint) (c : FixedPoint) :
    (∀ op : Comparison,
      compareShareValue less lessValue op x c = .ok (op.holds (recons x) c) ∧
        compareValueShare less lessValue op c x = .ok (op.holds c (recons x))) ↔
      (n * c.value < (recons x).value ↔ c.value < (recons x).value) := by
  constructor
  · intro h
    -- `x > c` alone forces the condition
    have hgt : greaterValue less x c = .ok (decide (c < recons x)) := (h .gt).1
    rw [greaterValue_eq hless, Except.ok.injEq, decide_eq_decide] at hgt
    exact hgt
  · intro h op
    have hgt : greaterValue less x c = .ok (decide (c < recons x)) := by
      rw [greaterValue_eq hless]
      simp only [h, FixedPoint.lt_iff]
    have heq : equalsValue less lessValue x c = .ok (decide ((recons x).value = c.value)) := by
      rw [equalsValue_eq hless hlessValue, Except.ok.injEq, Bool.eq_iff_iff]
      simp only [h, FixedPoint.lt_iff, Bool.and_eq_true, Bool.not_eq_true', decide_eq_false_iff_not,
        decide_eq_true_iff]
      omega
    have hcomm : decide (c.value = (recons x).value) = decide ((recons x).value = c.value) := by
      rw [decide_eq_decide]
      exact eq_comm
    cases op with
    | eq => exact ⟨heq, heq.trans (congrArg Except.ok hcomm.symm)⟩
    | ne =>
        constructor
        · rw [compareShareValue, heq]
          rfl
        · rw [compareValueShare, heq, ← hcomm]
          rfl
    | lt => exact ⟨hlessValue x c, hgt⟩
    | gt => exact ⟨hgt, hlessValue x c⟩
    | le =>
        constructor
        · rw [compareShareValue, hgt]
          rfl
        · rw [compareValueShare, hlessValue]
          rfl
    | ge =>
        constructor
        · rw [compareShareValue, hlessValue]
          rfl
        · rw [compareValueShare, hgt]
          rfl

end Exact

/-- Three parties share `-1`; every operator is right about the constant `0`. -/
theorem comparisons_correct_iff_three :
    (∀ op : Comparison,
      compareShareValue (fun x y => .ok (decide (recons x < recons y)))
          (fun x c => .ok (decide (recons x < c))) op
          (⟨![⟨100⟩, ⟨-300⟩, ⟨199⟩]⟩ : Share 3 FixedPoint) 0
        = .ok (op.holds (recons (⟨![⟨100⟩, ⟨-300⟩, ⟨199⟩]⟩ : Share 3 FixedPoint)) 0) ∧
      compareValueShare (fun x y => .ok (decide (recons x < recons y)))
          (fun x c => .ok (decide (recons x < c))) op 0
          (⟨![⟨100⟩, ⟨-300⟩, ⟨199⟩]⟩ : Share 3 FixedPoint)
        = .ok (op.holds 0 (recons (⟨![⟨100⟩, ⟨-300⟩, ⟨199⟩]⟩ : Share 3 FixedPoint)))) ↔
      ((3 : ℕ) * (0 : FixedPoint).value
          < (recons (⟨![⟨100⟩, ⟨-300⟩, ⟨199⟩]⟩ : Share 3 FixedPoint)).value ↔
        (0 : FixedPoint).value
          < (recons (⟨![⟨100⟩, ⟨-300⟩, ⟨199⟩]⟩ : Share 3 FixedPoint)).value) :=
  comparisons_correct_iff (fun _ _ => rfl) (fun _ _ => rfl) _ _

/-- Three parties share `2`; `x > 1` and `x == 1` are wrong, since the constant
counts as `3`. -/
theorem comparison_counts_constant_thrice :
    recons (⟨![⟨100000000⟩, ⟨300000000⟩, ⟨-200000000⟩]⟩ : Share 3 FixedPoint) = ofInt 2 ∧
    compareShareValue (fun x y => .ok (decide (recons x < recons y)))
        (fun x c => .ok (decide (recons x < c))) .gt
        (⟨![⟨100000000⟩, ⟨300000000⟩, ⟨-200000000⟩]⟩ : Share 3 FixedPoint) (ofInt 1)
      = .ok false ∧
    compareShareValue (fun x y => .ok (decide (recons x < recons y)))
        (fun x c => .ok (decide (recons x < c))) .eq
        (⟨![⟨100000000⟩, ⟨300000000⟩, ⟨-200000000⟩]⟩ : Share 3 FixedPoint) (ofInt 1)
      = .ok true ∧
    Comparison.gt.holds (ofInt 2) (ofInt 1) = true ∧
    Comparison.eq.holds (ofInt 2) (ofInt 1) = false := by
  decide +kernel

end QuickMpc.Share
