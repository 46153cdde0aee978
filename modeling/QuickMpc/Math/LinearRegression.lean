import QuickMpc.Gbdt.TrainingSet
import QuickMpc.Lib.NormalEquations
import QuickMpc.Math.ColumnJobs
import QuickMpc.Matrix

/-!
# QuickMpc.Math.LinearRegression

Linear regression by the normal equations. The matrix `Xᵀ * X` is inverted behind a blinding
factor: a random matrix `R` is multiplied to it, the product is opened, every party inverts
what it has opened, and the result is shared and multiplied to `R`.

The inversion in the clear is Eigen's, on fixed-point numbers. It divides by pivots, and throws
where one of them is zero; as all parties invert the same matrix, they all end there. Otherwise
nothing is assumed of it: what its result is off enters the error of the regression.

A column outside the table and an empty list of targets are read where there is nothing, which
C++ leaves undefined; `outOfRange` stands for it.
-/

namespace QuickMpc

open Share (toRat ulp recons sharize)

variable {n : ℕ}

namespace ShareMatrix

variable {h w k d : ℕ}

/-! ### The code -/

def transpose (mat : ShareMatrix n h w) : ShareMatrix n w h := fun i j => mat j i

def open_and_recons (mat : ShareMatrix n h w) (i : Fin h) (j : Fin w) : FixedPoint :=
  recons (mat i j)

/-- What is drawn for an inversion, and how it is done in the clear. -/
structure Inverter (n : ℕ) where
  R : ∀ d, ShareMatrix n d d
  /-- What `sharize` draws. -/
  rnd : ∀ d, Fin d → Fin d → Fin n → FixedPoint
  /-- Eigen's `inverse`; without a result where it divides by zero. -/
  inverse : ∀ d, (Fin d → Fin d → FixedPoint) → Option (Fin d → Fin d → FixedPoint)

section Code

variable [Config n] (t : ℕ → BtsTriple n)

/-- `Matrix::sharize_mat`. -/
def sharize_mat (mat : Fin d → Fin d → FixedPoint) (rnd : Fin d → Fin d → Fin n → FixedPoint) :
    ShareMatrix n d d :=
  fun i j => sharize (mat i j) (rnd i j)

/-- `operator*`, with the next triples. -/
def mulNext (A : ShareMatrix n h w) (B : ShareMatrix n w k) : Supply (ShareMatrix n h k) := do
  let ret ← Supply.take (h * (k * w)) fun it => mul (fun q => (t (it + q)).convertStr2Triple) A B
  match ret with
  | .ok C => return C
  | .error _ => failure

/-- `inverse`. -/
def inverse (inv : Inverter n) (mat : ShareMatrix n d d) : Supply (ShareMatrix n d d) := do
  let R := inv.R d
  let U_s ← mulNext t R mat
  let U_inv ← Supply.ofOption (inv.inverse d (open_and_recons U_s))
  let U_inv_s := sharize_mat U_inv (inv.rnd d)
  mulNext t U_inv_s R

end Code

/-! ### Products of matrices -/

/-- The numbers of a matrix of shares. -/
def toMatrix (A : ShareMatrix n h w) : Matrix (Fin h) (Fin w) ℚ := fun i j => toRat (A i j)

open NormalEquations (Within)

theorem mulNext_returns [Config n] (t : ℕ → BtsTriple n) (A : ShareMatrix n h w)
    (B : ShareMatrix n w k) :
    Supply.Returns (mulNext t A B) fun C =>
      Within (w * ulp) (toMatrix C - toMatrix A * toMatrix B) := by
  refine .bind (P := fun ret => ∃ C, ret = .ok C ∧
    Within (w * ulp) (toMatrix C - toMatrix A * toMatrix B)) (.take fun it => ?_) fun ret hret => ?_
  · obtain ⟨C, hok, hentries⟩ := exists_mul_entry (fun q => t (it + q)) A B
    refine ⟨C, hok, fun i j => ?_⟩
    obtain ⟨u, hu⟩ := hentries i j
    have hsum : toRat (C i j)
        = ∑ x, toRat (Share.mul (u x).convertStr2Triple (A i x) (B x j)) := by
      rw [Share.toRat_eq, hu, Int.cast_sum, Finset.sum_mul]
      exact Finset.sum_congr rfl fun x _ => (Share.toRat_eq _).symm
    have herror := RoundedSum.abs_sum_sub_sum_le (s := Finset.univ) fun x _ =>
      (Share.abs_toRat_mul_sub_lt (u x) (A i x) (B x j)).le
    rw [Finset.sum_const, Finset.card_univ, Fintype.card_fin, nsmul_eq_mul, ← hsum] at herror
    rw [Matrix.sub_apply, Matrix.mul_apply]
    exact herror
  · obtain ⟨C, rfl, hC⟩ := hret
    exact .pure hC

/-- What is opened of `R * M`, and its inverse if there is one. -/
def Opens (inv : Inverter n) (M : Matrix (Fin d) (Fin d) ℚ) (U : Fin d → Fin d → FixedPoint)
    (V : Option (Fin d → Fin d → FixedPoint)) : Prop :=
  Within (d * ulp) (Matrix.of (fun i j => (U i j).getDoubleVal) - toMatrix (inv.R d) * M) ∧
    inv.inverse d U = V

/-- `R * mat` is opened, and the product of its inverse with `R` is returned. -/
theorem inverse_returnsOr [Config n] (t : ℕ → BtsTriple n) (inv : Inverter n)
    (mat : ShareMatrix n d d) :
    Supply.ReturnsOr (inverse t inv mat)
      (fun B => ∃ U V : Fin d → Fin d → FixedPoint, Opens inv (toMatrix mat) U (some V) ∧
        Within (d * ulp) (toMatrix B
          - Matrix.of (fun i j => (V i j).getDoubleVal) * toMatrix (inv.R d)))
      (∃ U : Fin d → Fin d → FixedPoint, Opens inv (toMatrix mat) U none) := by
  refine (mulNext_returns t (inv.R d) mat).bind_returnsOr fun U_s hU => ?_
  refine .bind ((Supply.Computes.ofOption _).returnsOr.mono (fun _ => id)
    fun hnone => ⟨_, hU, hnone⟩) fun U_inv hinv => ?_
  obtain ⟨V, hV, rfl⟩ := hinv
  refine ((mulNext_returns t _ (inv.R d)).mono fun B hB => ⟨_, U_inv, ⟨hU, hV⟩, ?_⟩).returnsOr _
  have hshared : toMatrix (sharize_mat U_inv (inv.rnd d))
      = Matrix.of fun i j => (U_inv i j).getDoubleVal := by
    ext i j
    exact Share.toRat_sharize _ _
  rwa [hshared] at hB

end ShareMatrix

namespace Job

open ShareMatrix
open ValueTable (Access access)
open NormalEquations (Within inverseGap)

/-! ### The input of a regression -/

/-- The columns of the explanatory variables and of the first target. -/
def parse_table (table : List (List (Share n FixedPoint))) (src target : List ℤ) :
    Access (List (Fin table.length → Share n FixedPoint) × (Fin table.length → Share n FixedPoint)) := do
  let _ ← access table 0
  let cols ← src.mapM (getColumn table)
  let j ← access target 0
  let y ← getColumn table j
  return (cols, y)

/-- The constant share `1` in front of the columns of a row. -/
def designRow [Config n] {N : ℕ} (cols : List (Fin N → Share n FixedPoint)) :
    ShareMatrix n N (cols.length + 1) :=
  fun it => Fin.cons (Gbdt.getConstantShare (FixedPoint.ofInt 1)) fun j => cols.get j it

section Input

variable {table : List (List (Share n FixedPoint))} {width : ℕ}

theorem parse_table_ok (h : IsTable table width) {src : List ℤ} (hsrc : Inside width src) {j : ℤ}
    (hj : 1 ≤ j ∧ j ≤ width) (target : List ℤ) :
    parse_table table src (j :: target) = .ok (src.map (columnAt table), columnAt table j) := by
  obtain ⟨row, hrow⟩ := access_first h
  rw [parse_table, Except.bind_ok hrow, Except.bind_ok (mapM_getColumn_ok h hsrc)]
  exact Except.bind_ok (getColumn_eq_ok h hj) _

/-- A request for a column outside the table, or for no target. -/
theorem parse_table_error (h : IsTable table width) {src target : List ℤ}
    (houtside : ¬(Inside width src ∧ ∃ j ∈ target.head?, 1 ≤ j ∧ j ≤ width)) :
    parse_table table src target = .error .outOfRange := by
  obtain ⟨row, hrow⟩ := access_first h
  rw [parse_table, Except.bind_ok hrow]
  by_cases hsrc : Inside width src
  · rw [Except.bind_ok (mapM_getColumn_ok h hsrc)]
    cases target with
    | nil => rfl
    | cons j target =>
        have hj : ¬(1 ≤ j ∧ j ≤ width) := fun hj => houtside ⟨hsrc, j, rfl, hj⟩
        exact Except.bind_error (getColumn_eq_error h hj) _
  · rw [Except.bind_error (mapM_getColumn_error h hsrc)]

end Input

/-! ### `LinearRegressionJob` -/

section Code

variable [Config n] (t : ℕ → BtsTriple n)

/-- `w` of `compute`. -/
def regression (inv : Inverter n) {N d : ℕ} (mat_x : ShareMatrix n N d) (mat_y : ShareMatrix n N 1) :
    Supply (ShareMatrix n d 1) := do
  let mat_x_trans := transpose mat_x
  let mat_mul ← mulNext t mat_x_trans mat_x
  let mat_mul_inv ← inverse t inv mat_mul
  let w ← mulNext t mat_mul_inv mat_x_trans
  mulNext t w mat_y

/-- `LinearRegressionJob::compute`. -/
def LinearRegressionJob.compute (inv : Inverter n) (table : List (List (Share n FixedPoint)))
    (src target : List ℤ) : Access (Supply (List (Share n FixedPoint))) := do
  let (cols, y) ← parse_table table src target
  return do
    let w ← regression t inv (designRow cols) fun it _ => y it
    return List.ofFn fun j => w j 0

end Code

/-! ### The regression -/

/-- `w` is the solution of the normal equations, up to the error of the inversion and of the
products: the result `V` of inverting the opened matrix `U` may be anything. -/
def IsRegression (inv : Inverter n) {N d : ℕ} (X : Matrix (Fin N) (Fin d) ℚ)
    (y : Matrix (Fin N) (Fin 1) ℚ) (w : Fin d → ℚ) : Prop :=
  ∃ (U V : Fin d → Fin d → FixedPoint) (M B : Matrix (Fin d) (Fin d) ℚ),
    let Uval := Matrix.of fun i j => (U i j).getDoubleVal
    let Vval := Matrix.of fun i j => (V i j).getDoubleVal
    Within (N * ulp) (M - X.transpose * X) ∧ Opens inv M U (some V) ∧
    Within (d * ulp) (B - Vval * toMatrix (inv.R d)) ∧
    ∀ x : Matrix (Fin d) (Fin 1) ℚ, X.transpose * X * x = X.transpose * y → ∀ i,
      |w i - x i 0| ≤ ∑ k, (inverseGap Vval Uval M (d * ulp) (d * ulp) i k
          + N * ulp * ∑ l, |B i l|) * |x k 0| + d * ulp * ∑ k, |y k 0| + N * ulp

/-- What is opened for the inversion has no inverse. -/
def NoInverse (inv : Inverter n) {N d : ℕ} (X : Matrix (Fin N) (Fin d) ℚ) : Prop :=
  ∃ (U : Fin d → Fin d → FixedPoint) (M : Matrix (Fin d) (Fin d) ℚ),
    Within (N * ulp) (M - X.transpose * X) ∧ Opens inv M U none

theorem regression_returnsOr [Config n] (t : ℕ → BtsTriple n) (inv : Inverter n) {N d : ℕ}
    (mat_x : ShareMatrix n N d) (mat_y : ShareMatrix n N 1) :
    Supply.ReturnsOr (regression t inv mat_x mat_y)
      (fun w => IsRegression inv (toMatrix mat_x) (toMatrix mat_y) fun i => toRat (w i 0))
      (NoInverse inv (toMatrix mat_x)) := by
  refine (mulNext_returns t (transpose mat_x) mat_x).bind_returnsOr fun mat_mul hM => ?_
  have hinverse := (inverse_returnsOr t inv mat_mul).mono (fun _ => id) fun hU =>
    show NoInverse inv (toMatrix mat_x) from hU.imp fun U hU => ⟨toMatrix mat_mul, hM, hU⟩
  refine hinverse.bind_returns fun mat_mul_inv hB => ?_
  refine (mulNext_returns t mat_mul_inv (transpose mat_x)).bind fun P hP => ?_
  refine (mulNext_returns t P mat_y).mono fun w hw => ?_
  obtain ⟨U, V, hU, hB⟩ := hB
  refine ⟨U, V, toMatrix mat_mul, toMatrix mat_mul_inv, hM, hU, hB, fun x hx i => ?_⟩
  exact NormalEquations.abs_solution_sub_le hx hM hU.1 hB hP hw i 0

/-- The columns of the request are in the table. -/
theorem linearRegressionJob_returnsOr [Config n] (t : ℕ → BtsTriple n) (inv : Inverter n)
    {table : List (List (Share n FixedPoint))} {width : ℕ} (h : IsTable table width) {src : List ℤ}
    (hsrc : Inside width src) {j : ℤ} (hj : 1 ≤ j ∧ j ≤ width) (target : List ℤ) :
    ∃ ret, LinearRegressionJob.compute t inv table src (j :: target) = .ok ret ∧
      Supply.ReturnsOr ret (fun w => ∃ w', w = List.ofFn w' ∧
        IsRegression inv (toMatrix (designRow (src.map (columnAt table))))
          (toMatrix fun it _ => columnAt table j it) fun i => toRat (w' i))
        (NoInverse inv (toMatrix (designRow (src.map (columnAt table))))) := by
  refine ⟨_, Except.bind_ok (parse_table_ok h hsrc hj target) _, ?_⟩
  exact (regression_returnsOr t inv _ fun it _ => columnAt table j it).bind_returns fun w hw =>
    .pure ⟨_, rfl, hw⟩

/-- **`LinearRegressionJob`** solves the normal equations of the columns that it is asked
for, up to the error of the inversion and of the products. Where the matrix that it opens has
no inverse, it ends without a result. A request for a column that the table does not have, or
for no target, reads where there is nothing. -/
theorem linearRegressionJob_correct [Config n] (t : ℕ → BtsTriple n) (inv : Inverter n)
    {table : List (List (Share n FixedPoint))} {width : ℕ} (h : IsTable table width)
    (src target : List ℤ) :
    (¬(Inside width src ∧ ∃ j ∈ target.head?, 1 ≤ j ∧ j ≤ width) →
      LinearRegressionJob.compute t inv table src target = .error .outOfRange) ∧
    ∀ j ∈ target.head?, Inside width src → 1 ≤ j ∧ j ≤ width →
      ∃ ret, LinearRegressionJob.compute t inv table src target = .ok ret ∧
        Supply.ReturnsOr ret (fun w => ∃ w', w = List.ofFn w' ∧
          IsRegression inv (toMatrix (designRow (src.map (columnAt table))))
            (toMatrix fun it _ => columnAt table j it) fun i => toRat (w' i))
          (NoInverse inv (toMatrix (designRow (src.map (columnAt table))))) := by
  constructor
  · intro houtside
    exact Except.bind_error (parse_table_error h houtside) _
  · intro j hj hsrc hin
    obtain ⟨target, rfl⟩ := List.head?_eq_some_iff.mp hj
    exact linearRegressionJob_returnsOr t inv h hsrc hin target

/-- The inverse of two rows, by elimination with the larger one in front. -/
def inverseOfTwo [Multiprecision] (U : Fin 2 → Fin 2 → FixedPoint) :
    Option (Fin 2 → Fin 2 → FixedPoint) :=
  let i₀ : Fin 2 := ⟨0, by omega⟩
  let i₁ : Fin 2 := ⟨1, by omega⟩
  let p := if (U i₀ i₀).value.natAbs < (U i₁ i₀).value.natAbs then i₁ else i₀
  let l := U p.rev i₀ / U p i₀
  let u := U p.rev i₁ - l * U p i₁
  if U p i₀ = 0 ∨ u = 0 then none
  else some fun i j =>
    let y₀ := FixedPoint.ofInt (if j = p then 1 else 0)
    let y₁ := FixedPoint.ofInt (if j = p.rev then 1 else 0) - y₀ * l
    let x₁ := y₁ * (FixedPoint.ofInt 1 / u)
    if i = i₁ then x₁ else (y₀ - x₁ * U p i₁) * (FixedPoint.ofInt 1 / U p i₀)

/-- For a constant and one column. -/
def exampleInverter [Multiprecision] : Inverter 3 where
  R := fun _ i j => ⟨fun _ => FixedPoint.ofInt (if i = j then 1 else 0)⟩
  rnd := fun _ _ _ i => FixedPoint.ofInt i.val
  inverse
    | 2, U => inverseOfTwo U
    | _, _ => none

theorem linearRegressionJob_correct_three :
    letI := threeParties
    letI := Multiprecision.plain
    ∃ ret, LinearRegressionJob.compute exampleTriples exampleInverter exampleTable [2] [1] = .ok ret ∧
      Supply.ReturnsOr ret (fun w => ∃ w', w = List.ofFn w' ∧
        IsRegression exampleInverter (toMatrix (designRow ([2].map (columnAt exampleTable))))
          (toMatrix fun it _ => columnAt exampleTable 1 it) fun i => toRat (w' i))
        (NoInverse exampleInverter (toMatrix (designRow ([2].map (columnAt exampleTable))))) :=
  letI := threeParties
  letI := Multiprecision.plain
  (linearRegressionJob_correct exampleTriples exampleInverter exampleTable_isTable [2] [1]).2 1
    rfl (by decide) (by decide)

end Job

end QuickMpc
