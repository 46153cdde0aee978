import QuickMpc.Math.Statistics
import QuickMpc.ValueTable.ReadDb

/-!
# QuickMpc.Math.ColumnJobs

The jobs that compute on whole columns of the joined table: `MathJob`, which a request
runs with the mean, the variance or the sum, and `CorrelJob`.

A request counts the columns from 1, and nothing checks its numbers: a job accesses what
does not exist exactly when it is asked for a column outside the table. C++ leaves undefined
what it does then, and `outOfRange` stands for it; no exception is thrown. Otherwise the job
returns one result for each column, or for each pair of columns, in the order of the
request and with repeated columns repeated.
-/

namespace QuickMpc.Job

open Math
open Share (toRat ulp)
open ValueTable (Access Fault access run mapM_eq_ok mapM_eq_error)

variable {n : ℕ}

/-! ### The code -/

/-- `table[h][w - 1]` for every row `h`. -/
def getColumn (table : List (List (Share n FixedPoint))) (w : ℤ) :
    Access (Fin table.length → Share n FixedPoint) :=
  if h : ∀ it : Fin table.length, 1 ≤ w ∧ w ≤ (table.get it).length then
    .ok fun it => (table.get it).get ⟨(w - 1).toNat, by have := h it; omega⟩
  else .error .outOfRange

/-- The functions that `JobSelector` runs a `MathJob` with. -/
inductive MathMethod
  | mean
  | variance
  | sum
  deriving DecidableEq, Repr

section Code

variable [Config n] (t : ℕ → BtsTriple n)

/-- `f` of `MathJob`. -/
def MathMethod.f [Multiprecision] {N : ℕ} (method : MathMethod) (v : Fin N → Share n FixedPoint) :
    Supply (Share n FixedPoint) :=
  match method with
  | .mean => return smean v
  | .variance => Math.variance t v
  | .sum => return Gbdt.sum v

/-- `MathJob::compute`; the first row is only read for its width. -/
def MathJob.compute [Multiprecision] (method : MathMethod)
    (table : List (List (Share n FixedPoint))) (src : List ℤ) :
    Access (Supply (List (Share n FixedPoint))) := do
  let _ ← access table 0
  let cols ← src.mapM (getColumn table)
  return cols.mapM (method.f t)

/-- `CorrelJob::compute`. Whether `correl` refuses its columns depends on their sizes only. -/
def CorrelJob.compute [Multiprecision] (table : List (List (Share n FixedPoint)))
    (src target : List ℤ) :
    Access (Supply (List (List (Share n FixedPoint)))) := do
  let _ ← access table 0
  let cols ← src.mapM (getColumn table)
  let targets ← target.mapM (getColumn table)
  let ret ← targets.mapM fun target => cols.mapM fun col => run (correl t col target)
  return ret.mapM fun row => row.mapM id

end Code

/-! ### Columns -/

/-- The rows of the table that `readDb` returns are of one width. -/
structure IsTable (table : List (List (Share n FixedPoint))) (width : ℕ) : Prop where
  ne_nil : table ≠ []
  width : ∀ row ∈ table, row.length = width

/-- The column that a request calls `w`. -/
def columnAt (table : List (List (Share n FixedPoint))) (w : ℤ) (it : Fin table.length) :
    Share n FixedPoint :=
  (table.get it).getD (w - 1).toNat 0

section Columns

variable {table : List (List (Share n FixedPoint))} {width : ℕ}

theorem IsTable.length_pos (h : IsTable table width) : 0 < table.length :=
  List.length_pos_of_ne_nil h.ne_nil

theorem getColumn_eq_ok (h : IsTable table width) {w : ℤ} (hw : 1 ≤ w ∧ w ≤ width) :
    getColumn table w = .ok (columnAt table w) := by
  have hrows : ∀ it : Fin table.length, 1 ≤ w ∧ w ≤ (table.get it).length := by
    intro it
    rwa [h.width _ (List.get_mem table it)]
  rw [getColumn, dif_pos hrows]
  refine congrArg _ (funext fun it => ?_)
  have hlt : (w - 1).toNat < (table.get it).length := by
    have := hrows it
    omega
  rw [columnAt, List.getD_eq_getElem?_getD, List.getElem?_eq_getElem hlt, Option.getD_some,
    List.get_eq_getElem]

theorem getColumn_eq_error (h : IsTable table width) {w : ℤ} (hw : ¬(1 ≤ w ∧ w ≤ width)) :
    getColumn table w = .error .outOfRange := by
  refine dif_neg fun hrows => hw ?_
  have hfirst := hrows ⟨0, h.length_pos⟩
  rwa [h.width _ (List.get_mem table _)] at hfirst

/-- A request for columns of the table only. -/
def Inside (width : ℕ) (src : List ℤ) : Prop := ∀ w ∈ src, 1 ≤ w ∧ w ≤ width

instance (width : ℕ) (src : List ℤ) : Decidable (Inside width src) :=
  inferInstanceAs (Decidable (∀ w ∈ src, 1 ≤ w ∧ w ≤ width))

theorem mapM_getColumn_ok (h : IsTable table width) {src : List ℤ} (hsrc : Inside width src) :
    src.mapM (getColumn table) = .ok (src.map (columnAt table)) :=
  mapM_eq_ok fun w hw => getColumn_eq_ok h (hsrc w hw)

theorem exists_of_not_inside {src : List ℤ} (h : ¬Inside width src) :
    ∃ w ∈ src, ¬(1 ≤ w ∧ w ≤ width) := by
  simpa only [Inside, not_forall, exists_prop] using h

/-- A column that is outside the table ends the job. -/
theorem mapM_getColumn_error (h : IsTable table width) {src : List ℤ} (hsrc : ¬Inside width src) :
    src.mapM (getColumn table) = .error .outOfRange := by
  obtain ⟨w, hw, hout⟩ := exists_of_not_inside hsrc
  refine mapM_eq_error (fun w _ => ?_) ⟨w, hw, getColumn_eq_error h hout⟩
  by_cases hin : 1 ≤ w ∧ w ≤ width
  · exact .inl ⟨_, getColumn_eq_ok h hin⟩
  · exact .inr (getColumn_eq_error h hin)

theorem access_first (h : IsTable table width) : ∃ row, access table 0 = .ok row :=
  ⟨_, ValueTable.access_of_lt h.length_pos []⟩

/-- A loop over the columns that a request asks for. -/
theorem mapM_columns_returns {α : Type} {f : (Fin table.length → Share n FixedPoint) → Supply α}
    {P : (Fin table.length → Share n FixedPoint) → α → Prop} (hf : ∀ v, Supply.Returns (f v) (P v))
    (src : List ℤ) :
    Supply.Returns ((src.map (columnAt table)).mapM f)
      (List.Forall₂ (fun w r => P (columnAt table w) r) src) := by
  rw [List.mapM_map]
  exact .mapM_forall₂ fun w _ => hf (columnAt table w)

end Columns

/-! ### `MathJob` -/

/-- What a method computes, on plain numbers. -/
def MathMethod.plain {N : ℕ} (method : MathMethod) (v : Fin N → Share n FixedPoint) : ℚ :=
  match method with
  | .mean => columnMean v
  | .variance => covariance v v
  | .sum => ∑ i, column v i

/-- How far its result may be off. -/
def MathMethod.slack (n : ℕ) : MathMethod → ℚ
  | .mean => n * ulp
  | .variance => varianceSlack n
  | .sum => 0

section Correct

variable [Config n] (t : ℕ → BtsTriple n) {table : List (List (Share n FixedPoint))} {width : ℕ}

theorem MathMethod.f_returns [Multiprecision] (method : MathMethod) {N : ℕ} (hN : 0 < N)
    (v : Fin N → Share n FixedPoint) :
    Supply.Returns (method.f t v) fun r => |toRat r - method.plain v| ≤ method.slack n := by
  cases method with
  | mean => exact .pure (abs_smean_sub_le hN v)
  | variance => exact variance_returns t hN v
  | sum =>
      refine .pure ?_
      rw [toRat_sum, MathMethod.plain, sub_self, abs_zero, MathMethod.slack]

/-- **`MathJob`** computes its method for each column that it is asked for, in the order of the
request, up to rounding (`MathMethod.slack`) and whatever the triples are. When it is asked for
a column that the table does not have, it accesses a cell that does not exist, which is
undefined in C++. -/
theorem mathJob_correct [Multiprecision] (method : MathMethod) (h : IsTable table width)
    (src : List ℤ) :
    (¬Inside width src → MathJob.compute t method table src = .error .outOfRange) ∧
    (Inside width src → ∃ ret, MathJob.compute t method table src = .ok ret ∧
      Supply.Returns ret (List.Forall₂ (fun w r =>
        |toRat r - method.plain (columnAt table w)| ≤ method.slack n) src)) := by
  obtain ⟨row, hrow⟩ := access_first h
  constructor
  · intro hsrc
    rw [MathJob.compute, Except.bind_ok hrow, Except.bind_error (mapM_getColumn_error h hsrc)]
  · intro hsrc
    refine ⟨_, ?_, mapM_columns_returns (method.f_returns t h.length_pos) src⟩
    rw [MathJob.compute, Except.bind_ok hrow, Except.bind_ok (mapM_getColumn_ok h hsrc)]
    rfl

end Correct

/-- The columns `3, -3` and `6, 0`. -/
def exampleTable : List (List (Share 3 FixedPoint)) :=
  [[⟨fun _ => FixedPoint.ofInt 1⟩, ⟨fun _ => FixedPoint.ofInt 2⟩],
    [⟨fun _ => FixedPoint.ofInt (-1)⟩, ⟨fun i => FixedPoint.ofInt (i.val - 1)⟩]]

theorem exampleTable_isTable : IsTable exampleTable 2 where
  ne_nil := by simp [exampleTable]
  width := by simp [exampleTable]

def exampleTriples : ℕ → BtsTriple 3 := fun _ =>
  ⟨fun i => i.val, fun _ => 1, fun i => 3 * i.val, rfl⟩

theorem mathJob_correct_three :
    letI := threeParties
    letI := Multiprecision.plain
    MathJob.compute exampleTriples .mean exampleTable [1, 3] = .error .outOfRange ∧
    ∃ ret, MathJob.compute exampleTriples .variance exampleTable [2, 1, 2] = .ok ret ∧
      Supply.Returns ret (List.Forall₂ (fun w r =>
        |toRat r - covariance (columnAt exampleTable w) (columnAt exampleTable w)|
          ≤ varianceSlack 3) [2, 1, 2]) :=
  letI := threeParties
  letI := Multiprecision.plain
  ⟨(mathJob_correct exampleTriples .mean exampleTable_isTable [1, 3]).1 (by decide),
    (mathJob_correct exampleTriples .variance exampleTable_isTable [2, 1, 2]).2 (by decide)⟩

/-! ### `CorrelJob` -/

section Correct

variable [Config n] (t : ℕ → BtsTriple n) {table : List (List (Share n FixedPoint))} {width : ℕ}

/-- What `correl` returns for two columns. -/
def IsCorrel {N : ℕ} (x y : Fin N → Share n FixedPoint) (r : Share n FixedPoint) : Prop :=
  ∃ dx dy, IsDeviation x dx ∧ IsDeviation y dy ∧
    |toRat r - covariance x y / (max dx (1 / 1000) * max dy (1 / 1000))|
      ≤ correlSlack n (max dx (1 / 1000)) (max dy (1 / 1000))

/-- **`CorrelJob`** correlates each target with each column, up to rounding, and never finds
sizes that differ. When it is asked for a column that the table does not have, it accesses a
cell that does not exist, which is undefined in C++. -/
theorem correlJob_correct [Multiprecision] (h : IsTable table width) (src target : List ℤ) :
    (¬(Inside width src ∧ Inside width target) →
      CorrelJob.compute t table src target = .error .outOfRange) ∧
    (Inside width src ∧ Inside width target →
      ∃ ret, CorrelJob.compute t table src target = .ok ret ∧
        Supply.Returns ret (List.Forall₂ (fun y row => List.Forall₂ (fun x r =>
          IsCorrel (columnAt table x) (columnAt table y) r) src row) target)) := by
  obtain ⟨row, hrow⟩ := access_first h
  constructor
  · intro houtside
    rw [CorrelJob.compute, Except.bind_ok hrow]
    by_cases hsrc : Inside width src
    · have htarget : ¬Inside width target := fun htarget => houtside ⟨hsrc, htarget⟩
      rw [Except.bind_ok (mapM_getColumn_ok h hsrc),
        Except.bind_error (mapM_getColumn_error h htarget)]
    · rw [Except.bind_error (mapM_getColumn_error h hsrc)]
  · rintro ⟨hsrc, htarget⟩
    have hcalls : (target.map (columnAt table)).mapM (fun y =>
        (src.map (columnAt table)).mapM fun x => run (correl t x y))
          = .ok ((target.map (columnAt table)).map fun y =>
            (src.map (columnAt table)).map fun x => correlSized t x y) := by
      refine mapM_eq_ok fun y _ => mapM_eq_ok fun x _ => ?_
      rw [correl, dif_pos rfl]
      rfl
    refine ⟨_, by
      rw [CorrelJob.compute, Except.bind_ok hrow, Except.bind_ok (mapM_getColumn_ok h hsrc),
        Except.bind_ok (mapM_getColumn_ok h htarget), Except.bind_ok hcalls]
      rfl, ?_⟩
    rw [List.mapM_map]
    refine mapM_columns_returns (P := fun y row => List.Forall₂ (fun x r =>
      IsCorrel (columnAt table x) y r) src row) (fun y => ?_) target
    rw [Function.comp_apply, List.mapM_map]
    exact mapM_columns_returns (P := fun x r => IsCorrel x y r)
      (fun x => correlSized_returns t h.length_pos x y) src

end Correct

theorem correlJob_correct_three :
    letI := threeParties
    letI := Multiprecision.plain
    ∃ ret, CorrelJob.compute exampleTriples exampleTable [1, 2] [2] = .ok ret ∧
      Supply.Returns ret (List.Forall₂ (fun y row => List.Forall₂ (fun x r =>
        IsCorrel (columnAt exampleTable x) (columnAt exampleTable y) r) [1, 2] row) [2]) :=
  letI := threeParties
  letI := Multiprecision.plain
  (correlJob_correct exampleTriples exampleTable_isTable [1, 2] [2]).2 (by decide)

end QuickMpc.Job
