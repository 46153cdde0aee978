import QuickMpc.Math.LogisticRegression
import QuickMpc.Model.DecisionTree
import QuickMpc.ValueText

/-!
# QuickMpc.Model.Regression

Prediction with the coefficients of a regression, and what is predicted with the ones that
`LinearRegressionJob` has written.

A job prints its coefficients, and the models read the texts back. A model multiplies them
with the row of a request, behind a constant `1`; a request for another number of columns
than the job had throws. `LogisticRegression` opens the sum and returns its sigmoid, and does
not come back when what is opened for a row has no exponential.

A column outside the table is read where there is nothing, which C++ leaves undefined;
`outOfRange` stands for it.
-/

namespace QuickMpc.Model

open Share (toRat ulp recons)
open Job (IsTable Inside IsRegression)
open Math (SigmoidDraws Opened open_sigmoid sigmoidSlack)
open ValueTable (Access)

variable {n : ℕ}

/-! ### The code -/

section Code

variable [Config n] (t : ℕ → BtsTriple n) (draws : SigmoidDraws n) (stdExp : ℚ → Option ℚ)
  (retries : ℕ) (parse : String → FixedPoint)

/-- `parse_table`, with the constant share `1` in front of a row. -/
def parse_table_one (table : List (List (Share n FixedPoint))) (arg : List ℤ) :
    Access (List (List (Share n FixedPoint))) := do
  let x ← parse_table table arg
  return x.map fun xi => Gbdt.getConstantShare (FixedPoint.ofInt 1) :: xi

/-- `LinearRegression::predict_f`. -/
def LinearRegression.predict_f (a x : List (Share n FixedPoint)) : Supply (Share n FixedPoint) :=
  sumProducts t a x

/-- `LogisticRegression::predict_f`. -/
def LogisticRegression.predict_f [Multiprecision] (a x : List (Share n FixedPoint)) :
    Supply (Share n FixedPoint) := do
  let lr ← LinearRegression.predict_f t a x
  open_sigmoid t draws stdExp retries lr (FixedPoint.ofInt 1)

/-- `LinearRegression::predict`, with the model that `readModelparam` returns. -/
def LinearRegression.predict (a_str : List (Cell n)) (table : List (List (Share n FixedPoint)))
    (arg : List ℤ) : Access (Supply (List (Share n FixedPoint))) := do
  let a := a_str.map (shareOf parse)
  let x ← parse_table_one table arg
  return x.mapM (LinearRegression.predict_f t a)

/-- `LogisticRegression::predict`. -/
def LogisticRegression.predict [Multiprecision] (a_str : List (Cell n))
    (table : List (List (Share n FixedPoint))) (arg : List ℤ) :
    Access (Supply (List (Share n FixedPoint))) := do
  let a := a_str.map (shareOf parse)
  let x ← parse_table_one table arg
  return x.mapM (LogisticRegression.predict_f t draws stdExp retries a)

end Code

/-! ### One row -/

/-- The row of a request, in the clear. -/
def plainRow (row : List (Share n FixedPoint)) (arg : List ℤ) : List ℚ :=
  1 :: (cells row arg).map toRat

section Row

variable [Config n] (t : ℕ → BtsTriple n)

theorem map_toRat_one (xi : List (Share n FixedPoint)) :
    (Gbdt.getConstantShare (FixedPoint.ofInt 1) :: xi).map toRat = 1 :: xi.map toRat := by
  rw [List.map_cons, Share.toRat_of_secret Math.secret_getConstantShare_one, Int.cast_one]

/-- The constant `1` adds no error. -/
theorem slack_one_cons_le (x : List ℚ) : slack (1 :: x) ≤ x.length * ulp := by
  have hsum : slack (1 :: x) = (x.map fun b => if b.den = 1 then 0 else ulp).sum := by simp [slack]
  have hlen : x.length = (x.map fun b : ℚ => if b.den = 1 then 0 else ulp).length := by simp
  rw [hsum, hlen, ← nsmul_eq_mul]
  refine List.sum_le_card_nsmul _ _ fun e he => ?_
  obtain ⟨b, -, rfl⟩ := List.mem_map.mp he
  split
  · exact Share.ulp_pos.le
  · exact le_rfl

/-- The linear function of a row, behind its constant. -/
def linearValue (a row : List (Share n FixedPoint)) (arg : List ℤ) : ℚ :=
  (List.zipWith (fun b x => b * x) (a.map toRat) (plainRow row arg)).sum

theorem linear_predict_f_computes (a row : List (Share n FixedPoint)) (arg : List ℤ) :
    Supply.Computes
      (LinearRegression.predict_f t a (Gbdt.getConstantShare (FixedPoint.ofInt 1) :: cells row arg))
      (innerProduct (a.map toRat) (plainRow row arg)) fun r v => |toRat r - v| ≤ arg.length * ulp := by
  have h := sumProducts_computes t a (Gbdt.getConstantShare (FixedPoint.ofInt 1) :: cells row arg)
  rw [map_toRat_one] at h
  refine h.mono fun r v hr => hr.trans ((slack_one_cons_le _).trans_eq ?_)
  simp [cells]

/-- As many coefficients as columns, and one for the constant. -/
theorem linear_predict_f_returns {a : List (Share n FixedPoint)} {arg : List ℤ}
    (hlen : a.length = arg.length + 1) (row : List (Share n FixedPoint)) :
    Supply.Returns
      (LinearRegression.predict_f t a (Gbdt.getConstantShare (FixedPoint.ofInt 1) :: cells row arg))
      fun r => |toRat r - linearValue a row arg| ≤ arg.length * ulp := by
  have h := linear_predict_f_computes t a row arg
  rwa [innerProduct, if_pos (by simp [plainRow, cells, hlen])] at h

theorem linear_predict_f_fails {a row : List (Share n FixedPoint)} {arg : List ℤ}
    (hlen : a.length ≠ arg.length + 1) :
    Supply.Fails (LinearRegression.predict_f t a
      (Gbdt.getConstantShare (FixedPoint.ofInt 1) :: cells row arg)) := by
  have h := linear_predict_f_computes t a row arg
  rwa [innerProduct, if_neg (by simpa [plainRow, cells] using hlen)] at h

/-- The error of a sigmoid: of the sum that is opened, and of its exponential. -/
def NearSigmoid [Multiprecision] (n : ℕ) (stdExp : ℚ → Option ℚ) (e : ℚ) (r : Share n FixedPoint)
    (v : ℚ) : Prop :=
  ∃ s E : FixedPoint, Opened stdExp e v s (some E) ∧
    |(toRat r : ℝ) - Real.sigmoid v| ≤ sigmoidSlack n E s e

theorem logistic_predict_f_returnsOr [Multiprecision] {t : ℕ → BtsTriple n} (ht : ∀ k, (t k).Fits)
    (hn : n < 2 ^ 31) (draws : SigmoidDraws n) {stdExp : ℚ → Option ℚ}
    (hexp : ∀ v, ∀ e ∈ stdExp v, 0 ≤ e) (retries : ℕ) {a row : List (Share n FixedPoint)}
    {arg : List ℤ} (hlen : a.length = arg.length + 1) :
    Supply.ReturnsOr (LogisticRegression.predict_f t draws stdExp retries a
        (Gbdt.getConstantShare (FixedPoint.ofInt 1) :: cells row arg))
      (fun r => NearSigmoid n stdExp (arg.length * ulp) r (linearValue a row arg))
      (∃ s, Opened stdExp (arg.length * ulp) (linearValue a row arg) s none) := by
  refine (linear_predict_f_returns t hlen row).bind_returnsOr fun lr hlr => ?_
  refine (Math.open_sigmoid_one_computes ht hn draws hexp retries lr).returnsOr.mono
    (fun r hr => ?_) fun hnone => ⟨recons lr, hlr, hnone⟩
  obtain ⟨E, hE, hr⟩ := hr
  refine ⟨recons lr, E, ⟨hlr, hE⟩, ?_⟩
  have hclose : |(toRat lr : ℝ) - (linearValue a row arg : ℝ)| ≤ (arg.length * ulp : ℚ) := by
    exact_mod_cast hlr
  have hslope := (Math.abs_sigmoid_sub_le (toRat lr) (linearValue a row arg)).trans
    (mul_le_mul_of_nonneg_left hclose (by norm_num))
  exact (abs_sub_le _ _ _).trans (add_le_add hr hslope)

end Row

/-! ### The rows of a request -/

section Rows

variable [Config n] {table : List (List (Share n FixedPoint))} {width : ℕ}

/-- A prediction that goes by the rows. The coefficients fit all rows, or none. -/
theorem predict_rows {f : List (Share n FixedPoint) → Supply (Share n FixedPoint)} (fits : Prop)
    {P : List (Share n FixedPoint) → Share n FixedPoint → Prop}
    {Q : List (Share n FixedPoint) → Prop} {arg : List ℤ}
    (hfit : fits → ∀ row, Supply.ReturnsOr
      (f (Gbdt.getConstantShare (FixedPoint.ofInt 1) :: cells row arg)) (P row) (Q row))
    (hmisfit : ¬fits → ∀ row, Supply.Fails
      (f (Gbdt.getConstantShare (FixedPoint.ofInt 1) :: cells row arg)))
    (h : IsTable table width) (harg : Inside width arg) :
    ∃ ret, (do
        let x ← parse_table_one table arg
        return x.mapM f : Access _) = .ok ret ∧
      (fits → Supply.ReturnsOr ret (List.Forall₂ P table) (∃ row ∈ table, Q row)) ∧
      (¬fits → Supply.Fails ret) := by
  have hparse : parse_table_one table arg
      = .ok ((table.map fun row => cells row arg).map fun xi =>
          Gbdt.getConstantShare (FixedPoint.ofInt 1) :: xi) :=
    Except.bind_ok (parse_table_ok h harg) _
  refine ⟨_, Except.bind_ok hparse _, fun hfits => ?_, fun hfits => ?_⟩
  · rw [List.mapM_map, List.mapM_map]
    exact .mapM_forall₂ fun row hrow => (hfit hfits row).mono (fun _ => id) fun hQ =>
      ⟨row, hrow, hQ⟩
  · obtain ⟨row, rows, rfl⟩ := List.exists_cons_of_ne_nil h.ne_nil
    rw [List.map_cons, List.map_cons, List.mapM_cons]
    exact (hmisfit hfits row).bind _

theorem parse_table_one_error (h : IsTable table width) {arg : List ℤ} (harg : ¬Inside width arg) :
    parse_table_one table arg = .error .outOfRange :=
  Except.bind_error (parse_table_error h harg) _

end Rows

theorem linearRegression_predict [Config n] (t : ℕ → BtsTriple n) (parse : String → FixedPoint)
    (a_str : List (Cell n)) {table : List (List (Share n FixedPoint))} {width : ℕ}
    (h : IsTable table width) {arg : List ℤ} (harg : Inside width arg) :
    ∃ ret, LinearRegression.predict t parse a_str table arg = .ok ret ∧
      (a_str.length = arg.length + 1 → Supply.Returns ret (List.Forall₂ (fun row r =>
        |toRat r - linearValue (a_str.map (shareOf parse)) row arg| ≤ arg.length * ulp) table)) ∧
      (a_str.length ≠ arg.length + 1 → Supply.Fails ret) := by
  have hlen : (a_str.map (shareOf parse)).length = a_str.length := List.length_map _
  obtain ⟨ret, hret, hfit, hmisfit⟩ := predict_rows (a_str.length = arg.length + 1)
    (fun hfits row => (linear_predict_f_returns t (hlen.trans hfits) row).returnsOr False)
    (fun hfits row => linear_predict_f_fails t (hlen ▸ hfits)) h harg
  exact ⟨ret, hret, fun hfits => (hfit hfits).returns (by simp), hmisfit⟩

/-! ### From the job to the model -/

/-- What `toString` makes of a share, at each party. -/
def textOf [Multiprecision] (s : Share n FixedPoint) : Cell n := fun i => (s.value i).getStrVal

/-- No piece has more than fifty digits. -/
def Printable (s : Share n FixedPoint) : Prop := ∀ i, |(s.value i).value| < 10 ^ 50

theorem shareOf_textOf [Multiprecision] {s : Share n FixedPoint} (hs : Printable s) :
    shareOf FixedPoint.ofText (textOf s) = s := by
  ext i
  exact congrArg FixedPoint.value (FixedPoint.ofText_getStrVal (hs i))

/-- **A regression predicts what it has learnt**: what `LinearRegressionJob` returns for a table,
where it returns, is read back as the coefficients of a regression over that table, when no piece
of it has more than fifty digits; and for any other table and as many columns, every prediction
is their linear function, up to one unit for each column. For another number of columns nothing
is predicted. -/
theorem linearRegression_trained [Multiprecision] [Config n] (t t' : ℕ → BtsTriple n)
    (inv : ShareMatrix.Inverter n) {table : List (List (Share n FixedPoint))} {width : ℕ}
    (h : IsTable table width) {src : List ℤ} (hsrc : Inside width src) {j : ℤ}
    (hj : 1 ≤ j ∧ j ≤ width) (target : List ℤ) :
    let X := ShareMatrix.toMatrix (Job.designRow (src.map (Job.columnAt table)))
    let y := ShareMatrix.toMatrix fun it (_ : Fin 1) => Job.columnAt table j it
    ∃ ret, Job.LinearRegressionJob.compute t inv table src (j :: target) = .ok ret ∧
      Supply.ReturnsOr ret (fun w =>
        (∃ w', w = List.ofFn w' ∧ IsRegression inv X y fun i => toRat (w' i)) ∧
        ((∀ s ∈ w, Printable s) →
          ∀ (table' : List (List (Share n FixedPoint))) (width' : ℕ) (arg : List ℤ),
            IsTable table' width' → Inside width' arg →
            ∃ ret', LinearRegression.predict t' FixedPoint.ofText (w.map textOf) table' arg
                = .ok ret' ∧
              (arg.length = src.length → Supply.Returns ret' (List.Forall₂ (fun row r =>
                |toRat r - linearValue w row arg| ≤ arg.length * ulp) table')) ∧
              (arg.length ≠ src.length → Supply.Fails ret')))
        (Job.NoInverse inv X) := by
  obtain ⟨ret, hret, hreturns⟩ := Job.linearRegressionJob_returnsOr t inv h hsrc hj target
  refine ⟨ret, hret, hreturns.mono (fun w hw => ⟨hw, fun hprint table' width' arg h' harg => ?_⟩)
    id⟩
  obtain ⟨w', rfl, -⟩ := hw
  obtain ⟨ret', hpredict, hfit, hmisfit⟩ :=
    linearRegression_predict t' FixedPoint.ofText ((List.ofFn w').map textOf) h' harg
  have hread : ((List.ofFn w').map textOf).map (shareOf FixedPoint.ofText) = List.ofFn w' := by
    rw [List.map_map]
    exact (List.map_congr_left fun s hs => shareOf_textOf (hprint s hs)).trans (List.map_id _)
  rw [hread] at hfit
  have hlen : ((List.ofFn w').map textOf).length = arg.length + 1
      ↔ arg.length = src.length := by
    simp [eq_comm]
  exact ⟨ret', hpredict, fun heq => hfit (hlen.mpr heq), fun hne => hmisfit (mt hlen.mp hne)⟩

theorem linearRegression_trained_three :
    letI := threeParties
    letI := Multiprecision.plain
    let X := ShareMatrix.toMatrix (Job.designRow ([2].map (Job.columnAt Job.exampleTable)))
    let y := ShareMatrix.toMatrix fun it (_ : Fin 1) => Job.columnAt Job.exampleTable 1 it
    ∃ ret, Job.LinearRegressionJob.compute Job.exampleTriples Job.exampleInverter Job.exampleTable
        [2] [1] = .ok ret ∧
      Supply.ReturnsOr ret (fun w =>
        (∃ w', w = List.ofFn w' ∧ IsRegression Job.exampleInverter X y fun i => toRat (w' i)) ∧
        ((∀ s ∈ w, Printable s) →
          ∀ (table' : List (List (Share 3 FixedPoint))) (width' : ℕ) (arg : List ℤ),
            IsTable table' width' → Inside width' arg →
            ∃ ret', LinearRegression.predict Job.exampleTriples FixedPoint.ofText (w.map textOf)
                table' arg = .ok ret' ∧
              (arg.length = [(2 : ℤ)].length → Supply.Returns ret' (List.Forall₂ (fun row r =>
                |toRat r - linearValue w row arg| ≤ arg.length * ulp) table')) ∧
              (arg.length ≠ [(2 : ℤ)].length → Supply.Fails ret')))
        (Job.NoInverse Job.exampleInverter X) :=
  letI := threeParties
  letI := Multiprecision.plain
  linearRegression_trained Job.exampleTriples Job.exampleTriples Job.exampleInverter
    Job.exampleTable_isTable (by decide) (by decide) []

end QuickMpc.Model
