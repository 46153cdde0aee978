import QuickMpc.Math.LinearRegression
import QuickMpc.Math.Sigmoid

/-!
# QuickMpc.Math.LogisticRegression

Logistic regression by stochastic gradient descent: a hundred steps of length `1`, each with
the gradient of the cross entropy over half of the rows.

The rows of a step are shuffled by the party `sp_id` and opened, so that every party takes
the same ones (`get_random_x_eq`). A step has length `1`, which makes the update exact; the
gradient is off by the error of the sigmoid, times the row, and by one unit for each row.

A step is not completed when, for one of its rows, the exponential of what is opened has no
fixed-point number (`Overflows`): two rows of `37.5` with the target `0` get there in the second
step. A table with a single row has an empty half, and the job reads the first row of nothing.
-/

namespace QuickMpc

open FixedPoint (shift ofInt truncate)
open Share (toRat ulp recons)

variable {n N d : ℕ}

namespace Math

open Gbdt (mul mulVec getConstantShare)

/-! ### The code -/

section Code

variable [Config n] (t : ℕ → BtsTriple n) (draws : SigmoidDraws n) (stdExp : ℚ → Option ℚ)
  (retries : ℕ)

variable (n) in
/-- `get_random_x`, once the party `sp_id` has shuffled. -/
def get_random_x (shuffle : List ℕ) (num size : ℕ) : Run (List ℤ) :=
  if size < num then .error (.runtimeError "sgd index count error")
  else
    let s_index := (List.range num).map fun i => (0 : Share n FixedPoint) + ofInt (shuffle.getD i 0)
    .ok (s_index.map fun s => truncate (recons s).getDoubleVal)

/-- `x[i]` exists. -/
def rowAt (i : ℤ) : Supply (Fin N) :=
  if h : 0 ≤ i ∧ i < N then return ⟨i.toNat, by omega⟩ else failure

/-- `df` over some of the rows. The matrix of the rows reads the first one. -/
def df [Multiprecision] (x : ShareMatrix n N d) (target : Fin N → Share n FixedPoint)
    (rows : List (Fin N)) (theta : Fin d → Share n FixedPoint) :
    Supply (Fin d → Share n FixedPoint) :=
  if rows.isEmpty then failure
  else do
    let hy ← Supply.tabulate rows.length fun k => do
      let s ← mulVec t (x (rows.get k)) theta
      let y ← open_sigmoid_vector t draws stdExp retries s (ofInt 1)
      return y - target (rows.get k)
    Supply.tabulate d fun j => do
      let products ← mulVec t hy fun k => x (rows.get k) j
      return Gbdt.sum products

/-- `df` over `num` rows, as they were shuffled. -/
def dfShuffled [Multiprecision] (x : ShareMatrix n N d) (target : Fin N → Share n FixedPoint)
    (shuffle : List ℕ) (num : ℕ) (theta : Fin d → Share n FixedPoint) :
    Supply (Fin d → Share n FixedPoint) :=
  match get_random_x n shuffle num N with
  | .ok shuffle_index => do
      let rows ← shuffle_index.mapM rowAt
      df t draws stdExp retries x target rows theta
  | .error _ => failure

/-- `SGD::optimize`, with the gradient of each iteration. -/
def optimize (alpha : Share n FixedPoint)
    (f : ℕ → (Fin d → Share n FixedPoint) → Supply (Fin d → Share n FixedPoint)) :
    ℕ → (Fin d → Share n FixedPoint) → Supply (Fin d → Share n FixedPoint)
  | 0, theta => return theta
  | iterationNum + 1, theta => do
      let dfx ← f iterationNum theta
      let next_theta ← Supply.tabulate d fun i => do
        let step ← mul t alpha (dfx i)
        return theta i - step
      optimize alpha f iterationNum next_theta

end Code

/-! ### The rows of a step -/

/-- Every party opens the shuffled rows of `sp_id`. -/
theorem get_random_x_eq [Config n] (shuffle : List ℕ) {num size : ℕ} (hlen : shuffle.length = size)
    (hnum : num ≤ size) :
    get_random_x n shuffle num size = .ok ((shuffle.take num).map fun i : ℕ => (i : ℤ)) := by
  rw [get_random_x, if_neg (by omega)]
  dsimp only
  rw [List.map_map]
  refine congrArg _ (List.ext_getElem (by simp; omega) fun i hi _ => ?_)
  have hlt : i < shuffle.length := by
    rw [List.length_map, List.length_range] at hi
    omega
  rw [List.getElem_map, List.getElem_range, List.getElem_map, List.getElem_take,
    Function.comp_apply]
  have hrat : (recons ((0 : Share n FixedPoint) + ofInt (shuffle.getD i 0))).getDoubleVal
      = ((shuffle[i] : ℤ) : ℚ) := by
    have h := Share.toRat_add_value (0 : Share n FixedPoint) (ofInt (shuffle.getD i 0))
    rw [Share.toRat_zero, zero_add, Share.getDoubleVal_ofInt] at h
    rw [List.getD_eq_getElem?_getD, List.getElem?_eq_getElem hlt, Option.getD_some] at h ⊢
    exact h
  rw [hrat, FixedPoint.truncate_intCast]

theorem rows_returns {shuffle : List ℕ} (hlt : ∀ i ∈ shuffle, i < N) :
    Supply.Returns ((shuffle.map fun i : ℕ => (i : ℤ)).mapM rowAt) fun rows : List (Fin N) =>
      rows.map Fin.val = shuffle := by
  induction shuffle with
  | nil => exact .pure rfl
  | cons i shuffle ih =>
      rw [List.map_cons, List.mapM_cons]
      have hi : (0 : ℤ) ≤ i ∧ (i : ℤ) < N := by
        have := hlt i List.mem_cons_self
        omega
      have hrow : Supply.Returns (rowAt (i : ℤ)) fun row : Fin N => row.val = i := by
        rw [rowAt, dif_pos hi]
        exact .pure (Int.toNat_natCast i)
      refine hrow.bind fun row hrow => ?_
      refine (ih fun j hj => hlt j (List.mem_cons_of_mem i hj)).bind fun rows hrows => .pure ?_
      rw [List.map_cons, hrow, hrows]

/-! ### The gradient -/

/-- The gradient of the cross entropy over some rows. -/
noncomputable def gradient (x : Matrix (Fin N) (Fin d) ℚ) (target : Fin N → ℚ)
    (rows : List (Fin N)) (theta : Fin d → ℚ) (j : Fin d) : ℝ :=
  ∑ k : Fin rows.length, (Real.sigmoid (∑ i, x (rows.get k) i * theta i : ℚ)
    - target (rows.get k)) * x (rows.get k) j

/-- What is opened for a row, `e` off, and its exponential if there is one. -/
def Opened [Multiprecision] (stdExp : ℚ → Option ℚ) (e v : ℚ) (s : FixedPoint)
    (E : Option FixedPoint) : Prop :=
  |s.getDoubleVal - v| ≤ e ∧ openedExp stdExp s = E

/-- What is computed for the gradient: `s k` is what is opened for the `k`-th row. -/
def NearGradient [Multiprecision] (n : ℕ) (stdExp : ℚ → Option ℚ) (x : Matrix (Fin N) (Fin d) ℚ)
    (target : Fin N → ℚ) (rows : List (Fin N)) (theta g : Fin d → ℚ) : Prop :=
  ∃ s E : Fin rows.length → FixedPoint,
    (∀ k, Opened stdExp (d * ulp) (∑ i, x (rows.get k) i * theta i) (s k) (some (E k))) ∧
    ∀ j, |(g j : ℝ) - gradient x target rows theta j|
      ≤ ∑ k, (ulp + sigmoidSlack n (E k) (s k) (d * ulp) * |(x (rows.get k) j : ℝ)|)

/-- What is opened for one of the rows has no exponential. -/
def Overflows [Multiprecision] (stdExp : ℚ → Option ℚ) (x : Matrix (Fin N) (Fin d) ℚ)
    (rows : List (Fin N)) (theta : Fin d → ℚ) : Prop :=
  ∃ k s, Opened stdExp (d * ulp) (∑ i, x (rows.get k) i * theta i) s none

theorem abs_mul_sub_mul_right_le {a b c e : ℝ} (h : |a - b| ≤ e) : |a * c - b * c| ≤ e * |c| := by
  rw [← sub_mul, abs_mul]
  exact mul_le_mul_of_nonneg_right h (abs_nonneg c)

section Returns

variable [Multiprecision] [Config n] {t : ℕ → BtsTriple n} (draws : SigmoidDraws n)
  {stdExp : ℚ → Option ℚ} (retries : ℕ)

/-- The difference of a row's sigmoid to its target. -/
theorem hy_returnsOr (ht : ∀ k, (t k).Fits) (hn : n < 2 ^ 31) (hexp : ∀ v, ∀ e ∈ stdExp v, 0 ≤ e)
    (x theta : Fin d → Share n FixedPoint) (target : Share n FixedPoint) :
    Supply.ReturnsOr (do
      let s ← mulVec t x theta
      let y ← open_sigmoid_vector t draws stdExp retries s (ofInt 1)
      return y - target)
      (fun hy => ∃ s E : FixedPoint,
        Opened stdExp (d * ulp) (∑ i, toRat (x i) * toRat (theta i)) s (some E) ∧
        |(toRat hy : ℝ)
            - (Real.sigmoid (∑ i, toRat (x i) * toRat (theta i) : ℚ) - toRat target)|
          ≤ sigmoidSlack n E s (d * ulp))
      (∃ s, Opened stdExp (d * ulp) (∑ i, toRat (x i) * toRat (theta i)) s none) := by
  refine (sum_mulVec_returns t x theta).bind_returnsOr fun s hs => ?_
  have hsigmoid := open_sigmoid_one_computes ht hn draws hexp retries (Gbdt.sum s)
  refine (hsigmoid.returnsOr.mono (fun _ => id) fun hnone =>
    ⟨recons (Gbdt.sum s), hs, hnone⟩).bind_returns fun y hy => .pure ?_
  obtain ⟨E, hE, hy⟩ := hy
  refine ⟨recons (Gbdt.sum s), E, ⟨hs, hE⟩, ?_⟩
  have hslope := abs_sigmoid_sub_le (toRat (Gbdt.sum s)) (∑ i, toRat (x i) * toRat (theta i) : ℚ)
  have hclose : |((toRat (Gbdt.sum s) : ℚ) : ℝ) - (∑ i, toRat (x i) * toRat (theta i) : ℚ)|
      ≤ d * ulp := by
    exact_mod_cast hs
  rw [Share.toRat_sub, Rat.cast_sub, sub_sub_sub_cancel_right]
  refine (abs_sub_le _ _ _).trans (add_le_add hy (hslope.trans ?_))
  exact mul_le_mul_of_nonneg_left hclose (by norm_num)

theorem df_returnsOr (ht : ∀ k, (t k).Fits) (hn : n < 2 ^ 31) (hexp : ∀ v, ∀ e ∈ stdExp v, 0 ≤ e)
    (x : ShareMatrix n N d) (target : Fin N → Share n FixedPoint) {rows : List (Fin N)}
    (hrows : rows ≠ []) (theta : Fin d → Share n FixedPoint) :
    Supply.ReturnsOr (df t draws stdExp retries x target rows theta)
      (fun g => NearGradient n stdExp (ShareMatrix.toMatrix x) (fun i => toRat (target i)) rows
        (fun i => toRat (theta i)) fun j => toRat (g j))
      (Overflows stdExp (ShareMatrix.toMatrix x) rows fun i => toRat (theta i)) := by
  rw [df, if_neg (by simpa using hrows)]
  refine (Supply.ReturnsOr.tabulate fun k => (hy_returnsOr draws retries ht hn hexp (x (rows.get k))
    theta (target (rows.get k))).mono (fun _ => id) fun hnone => ⟨k, hnone⟩).bind_returns
      fun hy hhy => ?_
  refine (Supply.Returns.tabulate (P := fun j g => |toRat g
    - ∑ k, toRat (hy k) * toRat (x (rows.get k) j)| ≤ rows.length * ulp) fun j => ?_).mono
      fun g hg => ?_
  · exact (sum_mulVec_returns t hy fun k => x (rows.get k) j).bind fun products h => .pure h
  · choose s E hs hnear using hhy
    refine ⟨s, E, hs, fun j => ?_⟩
    have hround : |(toRat (g j) : ℝ) - ∑ k, (toRat (hy k) : ℝ) * toRat (x (rows.get k) j)|
        ≤ ∑ _k : Fin rows.length, (ulp : ℝ) := by
      rw [Finset.sum_const, Finset.card_univ, Fintype.card_fin, nsmul_eq_mul]
      exact_mod_cast hg j
    have hsigmoid := RoundedSum.abs_sum_sub_sum_le (s := Finset.univ) fun k _ =>
      abs_mul_sub_mul_right_le (c := (toRat (x (rows.get k) j) : ℝ)) (hnear k)
    rw [Finset.sum_add_distrib]
    exact (abs_sub_le _ _ _).trans (add_le_add hround hsigmoid)

/-- The rows of a step: distinct ones, as `sp_id` has shuffled them. -/
theorem dfShuffled_returnsOr (ht : ∀ k, (t k).Fits) (hn : n < 2 ^ 31)
    (hexp : ∀ v, ∀ e ∈ stdExp v, 0 ≤ e) (x : ShareMatrix n N d)
    (target : Fin N → Share n FixedPoint) {shuffle : List ℕ} (hshuffle : shuffle.Perm (List.range N))
    {num : ℕ} (hpos : 0 < num) (hnum : num ≤ N) (theta : Fin d → Share n FixedPoint) :
    Supply.ReturnsOr (dfShuffled t draws stdExp retries x target shuffle num theta)
      (fun g => ∃ rows, rows.map Fin.val = shuffle.take num ∧
        NearGradient n stdExp (ShareMatrix.toMatrix x) (fun i => toRat (target i)) rows
          (fun i => toRat (theta i)) fun j => toRat (g j))
      (∃ rows, rows.map Fin.val = shuffle.take num ∧
        Overflows stdExp (ShareMatrix.toMatrix x) rows fun i => toRat (theta i)) := by
  have hlen : shuffle.length = N := by rw [hshuffle.length_eq, List.length_range]
  have hlt : ∀ i ∈ shuffle.take num, i < N := fun i hi =>
    List.mem_range.mp (hshuffle.subset (List.take_subset num shuffle hi))
  rw [dfShuffled, get_random_x_eq shuffle hlen hnum]
  refine (rows_returns hlt).bind_returnsOr fun rows hrows => ?_
  have hne : rows ≠ [] := by
    intro hnil
    rw [hnil, List.map_nil, eq_comm, List.take_eq_nil_iff] at hrows
    rcases hrows with hzero | hempty
    · omega
    · rw [hempty, List.length_nil] at hlen
      omega
  exact (df_returnsOr draws retries ht hn hexp x target hne theta).mono
    (fun g hg => ⟨rows, hrows, hg⟩) fun hnone => ⟨rows, hrows, hnone⟩

/-- No rows make no matrix. -/
theorem dfShuffled_zero (t : ℕ → BtsTriple n) (stdExp : ℚ → Option ℚ) (x : ShareMatrix n N d)
    (target : Fin N → Share n FixedPoint) (shuffle : List ℕ) (theta : Fin d → Share n FixedPoint) :
    dfShuffled t draws stdExp retries x target shuffle 0 theta = failure := by
  simp [dfShuffled, get_random_x, df]

end Returns

/-! ### The descent -/

/-- `k` iterations, counted down. -/
inductive Iterates {α : Type} (step : ℕ → α → α → Prop) : ℕ → α → α → Prop
  | done (a : α) : Iterates step 0 a a
  | next {k : ℕ} {a b c : α} : step k a b → Iterates step k b c → Iterates step (k + 1) a c

/-- One of `k` iterations, counted down, is not completed: there is `fails` where it starts. -/
inductive Stops {α : Type} (step : ℕ → α → α → Prop) (fails : ℕ → α → Prop) : ℕ → α → Prop
  | here {k : ℕ} {a : α} : fails k a → Stops step fails (k + 1) a
  | later {k : ℕ} {a b : α} : step k a b → Stops step fails k b → Stops step fails (k + 1) a

/-- Steps of length `1` are exact. -/
theorem optimize_returnsOr [Config n] (t : ℕ → BtsTriple n) {alpha : Share n FixedPoint}
    (halpha : Share.secret alpha = shift * 1)
    {f : ℕ → (Fin d → Share n FixedPoint) → Supply (Fin d → Share n FixedPoint)}
    {P : ℕ → (Fin d → ℚ) → (Fin d → ℚ) → Prop} {Q : ℕ → (Fin d → ℚ) → Prop}
    (hf : ∀ k theta, Supply.ReturnsOr (f k theta)
      (fun g => P k (fun i => toRat (theta i)) fun i => toRat (g i)) (Q k fun i => toRat (theta i))) :
    ∀ (iterationNum : ℕ) (theta : Fin d → Share n FixedPoint),
      Supply.ReturnsOr (optimize t alpha f iterationNum theta)
        (fun theta' => Iterates (fun k a b => ∃ g, P k a g ∧ ∀ i, b i = a i - g i) iterationNum
          (fun i => toRat (theta i)) fun i => toRat (theta' i))
        (Stops (fun k a b => ∃ g, P k a g ∧ ∀ i, b i = a i - g i) Q iterationNum
          fun i => toRat (theta i))
  | 0, theta => (Supply.Returns.pure (.done _)).returnsOr _
  | iterationNum + 1, theta => by
      refine ((hf iterationNum theta).mono (fun _ => id) .here).bind fun dfx hdfx => ?_
      refine (Supply.Returns.tabulate (P := fun i b => toRat b = toRat (theta i) - toRat (dfx i))
        fun i => ?_).bind_returnsOr fun next_theta hnext => ?_
      · refine .bind (P := fun step => toRat step = toRat (dfx i)) (.take fun k => ?_)
          fun step hstep => .pure ?_
        · rw [Share.toRat_whole_mul _ _ _ halpha, Int.cast_one, one_mul]
        · rw [Share.toRat_sub, hstep]
      · exact (optimize_returnsOr t halpha hf iterationNum next_theta).mono
          (fun theta' htheta' => .next ⟨_, hdfx, hnext⟩ htheta') (.later ⟨_, hdfx, hnext⟩)

/-- Without gradients a descent ends in its first step. -/
theorem optimize_eq_none [Config n] (t : ℕ → BtsTriple n) (alpha : Share n FixedPoint)
    {f : ℕ → (Fin d → Share n FixedPoint) → Supply (Fin d → Share n FixedPoint)}
    (hf : ∀ k theta, f k theta = failure) {iterationNum : ℕ} (hpos : 0 < iterationNum)
    (theta : Fin d → Share n FixedPoint) (k : ℕ) :
    optimize t alpha f iterationNum theta k = none := by
  obtain ⟨iterationNum, rfl⟩ := Nat.exists_eq_succ_of_ne_zero hpos.ne'
  rw [optimize, Supply.run_bind, hf]
  rfl

end Math

/-! ### `LogisticRegressionJob` -/

namespace Job

open Math
open ValueTable (Access)

/-- `LogisticRegressionJob::compute`; the shuffles are counted like the iterations. -/
def LogisticRegressionJob.compute [Multiprecision] [Config n] (t : ℕ → BtsTriple n)
    (draws : SigmoidDraws n) (stdExp : ℚ → Option ℚ) (retries : ℕ) (shuffles : ℕ → List ℕ)
    (table : List (List (Share n FixedPoint))) (src target : List ℤ) :
    Access (Supply (List (Share n FixedPoint))) := do
  let (cols, y) ← parse_table table src target
  let batch_size := table.length / 2
  let f := fun k => dfShuffled t draws stdExp retries (designRow cols) y (shuffles k) batch_size
  return do
    let theta ← optimize t (Gbdt.getConstantShare (ofInt 1)) f 100 fun _ => 0
    return List.ofFn theta

/-- One step of gradient descent, over the first `num` of the shuffled rows. -/
def SgdStep [Multiprecision] (n : ℕ) (stdExp : ℚ → Option ℚ) (x : Matrix (Fin N) (Fin d) ℚ)
    (y : Fin N → ℚ) (shuffle : List ℕ) (num : ℕ) (a b : Fin d → ℚ) : Prop :=
  ∃ g, (∃ rows, rows.map Fin.val = shuffle.take num ∧ NearGradient n stdExp x y rows a g) ∧
    ∀ i, b i = a i - g i

/-- A step that is not completed. -/
def SgdStops [Multiprecision] (stdExp : ℚ → Option ℚ) (x : Matrix (Fin N) (Fin d) ℚ)
    (shuffle : List ℕ) (num : ℕ) (a : Fin d → ℚ) : Prop :=
  ∃ rows, rows.map Fin.val = shuffle.take num ∧ Overflows stdExp x rows a

/-- **`LogisticRegressionJob`** takes a hundred steps of gradient descent from `0`, each over
the half of the rows that is shuffled to the front, with the same rows at every party. It ends
without a result in a step in which, for one of its rows, what is opened has no exponential, and
in no other one. With a single row it has no half to take, and ends in the first step. -/
theorem logisticRegressionJob_correct [Multiprecision] [Config n] {t : ℕ → BtsTriple n}
    (ht : ∀ k, (t k).Fits) (hn : n < 2 ^ 31) (draws : SigmoidDraws n) {stdExp : ℚ → Option ℚ}
    (hexp : ∀ v, ∀ e ∈ stdExp v, 0 ≤ e) (retries : ℕ) {table : List (List (Share n FixedPoint))}
    {width : ℕ} (h : IsTable table width) {shuffles : ℕ → List ℕ}
    (hshuffles : ∀ k, (shuffles k).Perm (List.range table.length)) {src : List ℤ}
    (hsrc : Inside width src) {j : ℤ} (hj : 1 ≤ j ∧ j ≤ width) (target : List ℤ) :
    let x := ShareMatrix.toMatrix (designRow (src.map (columnAt table)))
    let step := fun k => SgdStep n stdExp x (fun i => toRat (columnAt table j i)) (shuffles k)
      (table.length / 2)
    ∃ ret, LogisticRegressionJob.compute t draws stdExp retries shuffles table src (j :: target)
        = .ok ret ∧
      (table.length = 1 → ∀ k, ret k = none) ∧
      (1 < table.length → Supply.ReturnsOr ret
        (fun w => ∃ theta, w = List.ofFn theta ∧
          Iterates step 100 (fun _ => 0) fun i => toRat (theta i))
        (Stops step (fun k => SgdStops stdExp x (shuffles k) (table.length / 2)) 100
          fun _ => 0)) := by
  refine ⟨_, Except.bind_ok (parse_table_ok h hsrc hj target) _, ?_, ?_⟩
  · intro hone k
    rw [Supply.run_bind, show table.length / 2 = 0 by omega, optimize_eq_none t _
      (fun k => dfShuffled_zero draws retries t _ _ _ (shuffles k)) (by norm_num)]
    rfl
  · intro hmany
    have hpos : 0 < table.length / 2 := by omega
    set x := designRow (src.map (columnAt table))
    have hrun := optimize_returnsOr t secret_getConstantShare_one
      (P := fun k a g => ∃ rows, rows.map Fin.val = (shuffles k).take (table.length / 2) ∧
        NearGradient n stdExp (ShareMatrix.toMatrix x) (fun i => toRat (columnAt table j i)) rows a g)
      (Q := fun k => SgdStops stdExp (ShareMatrix.toMatrix x) (shuffles k) (table.length / 2))
      (fun k theta => dfShuffled_returnsOr draws retries ht hn hexp x (columnAt table j)
        (hshuffles k) hpos (Nat.div_le_self _ _) theta) 100 fun _ => 0
    simp only [Share.toRat_zero] at hrun
    exact hrun.bind_returns fun theta htheta => .pure ⟨theta, rfl, htheta⟩

/-- `std::exp`, by its series at a small argument. -/
def exampleExp (v : ℚ) : Option ℚ :=
  Binary64.ofRat ((∑ k ∈ Finset.range 30, (v / 1024) ^ k / k.factorial) ^ 1024)

theorem exampleExp_nonneg (v : ℚ) : ∀ e ∈ exampleExp v, 0 ≤ e := by
  intro e he
  obtain ⟨-, hround⟩ := Option.ite_none_right_eq_some.mp he
  rw [← Option.some.inj hround]
  exact Binary64.round_nonneg (Even.pow_nonneg (by decide) _)

def exampleDraws : SigmoidDraws 3 where
  r := fun _ => Share.ones
  sent := fun _ => Share.ones
  rnd := fun k i => ofInt (k * i)

theorem exampleTriples_fits (k : ℕ) : (exampleTriples k).Fits := by
  intro i
  fin_cases i <;> norm_num [exampleTriples]

theorem logisticRegressionJob_correct_three :
    letI := threeParties
    letI := Multiprecision.plain
    let x := ShareMatrix.toMatrix (designRow ([2].map (columnAt exampleTable)))
    let step := fun _ => SgdStep 3 exampleExp x (fun i => toRat (columnAt exampleTable 1 i)) [1, 0]
      (exampleTable.length / 2)
    ∃ ret, LogisticRegressionJob.compute exampleTriples exampleDraws exampleExp 0 (fun _ => [1, 0])
        exampleTable [2] [1] = .ok ret ∧
      (exampleTable.length = 1 → ∀ k, ret k = none) ∧
      (1 < exampleTable.length → Supply.ReturnsOr ret
        (fun w => ∃ theta, w = List.ofFn theta ∧
          Iterates step 100 (fun _ => 0) fun i => toRat (theta i))
        (Stops step (fun _ => SgdStops exampleExp x [1, 0] (exampleTable.length / 2)) 100
          fun _ => 0)) :=
  letI := threeParties
  letI := Multiprecision.plain
  logisticRegressionJob_correct exampleTriples_fits (by norm_num) exampleDraws exampleExp_nonneg 0
    exampleTable_isTable (fun _ => by decide) (by decide) (by decide) []

end Job

end QuickMpc
