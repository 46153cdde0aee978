import QuickMpc.Gbdt.PartitionTree
import QuickMpc.Rounding

/-!
# QuickMpc.Gbdt.GiniScore

The number by which the classification tree picks an attribute, beside the plain one. The
rows with one value of one attribute are a cell; its score is the sum of the squares of its
class counts, divided by 8 times its rows and 1.

The counts are exact. What is off is the quotient, where `getInv` truncates the inverse of
the divisor: the more rows a cell has, the more is lost (`scoreSlack`). `getMaxGini` opens
the scores of all the cells and takes the largest, so an attribute is as good as the best
one of its values.
-/

namespace QuickMpc.Gbdt

variable {n N : ℕ}

/-- A value that an attribute is split by. -/
def TrainingSet.HasValue (D : TrainingSet n N) (a v : ℕ) : Prop :=
  ∃ values, D.S[a]? = some values ∧ v < values.length

namespace SID3

open Share (secret)
open QuickMpc.Share (toRat ulp)
open FixedPoint (shift)

/-! ### The plain numbers -/

/-- The sum of the squares of the class counts. -/
def squares (L : Classes n N) (cell : Finset (Fin N)) : ℕ :=
  ∑ c ∈ Finset.range L.targets.length, (L.withLabel c cell).card ^ 2

/-- The score of a cell. -/
def cellScore (L : Classes n N) (cell : Finset (Fin N)) : ℚ := squares L cell / (8 * cell.card + 1)

/-- How far the score that is opened may be off. -/
def scoreSlack (L : Classes n N) (cell : Finset (Fin N)) : ℚ :=
  (999 * n * squares L cell + 1) * ulp

/-- A number that is opened for the score of a cell. -/
def Opened (L : Classes n N) (cell : Finset (Fin N)) (score : ℚ) : Prop :=
  |score - cellScore L cell| < scoreSlack L cell

/-- An attribute that is left is picked for the sake of one of its values, and no cell of any
attribute that is left has a larger score, up to the rounding. -/
structure Picks (D : TrainingSet n N) (L : Classes n N) (rows : Finset (Fin N)) (R : List ℕ)
    (score : ℚ) (a : ℕ) : Prop where
  mem : a ∈ R
  opened : ∃ v, D.HasValue a v ∧ Opened L (D.withValue a v rows) score
  lt : ∀ r ∈ R, ∀ v, D.HasValue r v →
    cellScore L (D.withValue r v rows) < score + scoreSlack L (D.withValue r v rows)

/-- Every row is in one class. -/
theorem sum_card_withLabel (L : Classes n N) (cell : Finset (Fin N)) :
    ∑ c ∈ Finset.range L.targets.length, (L.withLabel c cell).card = cell.card := by
  refine (Finset.card_eq_sum_card_fiberwise (f := L.label) fun i _ => ?_).symm
  have hlt := (L.one_hot i).lt
  rw [List.length_map] at hlt
  exact Finset.mem_coe.mpr (Finset.mem_range.mpr hlt)

theorem card_le_squares (L : Classes n N) (cell : Finset (Fin N)) : cell.card ≤ squares L cell := by
  rw [← sum_card_withLabel L cell]
  exact Finset.sum_le_sum fun c _ => Nat.le_self_pow two_ne_zero _

theorem withValue_withLabel (D : TrainingSet n N) (L : Classes n N) (a v c : ℕ)
    (rows : Finset (Fin N)) :
    D.withValue a v (L.withLabel c rows) = L.withLabel c (D.withValue a v rows) :=
  Finset.filter_comm _ _ _

section Returns

variable [Config n] {t : ℕ → BtsTriple n} {D : TrainingSet n N} {L : Classes n N}
  {rows : Finset (Fin N)}

/-! ### One cell -/

omit [Config n] in
theorem secret_foldl_add (xs : List (Share n)) (acc : Share n) :
    secret (xs.foldl (· + ·) acc) = secret acc + (xs.map secret).sum := by
  induction xs generalizing acc with
  | nil => simp
  | cons x xs ih =>
      rw [List.foldl_cons, ih, QuickMpc.Share.secret_add, List.map_cons, List.sum_cons, add_assoc]

/-- The inner product of two vectors of whole numbers. -/
theorem dot_returns_whole {M : ℕ} {x y : Fin M → Share n} {k l : Fin M → ℤ}
    (hx : ∀ i, secret (x i) = shift * k i) (hy : ∀ i, secret (y i) = shift * l i) :
    Supply.Returns (dot t x y) fun r => secret r = shift * ∑ i, k i * l i := by
  refine .bind (P := fun z => ∀ i, secret (z i) = shift * (k i * l i)) (.take fun q i => ?_)
    fun z hz => .pure ?_
  · rw [QuickMpc.Share.bulkMul_apply, QuickMpc.Share.secret_mul_whole _ _ _ (hy i), hx, mul_assoc]
  · rw [secret_sum, Finset.sum_congr rfl fun i _ => hz i, ← Finset.mul_sum]

/-- The rows of a cell, by their class. -/
theorem dots_returns {U : List (Fin N → Share n)} (hU : Split L rows U) {a v : ℕ}
    {values : List (Fin N → Share n)} {bits : Fin N → Share n} (hvalues : D.S[a]? = some values)
    (hbits : values[v]? = some bits) :
    Supply.Returns (U.mapM fun u => dot t u bits) fun x => x.length = L.targets.length ∧
      ∀ i : Fin x.length,
        secret (x.get i) = shift * (L.withLabel i (D.withValue a v rows)).card := by
  refine (Supply.Returns.mapM (P := fun c r =>
    secret r = shift * (L.withLabel c (D.withValue a v rows)).card) fun c u hu => ?_).mono
      fun x hx => ⟨hx.1.trans hU.1, fun i => hx.2 i _ (List.getElem?_eq_getElem i.isLt)⟩
  refine (TrainingSet.mulVec_returns t hvalues hbits (hU.2 c u hu)).bind fun T_ hT_ => .pure ?_
  rw [secret_sum_bits hT_, withValue_withLabel]

/-- The score that is opened for a cell. -/
theorem gini_returns_score [Multiprecision] (r sent : ℕ → QuickMpc.Share.Draws n)
    {U : List (Fin N → Share n)} (hU : Split L rows U) {a v : ℕ} {values : List (Fin N → Share n)}
    {bits : Fin N → Share n} (hvalues : D.S[a]? = some values) (hbits : values[v]? = some bits) :
    Supply.Returns (gini t (div t r sent) U bits) fun s =>
      Opened L (D.withValue a v rows) (toRat s) := by
  set cell := D.withValue a v rows with hcell
  refine (dots_returns hU hvalues hbits).bind fun x hx => ?_
  obtain ⟨hlen, hcounts⟩ := hx
  rw [← hcell] at hcounts
  refine (dot_returns_whole hcounts hcounts).bind fun xx hxx => ?_
  have hsum : secret (x.foldl (· + ·) (0 : Share n)) = shift * cell.card := by
    have hget : (x.map secret).sum = ∑ i, secret (x.get i) := by
      rw [← List.sum_ofFn]
      exact congrArg List.sum (List.ext_getElem (by simp) fun i _ _ => by simp)
    rw [secret_foldl_add, QuickMpc.Share.secret_zero, zero_add, hget,
      Finset.sum_congr rfl fun i _ => hcounts i, ← Finset.mul_sum,
      Fin.sum_univ_eq_sum_range (fun c => ((L.withLabel c cell).card : ℤ)), hlen,
      ← Nat.cast_sum, sum_card_withLabel]
  have hsquares : toRat xx = squares L cell := by
    rw [Fin.sum_univ_eq_sum_range (fun c =>
      ((L.withLabel c cell).card : ℤ) * (L.withLabel c cell).card), hlen] at hxx
    rw [QuickMpc.Share.toRat_of_secret hxx, squares]
    push_cast
    exact Finset.sum_congr rfl fun c _ => (sq _).symm
  set y := x.foldl (· + ·) (0 : Share n) * FixedPoint.ofInt 8 + FixedPoint.ofInt 1 with hy
  have hdivisor : secret y = shift * (8 * cell.card + 1) := by
    rw [hy, QuickMpc.Share.secret_add_value, QuickMpc.Share.secret_mul_ofInt, hsum,
      QuickMpc.Share.denote_eq_value, FixedPoint.ofInt_value]
    ring
  have hne : secret y ≠ 0 := by
    rw [hdivisor]
    exact mul_ne_zero FixedPoint.shift_pos.ne' (by positivity)
  refine .take fun k => ?_
  have hquot := QuickMpc.Share.abs_toRat_div_sub_lt (fun i => t (k + i)) (r k) (sent k) xx hne
  rw [hsquares, QuickMpc.Share.toRat_of_secret hdivisor, Nat.abs_cast] at hquot
  push_cast at hquot
  exact hquot

/-! ### The choice of the attribute -/

/-- The scores of one attribute, in the order of its values. -/
theorem giniValues_returns [Multiprecision] (r sent : ℕ → QuickMpc.Share.Draws n)
    {U : List (Fin N → Share n)} (hU : Split L rows U) {a : ℕ} {values : List (Fin N → Share n)}
    (hvalues : D.S[a]? = some values) :
    Supply.Returns (giniValues t (div t r sent) D.S U a) fun ps =>
      ps.length = values.length ∧
        ∀ v p, ps[v]? = some p → p.2 = a ∧ Opened L (D.withValue a v rows) p.1 := by
  rw [giniValues, hvalues]
  refine Supply.Returns.mapM fun v bits hbits => ?_
  exact (gini_returns_score r sent hU hvalues hbits).bind fun s hs => .pure ⟨rfl, hs⟩

/-- There is one score for each value of each attribute that is left, and no other. -/
theorem calcGini_returns_scores [Multiprecision] (r sent : ℕ → QuickMpc.Share.Draws n)
    {U : List (Fin N → Share n)} (hU : Split L rows U) {R : List ℕ} (hR : ∀ a ∈ R, a < D.S.length) :
    Supply.Returns (calcGini t (div t r sent) D.S U R) fun ps =>
      (∀ p ∈ ps, p.2 ∈ R ∧ ∃ v, D.HasValue p.2 v ∧ Opened L (D.withValue p.2 v rows) p.1) ∧
      ∀ a ∈ R, ∀ v, D.HasValue a v → ∃ p ∈ ps, p.2 = a ∧ Opened L (D.withValue a v rows) p.1 := by
  refine (Supply.Returns.mapM (P := fun k ps => ∃ a values, R[k]? = some a ∧
    D.S[a]? = some values ∧ ps.length = values.length ∧
      ∀ v p, ps[v]? = some p → p.2 = a ∧ Opened L (D.withValue a v rows) p.1) fun k a ha => ?_).bind
        fun pss hpss => .pure ⟨fun p hp => ?_, fun a ha v hv => ?_⟩
  · have hvalues := List.getElem?_eq_getElem (hR a (List.mem_of_getElem? ha))
    exact (giniValues_returns r sent hU hvalues).mono fun ps hps => ⟨a, _, ha, hvalues, hps⟩
  · obtain ⟨ps, hps, hp⟩ := List.mem_flatten.mp hp
    obtain ⟨k, hk⟩ := List.mem_iff_getElem?.mp hps
    obtain ⟨a, values, ha, hvalues, hlen, hscores⟩ := hpss.2 k ps hk
    obtain ⟨v, hv⟩ := List.mem_iff_getElem?.mp hp
    obtain ⟨rfl, hopened⟩ := hscores v p hv
    have hlt : v < values.length := hlen ▸ (List.getElem?_eq_some_iff.mp hv).1
    exact ⟨List.mem_of_getElem? ha, v, ⟨values, hvalues, hlt⟩, hopened⟩
  · obtain ⟨values, hvalues, hlt⟩ := hv
    obtain ⟨k, hk⟩ := List.mem_iff_getElem?.mp ha
    have hlen : k < pss.length := hpss.1 ▸ (List.getElem?_eq_some_iff.mp hk).1
    obtain ⟨a', values', ha', hvalues', hwidth, hscores⟩ :=
      hpss.2 k _ (List.getElem?_eq_getElem hlen)
    obtain rfl : a = a' := Option.some.inj (hk.symm.trans ha')
    obtain rfl : values = values' := Option.some.inj (hvalues.symm.trans hvalues')
    have hv : v < pss[k].length := hwidth ▸ hlt
    obtain ⟨hatt, hopened⟩ := hscores v _ (List.getElem?_eq_getElem hv)
    exact ⟨_, List.mem_flatten.mpr ⟨_, List.getElem_mem hlen, List.getElem_mem hv⟩, hatt, hopened⟩

/-- `getMaxGini` picks an attribute that is left for the sake of one of its values. -/
theorem getMaxGini_picks [Multiprecision] (r sent : ℕ → QuickMpc.Share.Draws n)
    {U : List (Fin N → Share n)} (hU : Split L rows U) {R : List ℕ} (hR : ∀ a ∈ R, a < D.S.length) :
    Supply.Returns (getMaxGini t (div t r sent) D.S U R) fun p =>
      (p = (-1, none) ∧ ∀ a ∈ R, ∀ v, ¬D.HasValue a v) ∨
        ∃ a, p.2 = some a ∧ Picks D L rows R p.1 a := by
  refine (calcGini_returns_scores r sent hU hR).bind fun ps hps => ?_
  obtain ⟨hmem, hall⟩ := hps
  cases hmax : max_element ps with
  | none =>
      refine .pure (.inl ⟨rfl, fun a ha v hv => ?_⟩)
      obtain ⟨p, hp, -⟩ := hall a ha v hv
      obtain ⟨q, hq⟩ := bestElement_isSome (fun p q => pairLt q p) (List.ne_nil_of_mem hp)
      rw [max_element, hq] at hmax
      cases hmax
  | some p =>
      obtain ⟨score, a⟩ := p
      obtain ⟨ha, hbest⟩ := hmem _ (bestElement_mem hmax)
      refine .pure (.inr ⟨a, rfl, ha, hbest, fun b hb v hv => ?_⟩)
      -- the score that was opened for the other cell is no larger
      obtain ⟨p, hp, -, hopened⟩ := hall b hb v hv
      have hle : p.1 ≤ score := (max_element_spec hmax p hp).elim le_of_lt fun h => h.1.le
      have hlow := (abs_lt.mp hopened).1
      linarith

end Returns

end SID3

end QuickMpc.Gbdt
