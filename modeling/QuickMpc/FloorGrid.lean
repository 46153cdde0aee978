import QuickMpc.Floor

/-!
# QuickMpc.FloorGrid

`getFloor` of one share, and what both versions of `getFloor` compute.

The version for one share draws its random bits in one loop, and masks of at least `1`. All
of that the vector version may draw as well, for a vector of length one, and then it computes
the same (`getFloor_toVec`). So there is one statement for both: the argument is taken for a
point of the grid of `2^-16` at most `0.51` steps away, and its floor is returned.
-/

namespace QuickMpc.Share

open FixedPoint (shift ofDouble getDoubleVal)

variable {n N : ℕ}

section Code

variable [Config n]

/-- The loop of `getFloor` of one share, with its number of remaining rounds. -/
def floorShareLoop [Multiprecision] (draws : ℕ → LSBDraws n) :
    ℕ → ℕ → Share n FixedPoint → Run (Share n FixedPoint)
  | 0, _, y => .ok y
  | rounds + 1, i, y => do
    let b ← getLSBShare (draws i) y
    floorShareLoop draws rounds (i + 1) ((y - b) * ofDouble (1 / 2))

/-- `getFloor` of one share. -/
def getFloorShare [Multiprecision] (draws : ℕ → LSBDraws n) (s : Share n FixedPoint) : Run
    (Share n FixedPoint) := do
  let m := 16
  let k := 32
  let x := s * pow2 m
  let y := pow2 k + x
  let y ← floorShareLoop draws m 0 y
  return y - pow2 (k - m)

end Code

/-! ### One share as a vector -/

theorem RandBitDraws.ne_nil (d : RandBitDraws n) : d.draws ≠ [] := by
  obtain ⟨draw, hmem, -⟩ := d.accepted
  exact List.ne_nil_of_mem hmem

/-- The draws for one share, as those for a vector of length one. -/
def LSBDraws.toVec (d : LSBDraws n) : LSBVecDraws n 1 where
  first := fun _ => d.bit.draws.head d.bit.ne_nil
  again := fun _ => d.bit.draws.tail
  accepted := by
    intro _
    rw [List.cons_head_tail]
    exact d.bit.accepted
  r_dash := fun _ => d.r_dash
  range := fun _ i => ⟨by linarith [(d.range i).1], (d.range i).2⟩

@[simp] theorem LSBDraws.toVec_r_dash (d : LSBDraws n) (k : Fin 1) :
    d.toVec.r_dash k = d.r_dash := rfl

theorem collect_one {α : Type} (x : Run α) :
    collect (fun _ : Fin 1 => x) = (fun a _ => a) <$> x := by
  cases x with
  | error e => rfl
  | ok a => exact collect_eq_ok.mpr fun _ => rfl

variable [Config n]

@[simp] theorem getRandBitShareVec_toVec [Multiprecision] (d : LSBDraws n) :
    getRandBitShareVec d.toVec.first d.toVec.again
      = (fun r0 _ => r0) <$> getRandBitShare d.bit.draws := by
  simp [getRandBitShareVec_eq, LSBDraws.toVec, collect_one]

@[simp] theorem getLSBShareVec_toVec [Multiprecision] (d : LSBDraws n) (y : Share n FixedPoint) :
    getLSBShareVec d.toVec (fun _ => y) = (fun b _ => b) <$> getLSBShare d y := by
  simp [getLSBShareVec, getLSBShare]

theorem floorLoop_toVec [Multiprecision] (draws : ℕ → LSBDraws n) (rounds : ℕ) :
    ∀ (i : ℕ) (y : Share n FixedPoint),
      floorLoop (fun i => (draws i).toVec) rounds i (fun _ => y)
        = (fun y' _ => y') <$> floorShareLoop draws rounds i y := by
  induction rounds with
  | zero =>
      intro i y
      rfl
  | succ rounds ih =>
      intro i y
      simp [floorLoop, floorShareLoop, ih]

/-- The version for one share computes what the vector version computes for it alone. -/
theorem getFloor_toVec [Multiprecision] (draws : ℕ → LSBDraws n) (s : Share n FixedPoint) :
    getFloor (fun i => (draws i).toVec) (fun _ => s)
      = (fun d _ => d) <$> getFloorShare draws s := by
  simp [getFloor, getFloorShare, floorLoop_toVec]

/-- **`getFloorShare`** returns what `getFloor_grid` says of a vector of length one. -/
theorem getFloorShare_grid [Multiprecision] [Config 3] (draws : ℕ → LSBDraws 3)
    (s : Share 3 FixedPoint) :
    ∃ ret, getFloorShare draws s = .ok ret ∧ (-(2 ^ 16 * shift) < secret s → ∃ K : ℤ,
      2 * |2 ^ 16 * secret s - K * shift| ≤ shift + 3002 ∧
      |secret ret - K / 2 ^ 16 * shift| ≤ 2267) := by
  obtain ⟨ret, hret, hgrid⟩ := getFloor_grid (fun i => (draws i).toVec) (fun _ => s)
  rw [getFloor_toVec] at hret
  cases hrun : getFloorShare draws s with
  | error e =>
      rw [hrun] at hret
      cases hret
  | ok d =>
      rw [hrun] at hret
      obtain rfl : (fun _ => d) = ret := Except.ok.inj hret
      refine ⟨d, rfl, fun hs => ?_⟩
      obtain ⟨K, hK, hnear, -⟩ := hgrid 0 hs
      exact ⟨K, hK, hnear⟩

/-! ### The floor on the grid -/

/-- `d` is nearly the floor of a point `k / 2^16` of the grid, for which `x` may be taken. -/
def GridFloor (x d : ℚ) : Prop :=
  ∃ k : ℤ, |k / 2 ^ 16 - x| ≤ 0.51 / 2 ^ 16 ∧ |d - ⌊(k / 2 ^ 16 : ℚ)⌋| ≤ 0.0001

omit [Config n] in
theorem neg_two_pow_lt_secret {s : Share n FixedPoint} (hs : -2 ^ 16 < (recons s).getDoubleVal) :
    -(2 ^ 16 * shift) < secret s := by
  have hshift : (0 : ℚ) < shift := by exact_mod_cast FixedPoint.shift_pos
  rw [getDoubleVal, lt_div_iff₀ hshift, recons_value_fixedPoint, neg_mul] at hs
  exact_mod_cast hs

/-- The same in units. -/
theorem gridFloor_of_units {x d : FixedPoint} {K : ℤ}
    (hx : 2 * |2 ^ 16 * x.value - K * shift| ≤ shift + 3002)
    (hd : |d.value - K / 2 ^ 16 * shift| ≤ 2267) : GridFloor x.getDoubleVal d.getDoubleVal := by
  have hfloor : ⌊(K / 2 ^ 16 : ℚ)⌋ = K / 2 ^ 16 := by
    have h := Rat.floor_intCast_div_natCast K (2 ^ 16)
    exact_mod_cast h
  rw [two_mul_abs_le_iff] at hx
  rw [abs_le] at hd
  obtain ⟨hx, hx'⟩ : (-(shift + 3002) : ℚ) ≤ 2 * (2 ^ 16 * x.value - K * shift) ∧
      2 * (2 ^ 16 * x.value - K * shift) ≤ (shift + 3002 : ℚ) := by exact_mod_cast hx
  obtain ⟨hd, hd'⟩ : (-2267 : ℚ) ≤ d.value - (K / 2 ^ 16 : ℤ) * shift ∧
      d.value - (K / 2 ^ 16 : ℤ) * shift ≤ (2267 : ℚ) := by exact_mod_cast hd
  simp only [shift, Int.cast_ofNat] at hx hx' hd hd'
  refine ⟨K, ?_, ?_⟩
  · rw [abs_le, getDoubleVal, shift]
    constructor <;> linarith
  · rw [abs_le, getDoubleVal, shift, hfloor]
    constructor <;> linarith

/-- **Both versions of `getFloor`** return, and what they return for an operand above `-2^16`
is nearly the floor of a grid point next to it. An upper bound is not needed. -/
theorem getFloor_gridFloor [Multiprecision] [Config 3] :
    (∀ (draws : ℕ → LSBDraws 3) (s : Share 3 FixedPoint),
      ∃ ret, getFloorShare draws s = .ok ret ∧ (-2 ^ 16 < (recons s).getDoubleVal →
        GridFloor (recons s).getDoubleVal (recons ret).getDoubleVal)) ∧
    ∀ (N : ℕ) (draws : ℕ → LSBVecDraws 3 N) (s : Fin N → Share 3 FixedPoint),
      ∃ ret, getFloor draws s = .ok ret ∧ ∀ k, -2 ^ 16 < (recons (s k)).getDoubleVal →
        GridFloor (recons (s k)).getDoubleVal (recons (ret k)).getDoubleVal := by
  constructor
  · intro draws s
    obtain ⟨ret, hret, hgrid⟩ := getFloorShare_grid draws s
    refine ⟨ret, hret, fun hs => ?_⟩
    obtain ⟨K, hK, hnear⟩ := hgrid (neg_two_pow_lt_secret hs)
    rw [← recons_value_fixedPoint] at hK hnear
    exact gridFloor_of_units hK hnear
  · intro N draws s
    obtain ⟨ret, hret, hgrid⟩ := getFloor_grid draws s
    refine ⟨ret, hret, fun k hs => ?_⟩
    obtain ⟨K, hK, hnear, -⟩ := hgrid k (neg_two_pow_lt_secret hs)
    rw [← recons_value_fixedPoint] at hK hnear
    exact gridFloor_of_units hK hnear

/-- `-10.5` at one share, and at a vector of one where the bit has to be drawn again. -/
theorem getFloor_gridFloor_negative :
    let _ := threeParties
    let _ := Multiprecision.plain
    let triple : BtsTriple 3 := ⟨fun _ => 0, fun _ => 0, fun _ => 0, BtsTriple.zero_valid 3⟩
    let zero : RandBitDraw 3 := ⟨fun i => i - 1, by decide, triple⟩
    let one : RandBitDraw 3 := ⟨fun _ => 1, by decide, triple⟩
    let s : Share 3 FixedPoint := ⟨fun _ => ofDouble (-7 / 2)⟩
    (∃ ret, getFloorShare (fun _ => ⟨⟨[one], by decide⟩, fun _ => 1, by decide⟩) s = .ok ret ∧
      GridFloor (-21 / 2) (recons ret).getDoubleVal) ∧
    ∃ ret, getFloor (fun _ => ⟨fun _ => zero, fun _ => [one], by decide, fun _ _ => 0, by decide⟩)
        (fun _ : Fin 1 => s) = .ok ret ∧ GridFloor (-21 / 2) (recons (ret 0)).getDoubleVal := by
  intro _ _ triple zero one s
  have hs : (recons s).getDoubleVal = -21 / 2 := by
    have hvalue : (recons s).value = -1050000000 := by decide +kernel
    norm_num [getDoubleVal, hvalue, shift]
  constructor
  · obtain ⟨ret, hret, hfloor⟩ := getFloor_gridFloor.1 _ s
    refine ⟨ret, hret, ?_⟩
    rw [← hs]
    exact hfloor (by rw [hs]; norm_num)
  · obtain ⟨ret, hret, hfloor⟩ := getFloor_gridFloor.2 1 _ fun _ => s
    refine ⟨ret, hret, ?_⟩
    rw [← hs]
    exact hfloor 0 (by rw [hs]; norm_num)

end QuickMpc.Share
