import QuickMpc.LessThanZero

/-!
# QuickMpc.Floor

`getFloor` of a vector of shares. It scales by `2^16`, adds `2^32`, takes the `16` low bits
off one by one, and halves each time. What is left is the integer part, up to the rounding
of the last bits.

The result is not the floor, but `FloorOf` has what a caller can rely on. It is within
`2267` units of a whole number `F`; the argument is not below `F` by more than `762` units
and stays below `F + 1`; and the difference of the argument and the result, which callers go
on with, is never below `-5` units and stays away from `1` (`getFloor_spec`). The last part
rests on the signs: an approximate bit exceeds `1`, or falls below `0`, by at most `2` units
only.
-/

namespace QuickMpc.Share

open FixedPoint (shift ofInt ofDouble stdRound)

variable {n N : ℕ}

/-- What one call of the vector `getLSBShare` draws. An element whose first number shares
zero is drawn again. -/
structure LSBVecDraws (n N : ℕ) where
  first : Fin N → RandBitDraw n
  again : Fin N → List (RandBitDraw n)
  accepted : ∀ k, ∃ draw ∈ first k :: again k, ∑ i, draw.r i ≠ 0
  r_dash : Fin N → Fin n → ℤ
  range : ∀ k i, 0 ≤ r_dash k i ∧ r_dash k i < 1000

section Code

variable [Config n]

/-- `getRandBitShare(n)`. -/
def getRandBitShareVec [Multiprecision] (first : Fin N → RandBitDraw n)
    (again : Fin N → List (RandBitDraw n)) :
    Run (Fin N → Share n FixedPoint) :=
  let r := fun k => ofInts (first k).r
  let square_r := bulkMul (fun k => (first k).triple.convertStr2Triple) r r
  collect fun k =>
    let square_r_rec := recons (square_r k)
    if square_r_rec.getDoubleVal ≠ 0 then
      let r_dash := FixedPoint.sqrt square_r_rec
      let inv_r_dash := ofDouble 1 / r_dash
      .ok (ofDouble (1 / 2) * (inv_r_dash * r k + ofDouble 1))
    else getRandBitShare (again k)

/-- `getLSBShare` of a vector. -/
def getLSBShareVec [Multiprecision] (draws : LSBVecDraws n N) (y : Fin N → Share n FixedPoint) :
    Run (Fin N → Share n FixedPoint) := do
  let r0 ← getRandBitShareVec draws.first draws.again
  let t := fun k => y k + r0 k + ofInt 2 * ofInts (draws.r_dash k)
  let c := fun k => ofDouble (stdRound (recons (t k)).getDoubleVal) % ofInt 2
  return fun k => c k + r0 k - ofInt 2 * c k * r0 k

/-- The loop of `getFloor`, with its number of remaining rounds. -/
def floorLoop [Multiprecision] (draws : ℕ → LSBVecDraws n N) :
    ℕ → ℕ → (Fin N → Share n FixedPoint) → Run (Fin N → Share n FixedPoint)
  | 0, _, y => .ok y
  | rounds + 1, i, y => do
    let b ← getLSBShareVec (draws i) y
    floorLoop draws rounds (i + 1) fun k => (y k - b k) * ofDouble (1 / 2)

/-- `getFloor` of a vector. -/
def getFloor [Multiprecision] (draws : ℕ → LSBVecDraws n N) (s : Fin N → Share n FixedPoint) :
    Run (Fin N → Share n FixedPoint) := do
  let m := 16
  let k := 32
  let x := fun j => s j * pow2 m
  let y := fun j => pow2 k + x j
  let y ← floorLoop draws m 0 y
  return fun j => y j - pow2 (k - m)

end Code

/-! ### One round -/

/-- Element by element, the vector version is the loop of the other one. -/
theorem getRandBitShareVec_eq [Multiprecision] [Config n] (first : Fin N → RandBitDraw n)
    (again : Fin N → List (RandBitDraw n)) :
    getRandBitShareVec first again = collect fun k => getRandBitShare (first k :: again k) := by
  unfold getRandBitShareVec
  simp only [bulkMul_apply]
  rfl

theorem getLSBShareVec_spec [Multiprecision] [Config 3] (draws : LSBVecDraws 3 N)
    (y : Fin N → Share 3 FixedPoint) :
    ∃ b, getLSBShareVec draws y = .ok b ∧ ∀ k, 4 - shift < 2 * secret (y k) → ∃ M : ℤ,
      2 * |secret (y k) - M * shift| ≤ shift + 3002 ∧ ApproxBit (M % 2) (secret (b k)) := by
  choose r0 β hr0 hβ hbit using fun k => getRandBitShare_spec (draws.accepted k)
  have hvec : getRandBitShareVec draws.first draws.again = .ok r0 := by
    rw [getRandBitShareVec_eq]
    exact collect_eq_ok.mpr hr0
  refine ⟨_, Except.bind_ok hvec _, fun k hyk => ?_⟩
  have hsecret : secret (y k + r0 k + ofInt 2 * ofInts (draws.r_dash k))
      = secret (y k) + secret (r0 k) + 2 * (shift * ∑ i, draws.r_dash k i) := by
    have htwo : secret (ofInt 2 * ofInts (draws.r_dash k))
        = secret (ofInts (draws.r_dash k)) * 2 := secret_mul_ofInt _ 2
    rw [secret_add, secret_add, htwo, secret_ofInts]
    ring
  have hsum : 0 ≤ shift * ∑ i, draws.r_dash k i :=
    mul_nonneg FixedPoint.shift_pos.le (Finset.sum_nonneg fun i _ => (draws.range k i).1)
  refine lsb_spec (hβ k) (hbit k) hsecret ?_
  have hlow := (hbit k).1
  rw [hsecret]
  linarith

/-- What is left of `y` after a round. -/
theorem halve_spec {y b : Share 3 FixedPoint} {M : ℤ} (hb : ApproxBit (M % 2) (secret b)) :
    let y' := secret ((y - b) * ofDouble (1 / 2))
    2 * |y' - M / 2 * shift| ≤ |secret y - M * shift| + 1504 ∧
      -5 ≤ secret y - 2 * y' ∧ secret y - 2 * y' ≤ shift + 5 := by
  have hy' : |2 * secret ((y - b) * ofDouble (1 / 2)) - secret (y - b)| ≤ 3 :=
    abs_two_mul_secret_half_le (y - b)
  obtain ⟨hlow, hhigh, herr⟩ := hb
  have habs := abs_le.mp (le_refl |secret y - M * shift|)
  rw [secret_sub] at hy'
  rw [abs_le] at herr hy'
  refine ⟨?_, by linarith, by linarith⟩
  rw [two_mul_abs_le_iff]
  simp only [shift] at *
  omega

/-! ### All rounds -/

/-- The loop divides `y` by `2 ^ rounds`, and takes it for a whole number then. -/
theorem floorLoop_spec [Multiprecision] [Config 3] (draws : ℕ → LSBVecDraws 3 N) (rounds : ℕ) :
    ∀ (i : ℕ) (y : Fin N → Share 3 FixedPoint),
      ∃ y', floorLoop draws rounds i y = .ok y' ∧ ∀ k, ∀ M : ℤ, 0 ≤ M →
        2 * |secret (y k) - M * shift| ≤ 60000000 →
        2 ^ rounds * |secret (y' k) - M / 2 ^ rounds * shift|
          ≤ |secret (y k) - M * shift| + 1504 * (2 ^ rounds - 1) ∧
        -5 * (2 ^ rounds - 1) ≤ secret (y k) - 2 ^ rounds * secret (y' k) ∧
        secret (y k) - 2 ^ rounds * secret (y' k) ≤ (shift + 5) * (2 ^ rounds - 1) := by
  induction rounds with
  | zero =>
      intro i y
      refine ⟨y, rfl, fun k M _ _ => ?_⟩
      simp
  | succ rounds ih =>
      intro i y
      obtain ⟨b, hb, hbit⟩ := getLSBShareVec_spec (draws i) y
      obtain ⟨y', hy', hrest⟩ := ih (i + 1) fun k => (y k - b k) * ofDouble (1 / 2)
      refine ⟨y', (Except.bind_ok hb _).trans hy', fun k M hM hyk => ?_⟩
      have hclose := two_mul_abs_le_iff.mp hyk
      have hparity : ApproxBit (M % 2) (secret (b k)) := by
        obtain ⟨M', hM', hbit'⟩ := hbit k (by
          simp only [shift] at *
          omega)
        -- both whole numbers are near `y`, so they agree
        have hsame : M' = M := by
          rw [two_mul_abs_le_iff] at hM'
          simp only [shift] at *
          omega
        rwa [hsame] at hbit'
      obtain ⟨hnext, hfirst, hlast⟩ := halve_spec (y := y k) hparity
      obtain ⟨hnear, hbelow, habove⟩ := hrest k (M / 2) (Int.ediv_nonneg hM (by norm_num))
        (by linarith)
      have hpow : (1 : ℤ) ≤ 2 ^ rounds := one_le_pow₀ (by norm_num)
      have hdiv : M / 2 ^ (rounds + 1) = M / 2 / 2 ^ rounds := by
        rw [pow_succ', Int.ediv_ediv_of_nonneg (by norm_num)]
      rw [hdiv, pow_succ']
      refine ⟨?_, ?_, ?_⟩ <;> linarith

/-! ### `getFloor` -/

/-- What can be relied on when `d` was returned for `x`: it is nearly the whole number `F`,
which is nearly the floor of `x`. -/
structure FloorOf (x d F : ℤ) : Prop where
  near : |d - F * shift| ≤ 2267
  rest_low : -5 ≤ x - d
  rest_high : x - d ≤ shift - 1520
  low : F * shift - 762 ≤ x
  high : x ≤ (F + 1) * shift - 763

/-- **`getFloor`** returns, and treats every operand above `-2^16` by itself. The first round
decides which whole number `K` of the grid, `2^16` points to one, it takes the operand for;
what is left of it then is its integer part. -/
theorem getFloor_grid [Multiprecision] [Config 3] (draws : ℕ → LSBVecDraws 3 N)
    (s : Fin N → Share 3 FixedPoint) :
    ∃ ret, getFloor draws s = .ok ret ∧ ∀ k, -(2 ^ 16 * shift) < secret (s k) → ∃ K : ℤ,
      2 * |2 ^ 16 * secret (s k) - K * shift| ≤ shift + 3002 ∧
      |secret (ret k) - K / 2 ^ 16 * shift| ≤ 2267 ∧
      -5 ≤ secret (s k) - secret (ret k) ∧ secret (s k) - secret (ret k) ≤ shift - 1520 := by
  set y : Fin N → Share 3 FixedPoint := fun k => pow2 32 + s k * pow2 16 with hy
  obtain ⟨b, hb, hbit⟩ := getLSBShareVec_spec (draws 0) y
  obtain ⟨y', hy', hrest⟩ := floorLoop_spec draws 15 1 fun k => (y k - b k) * ofDouble (1 / 2)
  have hloop : floorLoop draws (15 + 1) 0 y = .ok y' := by
    rw [floorLoop, Except.bind_ok hb]
    exact hy'
  refine ⟨fun k => y' k - pow2 16, Except.bind_ok hloop _, fun k hs => ?_⟩
  have hY : secret (y k) = 2 ^ 32 * shift + secret (s k) * 2 ^ 16 := by
    rw [hy, secret_value_add, denote_eq_value, pow2_eq, pow2_eq, FixedPoint.ofInt_value,
      secret_mul_ofInt]
  have hpos : 0 < secret (y k) := by linarith
  obtain ⟨M, hM, hparity⟩ := hbit k (by
    simp only [shift] at *
    omega)
  obtain ⟨hnext, hfirst, hlast⟩ := halve_spec (y := y k) hparity
  obtain ⟨hnear, hbelow, habove⟩ := hrest k (M / 2)
    (by
      rw [two_mul_abs_le_iff] at hM
      simp only [shift] at *
      omega)
    (by
      simp only [shift] at *
      omega)
  have hret : secret (y' k - pow2 16) = secret (y' k) - 2 ^ 16 * shift := by
    rw [secret_sub_value, denote_eq_value, pow2_eq, FixedPoint.ofInt_value]
  have hgrid : 2 ^ 16 * secret (s k) - (M - 2 ^ 32) * shift = secret (y k) - M * shift := by
    rw [hY]
    ring
  have hfloor : (M - 2 ^ 32) / 2 ^ 16 = M / 2 / 2 ^ 15 - 2 ^ 16 := by omega
  refine ⟨M - 2 ^ 32, ?_, ?_, ?_, ?_⟩
  · rwa [hgrid]
  · have hshifted : secret (y' k) - 2 ^ 16 * shift - (M / 2 / 2 ^ 15 - 2 ^ 16) * shift
        = secret (y' k) - M / 2 / 2 ^ 15 * shift := by ring
    rw [hret, hfloor, hshifted]
    simp only [shift] at *
    omega
  · rw [hret]
    simp only [shift] at *
    omega
  · rw [hret]
    simp only [shift] at *
    omega

/-- **`getFloor`** of operands that are not below `-2^15`. -/
theorem getFloor_spec [Multiprecision] [Config 3] (draws : ℕ → LSBVecDraws 3 N)
    {s : Fin N → Share 3 FixedPoint} (hs : ∀ k, -(2 ^ 15 * shift) ≤ secret (s k)) :
    ∃ ret, getFloor draws s = .ok ret ∧ ∀ k, ∃ F, FloorOf (secret (s k)) (secret (ret k)) F := by
  obtain ⟨ret, hret, hgrid⟩ := getFloor_grid draws s
  refine ⟨ret, hret, fun k => ?_⟩
  have hsk := hs k
  obtain ⟨K, hK, hnear, hlow, hhigh⟩ := hgrid k (by
    simp only [shift] at *
    omega)
  have hquot : 2 ^ 16 * (K / 2 ^ 16) ≤ K ∧ K < 2 ^ 16 * (K / 2 ^ 16 + 1) := by omega
  rw [two_mul_abs_le_iff] at hK
  refine ⟨K / 2 ^ 16, hnear, hlow, hhigh, ?_, ?_⟩
  · simp only [shift] at *
    omega
  · simp only [shift] at *
    omega

end QuickMpc.Share
