import QuickMpc.BitExtraction

/-!
# QuickMpc.LessThanZero

`LTZ` and the comparison of two fixed-point shares built on it.

`LTZ(s)` scales `s` by `2^16`, adds `2^32`, and extracts the `32` low bits of the
result one by one: each round takes `y` for a whole number `M` near it, subtracts
the (approximate) parity of `M` and halves. The distance of `y` to the next whole
number is halved as well, so from the first round on it stays small enough for
`M` to be determined (`LTZLoop_spec`); the rounded parities are off by `1501`
units each, and their weighted sum by `1501 * 2^32`. Comparing that sum with the
scaled input leaves `2^32` or `0`, according to the sign (`LTZ_spec`).
-/

namespace QuickMpc.Share

open FixedPoint (shift ofInt ofDouble)

variable {n : ℕ}

/-- `FixedPoint(std::pow(2, k))`. -/
def pow2 (k : ℕ) : FixedPoint := ofDouble (2 ^ k)

theorem pow2_eq (k : ℕ) : pow2 k = ofInt (2 ^ k) := by
  rw [pow2, ← FixedPoint.ofDouble_intCast]
  push_cast
  rfl

section Code

variable [Config n]

/-- The loop of `LTZ`, with its number of remaining rounds. -/
def LTZLoop [Multiprecision] (draws : ℕ → LSBDraws n) :
    ℕ → ℕ → Share n FixedPoint → Share n FixedPoint → Run (Share n FixedPoint)
  | 0, _, z, _ => .ok z
  | rounds + 1, i, z, y => do
    let b ← getLSBShare (draws i) y
    LTZLoop draws rounds (i + 1) (z + b * pow2 i) ((y - b) * ofDouble (1 / 2))

/-- `LTZ`. -/
def LTZ [Multiprecision] (draws : ℕ → LSBDraws n) (s : Share n FixedPoint) : Run
    (Share n FixedPoint) := do
  let m := 16
  let k := 32
  let x := s * pow2 m
  let y := pow2 k + x
  let z ← getLSBShare (draws 0) y
  let y := (y - z) * ofDouble (1 / 2)
  let z ← LTZLoop draws (k - 1) 1 z y
  return (z - x) / pow2 k

/-- The decision on the opened result of `LTZ`; between the thresholds the
process exits. -/
def decideOpened (ret : FixedPoint) : Run Bool :=
  if ret.getDoubleVal > 0.95 then .ok true
  else if ret.getDoubleVal ≥ 0.5 then .error .exit
  else if ret.getDoubleVal ≥ 0.05 then .error .exit
  else .ok false

/-- `operator<(const Share<FixedPoint> &, const Share<FixedPoint> &)`. -/
def lessThan [Multiprecision] (draws : ℕ → LSBDraws n) (left right : Share n FixedPoint) :
    Run Bool := do
  let s_ltz ← LTZ draws (left - right)
  decideOpened (recons s_ltz)

end Code

/-! ### The loop -/

/-- Half of a value that is close to `M`, after its parity has been taken off,
is close to `M / 2`. -/
theorem half_close {y b : Share 3 FixedPoint} {M : ℕ} {D : ℤ} (hD : 2 * D + 3008 ≤ 2 * 60000000)
    (hy : |secret y - M * shift| ≤ D) (hb : |secret b - (M % 2 : ℕ) * shift| ≤ 1501) :
    2 * |secret ((y - b) * ofDouble (1 / 2)) - (M / 2 : ℕ) * shift| ≤ 60000000 := by
  have hhalf : |2 * secret ((y - b) * ofDouble (1 / 2)) - secret (y - b)| ≤ 3 :=
    abs_two_mul_secret_half_le (y - b)
  rw [secret_sub] at hhalf
  rw [two_mul_abs_le_iff]
  rw [abs_le] at hy hb hhalf
  simp only [shift] at *
  omega

/-- The loop adds the low bits of the whole number near `y`, weighted from
`2 ^ i` on; every bit contributes its rounding error. -/
theorem LTZLoop_spec [Multiprecision] [Config 3] (draws : ℕ → LSBDraws 3) (rounds : ℕ) :
    ∀ (i : ℕ) (z y : Share 3 FixedPoint) (M : ℕ),
      2 * |secret y - M * shift| ≤ 60000000 →
      ∃ z', LTZLoop draws rounds i z y = .ok z' ∧
        |secret z' - secret z - 2 ^ i * (M % 2 ^ rounds : ℕ) * shift|
          ≤ 1501 * 2 ^ i * (2 ^ rounds - 1) := by
  induction rounds with
  | zero =>
      intro i z y M _
      refine ⟨z, rfl, ?_⟩
      simp [Nat.mod_one]
  | succ rounds ih =>
      intro i z y M hy
      have hlow : -(5 * shift) ≤ secret y := by
        rw [two_mul_abs_le_iff] at hy
        simp only [shift] at *
        omega
      obtain ⟨b, M', hb, hM', hbit⟩ := getLSBShare_spec (draws i) hlow
      -- both whole numbers are near `y`, so they agree
      have hsame : M' = M := by
        rw [two_mul_abs_le_iff] at hy hM'
        simp only [shift] at *
        omega
      have hparity : |secret b - (M % 2 : ℕ) * shift| ≤ 1501 := by
        rw [hsame] at hbit
        exact_mod_cast hbit
      have hnext : 2 * |secret ((y - b) * ofDouble (1 / 2)) - (M / 2 : ℕ) * shift| ≤ 60000000 := by
        refine half_close (D := 30000000) (by norm_num) ?_ hparity
        rw [two_mul_abs_le_iff] at hy
        rw [abs_le]
        exact ⟨by linarith, by linarith⟩
      obtain ⟨z', hz', herr⟩ :=
        ih (i + 1) (z + b * pow2 i) ((y - b) * ofDouble (1 / 2)) (M / 2) hnext
      refine ⟨z', (Except.bind_ok hb _).trans hz', ?_⟩
      have hz : secret (z + b * pow2 i) = secret z + secret b * 2 ^ i := by
        rw [secret_add, pow2_eq, secret_mul_ofInt]
      have hmod : M % 2 ^ (rounds + 1) = M % 2 + 2 * (M / 2 % 2 ^ rounds) := by
        rw [pow_succ', Nat.mod_mul]
      have hsplit : secret z' - secret z - 2 ^ i * (M % 2 ^ (rounds + 1) : ℕ) * shift
          = (secret z' - secret (z + b * pow2 i)
              - 2 ^ (i + 1) * (M / 2 % 2 ^ rounds : ℕ) * shift)
            + 2 ^ i * (secret b - (M % 2 : ℕ) * shift) := by
        rw [hz, hmod]
        push_cast
        ring
      have hpow : (0 : ℤ) ≤ 2 ^ i := by positivity
      calc |secret z' - secret z - 2 ^ i * (M % 2 ^ (rounds + 1) : ℕ) * shift|
          ≤ |secret z' - secret (z + b * pow2 i)
                - 2 ^ (i + 1) * (M / 2 % 2 ^ rounds : ℕ) * shift|
              + |2 ^ i * (secret b - (M % 2 : ℕ) * shift)| := by
            rw [hsplit]
            exact abs_add_le _ _
        _ ≤ 1501 * 2 ^ (i + 1) * (2 ^ rounds - 1) + 2 ^ i * 1501 := by
            refine add_le_add herr ?_
            rw [abs_mul, abs_of_nonneg hpow]
            exact mul_le_mul_of_nonneg_left hparity hpow
        _ = 1501 * 2 ^ i * (2 ^ (rounds + 1) - 1) := by ring

/-! ### `LTZ` -/

/-- The stored integer of the scaled operand, in the range of `LTZ`. -/
def InRange (X : ℤ) : Prop :=
  -(2 ^ 32 * shift) < X ∧ X ≤ -shift ∨ 0 ≤ X ∧ X ≤ (2 ^ 32 - 1) * shift

/-- **`LTZ`** returns `1` for a negative and `0` for any other operand in its
range, up to `1510` units. -/
theorem LTZ_spec [Multiprecision] [Config 3] (draws : ℕ → LSBDraws 3) (s : Share 3 FixedPoint)
    (hs : InRange (secret s * 2 ^ 16)) :
    ∃ z, LTZ draws s = .ok z ∧
      |secret z - (if secret s < 0 then shift else 0)| ≤ 1510 := by
  set x := s * pow2 16 with hx
  set y := pow2 32 + x with hy
  have hX : secret x = secret s * 2 ^ 16 := by rw [hx, pow2_eq, secret_mul_ofInt]
  have hY : secret y = 2 ^ 32 * shift + secret x := by
    rw [hy, secret_value_add, denote_eq_value, pow2_eq, FixedPoint.ofInt_value]
  rw [← hX] at hs
  have hlow : -(5 * shift) ≤ secret y := by
    rw [hY]
    unfold InRange at hs
    simp only [shift] at *
    omega
  obtain ⟨z0, M, hz0, hM, hbit⟩ := getLSBShare_spec (draws 0) hlow
  rw [two_mul_abs_le_iff, hY] at hM
  have hMnonneg : 0 ≤ M := by
    unfold InRange at hs
    simp only [shift] at *
    omega
  obtain ⟨M, rfl⟩ := Int.eq_ofNat_of_zero_le hMnonneg
  have hparity : |secret z0 - (M % 2 : ℕ) * shift| ≤ 1501 := by exact_mod_cast hbit
  have hfirst : 2 * |secret ((y - z0) * ofDouble (1 / 2)) - (M / 2 : ℕ) * shift| ≤ 60000000 := by
    refine half_close (D := 50001501) (by norm_num) ?_ hparity
    rw [abs_le, hY]
    simp only [shift] at *
    omega
  obtain ⟨z, hz, herr⟩ := LTZLoop_spec draws 31 1 z0 ((y - z0) * ofDouble (1 / 2)) (M / 2) hfirst
  have hdiv : |2 ^ 32 * secret ((z - x) / pow2 32) - (secret z - secret x)| ≤ 3 * 2 ^ 32 := by
    rw [← secret_sub, pow2_eq]
    exact abs_mul_secret_div_le (by norm_num) (z - x)
  refine ⟨(z - x) / pow2 32, ?_, ?_⟩
  · exact (Except.bind_ok hz0 _).trans (Except.bind_ok hz _)
  · have hsign : secret s < 0 ↔ secret x < 0 := by
      rw [hX]
      omega
    simp only [hsign]
    rw [abs_le] at *
    unfold InRange at hs
    by_cases hneg : secret x < 0
    · -- all bits of `M` are extracted
      have hbits : M / 2 % 2 ^ 31 = M / 2 := by
        refine Nat.mod_eq_of_lt ?_
        simp only [shift] at *
        omega
      rw [if_pos hneg]
      rw [hbits] at herr
      simp only [shift] at *
      omega
    · -- the bit of weight `2 ^ 32` is left over
      have hbits : M / 2 % 2 ^ 31 = M / 2 - 2 ^ 31 := by
        simp only [shift] at *
        omega
      rw [if_neg hneg]
      rw [hbits] at herr
      simp only [shift] at *
      omega

/-! ### The comparison -/

/-- A result near `1` or `0` is decided without reaching the exits. -/
theorem decideOpened_of_close {ret : FixedPoint} {b : Bool}
    (h : |ret.getDoubleVal - (if b then 1 else 0)| < 0.05) : decideOpened ret = .ok b := by
  rw [abs_lt] at h
  unfold decideOpened
  cases b with
  | true =>
      simp only [if_true] at h
      rw [if_pos (by linarith)]
  | false =>
      simp only [Bool.false_eq_true, if_false] at h
      rw [if_neg (by linarith), if_neg (by linarith), if_neg (by linarith)]

/-- The range of the operands, in units. -/
theorem inRange_of_double {x : FixedPoint}
    (h : -2 ^ 16 < x.getDoubleVal ∧ x.getDoubleVal ≤ -(1 / 2 ^ 16) ∨
      0 ≤ x.getDoubleVal ∧ x.getDoubleVal ≤ 2 ^ 16 - 1 / 2 ^ 16) : InRange (x.value * 2 ^ 16) := by
  have hval : (x.value : ℚ) = x.getDoubleVal * 100000000 := by
    rw [FixedPoint.getDoubleVal, shift]
    push_cast
    ring
  unfold InRange
  simp only [shift]
  rcases h with ⟨hlo, hhi⟩ | ⟨hlo, hhi⟩
  · left
    constructor
    · exact_mod_cast (by rw [hval]; linarith : (-(2 ^ 32 * 100000000) : ℚ) < x.value * 2 ^ 16)
    · exact_mod_cast (by rw [hval]; linarith : (x.value * 2 ^ 16 : ℚ) ≤ -100000000)
  · right
    constructor
    · exact_mod_cast (by rw [hval]; linarith : (0 : ℚ) ≤ x.value * 2 ^ 16)
    · exact_mod_cast (by rw [hval]; linarith : (x.value * 2 ^ 16 : ℚ) ≤ (2 ^ 32 - 1) * 100000000)

theorem getDoubleVal_neg_iff {x : FixedPoint} : x.getDoubleVal < 0 ↔ x.value < 0 := by
  have hshift : (0 : ℚ) < shift := by exact_mod_cast FixedPoint.shift_pos
  rw [FixedPoint.getDoubleVal, div_lt_iff₀ hshift, zero_mul, Int.cast_lt_zero]

/-- **Secret comparison decides the order**, for three parties and operands
whose difference is in the range of `LTZ`: the result is within `0.05` of the
flag, and the comparison returns it without reaching its exits. -/
theorem lessThan_correct [Multiprecision] [Config 3] (draws : ℕ → LSBDraws 3)
    (left right : Share 3 FixedPoint) {d : ℚ} (hd : d = (recons (left - right)).getDoubleVal)
    (hrange : -2 ^ 16 < d ∧ d ≤ -(1 / 2 ^ 16) ∨ 0 ≤ d ∧ d ≤ 2 ^ 16 - 1 / 2 ^ 16) :
    ∃ z, LTZ draws (left - right) = .ok z ∧
      |(recons z).getDoubleVal - (if d < 0 then 1 else 0)| < 0.05 ∧
      lessThan draws left right = .ok (decide (d < 0)) := by
  have hneg : d < 0 ↔ secret (left - right) < 0 := by
    rw [hd, getDoubleVal_neg_iff, recons_value_fixedPoint]
  have hs : InRange (secret (left - right) * 2 ^ 16) := by
    rw [hd] at hrange
    rw [← recons_value_fixedPoint]
    exact inRange_of_double hrange
  obtain ⟨z, hz, herr⟩ := LTZ_spec draws (left - right) hs
  have hclose : |(recons z).getDoubleVal - (if d < 0 then 1 else 0)| < 0.05 := by
    have hval : (recons z).getDoubleVal = secret z / 100000000 := by
      rw [FixedPoint.getDoubleVal, recons_value_fixedPoint]
      rfl
    rw [hval]
    by_cases hd0 : d < 0
    · rw [if_pos (hneg.mp hd0), shift] at herr
      have hcast : |(secret z : ℚ) - 100000000| ≤ 1510 := by exact_mod_cast herr
      rw [abs_le] at hcast
      rw [if_pos hd0, abs_lt]
      constructor <;> norm_num <;> linarith
    · rw [if_neg (mt hneg.mpr hd0)] at herr
      have hcast : |(secret z : ℚ) - 0| ≤ 1510 := by exact_mod_cast herr
      rw [abs_le] at hcast
      rw [if_neg hd0, abs_lt]
      constructor <;> norm_num <;> linarith
  refine ⟨z, hz, hclose, ?_⟩
  rw [lessThan, hz]
  refine decideOpened_of_close ?_
  simpa using hclose

/-- Draws of one round: a first attempt that shares zero, then `r = 4`. -/
def sampleDraws : LSBDraws 3 where
  bit :=
    { draws :=
        [⟨![-1, 3, -2], by decide, ⟨![2, 0, 1], ![0, 4, 0], ![5, 5, 2], by decide⟩⟩,
          ⟨![999, -1000, 5], by decide, ⟨![2, 0, 1], ![0, 4, 0], ![5, 5, 2], by decide⟩⟩]
      accepted := ⟨_, List.mem_cons_of_mem _ List.mem_cons_self, by decide⟩ }
  r_dash := ![1, 999, 17]
  range := by decide

/-- `-1.5 < 0`, on shares of `1` and `2.5`. -/
theorem lessThan_correct_three :
    letI := threeParties
    letI := Multiprecision.plain
    ∃ z, LTZ (fun _ => sampleDraws)
        ((⟨![⟨700000000⟩, ⟨-200000000⟩, ⟨-400000000⟩]⟩ : Share 3 FixedPoint)
          - (⟨![⟨50000000⟩, ⟨300000000⟩, ⟨-100000000⟩]⟩ : Share 3 FixedPoint)) = .ok z ∧
      |(recons z).getDoubleVal - (if (-(3 / 2) : ℚ) < 0 then 1 else 0)| < 0.05 ∧
      lessThan (fun _ => sampleDraws)
        (⟨![⟨700000000⟩, ⟨-200000000⟩, ⟨-400000000⟩]⟩ : Share 3 FixedPoint)
        ⟨![⟨50000000⟩, ⟨300000000⟩, ⟨-100000000⟩]⟩ = .ok (decide ((-(3 / 2) : ℚ) < 0)) := by
  let _ := threeParties
  let _ := Multiprecision.plain
  exact lessThan_correct (fun _ => sampleDraws) _ _ (by decide +kernel)
    (.inl ⟨by norm_num, by norm_num⟩)

end QuickMpc.Share
