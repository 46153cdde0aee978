import Mathlib.NumberTheory.LegendreSymbol.Basic
import QuickMpc.PrimeField.Checked

/-!
# QuickMpc.PrimeField.SquareRoot

`modsqrt` with the checks of `checked_uint128_t`, and with its `while` loop.

The loop has no bound in the source; `none` says here that it is not over after the rounds
allowed. With `p - 1 = Q * 2 ^ 2` it is over after one round: `t` is `1` or `-1` for a
square, and for anything else no power of it is `1` and `M - i - 1` goes below zero
(`modsqrt_total`).
-/

namespace QuickMpc.PrimeField.Checked

/-! ### Model -/

/-- `p - 1 = Q * 2 ^ S`. -/
def Q : ℕ := 4611686018427387889

def S : ℕ := 2

/-- The initial `c` of the loop. -/
def c₀ : ℕ := 2296021864060584341

/-- The `for` loop from `i` on; it has at most `M` rounds. -/
def orderSearch (M : ℕ) : ℕ → ℕ → ℕ → Run ℕ
  | 0, i, _ => .ok i
  | fuel + 1, i, t2 =>
    if i < M then do
      let t2 ← times t2 t2
      if t2 = 1 then return i else orderSearch M fuel (i + 1) t2
    else .ok i

/-- The variables of the `while` loop. -/
structure Vars where
  c : ℕ
  R : ℕ
  t : ℕ
  M : ℕ

/-- One round of the `while` loop. -/
def round (v : Vars) : Run Vars := do
  let i ← orderSearch v.M v.M 1 v.t
  let m ← sub v.M i
  let m ← sub m 1
  let e ← modpow 1 m
  let b ← modpow v.c e
  let R ← times v.R b
  let tb ← times v.t b
  let t ← times tb b
  let c ← times b b
  return ⟨c, R, t, i⟩

/-- The `while` loop; `none` when it is not over after `fuel` rounds. -/
def modsqrtLoop : ℕ → Vars → Option (Run ℕ)
  | 0, v => if v.t = 1 then some (.ok v.R) else none
  | fuel + 1, v =>
    if v.t = 1 then some (.ok v.R)
    else
      match round v with
      | .ok v => modsqrtLoop fuel v
      | .error e => some (.error e)

/-- What `modsqrt` sets before the loop. -/
def start (n : ℕ) : Run Vars := do
  let q ← add Q 1
  let R ← modpow n (q / 2)
  let t ← modpow n Q
  return ⟨c₀, R, t, S⟩

/-- The root that is returned. -/
def canonical (R : ℕ) : Run PrimeField :=
  if R ≤ p / 2 then construct R
  else do
    let R ← sub p R
    construct R

/-- `modsqrt(x)`. -/
def modsqrt (fuel : ℕ) (x : PrimeField) : Option (Run PrimeField) :=
  match start x.value with
  | .error e => some (.error e)
  | .ok v => (modsqrtLoop fuel v).map fun R => R >>= canonical

/-! ### The constants -/

theorem Q_two_pow : p - 1 = Q * 2 ^ S := by norm_num [p, Q, S]

theorem c₀_eq : c₀ = 2 ^ Q % p := by
  have h : PrimeField.modpow 2 Q = c₀ := by decide +kernel
  rw [← h, modpow_eq (by norm_num [Q])]

theorem two_not_isSquare : ¬IsSquare (2 : ZMod p) := by
  rintro ⟨y, hy⟩
  have hc : (c₀ : ZMod p) = 2 ^ Q := by
    rw [c₀_eq, ZMod.natCast_mod]
    push_cast
    rfl
  have hyne : y ≠ 0 := by
    rintro rfl
    have htwo : ((2 : ℕ) : ZMod p) = 0 := by
      push_cast
      rw [hy, mul_zero]
    exact absurd ((natCast_eq_zero_iff (by norm_num [p])).mp htwo) (by norm_num)
  -- `c² = 2 ^ (2 Q)` would be `y ^ (p - 1)`
  have hone : (c₀ : ZMod p) * c₀ = 1 := by
    rw [hc, hy, ← ZMod.pow_card_sub_one_eq_one hyne, Q_two_pow, S]
    ring
  have hneg : (c₀ : ZMod p) * c₀ = -1 := by
    have h := nonresidue_sq
    exact_mod_cast h
  have hp : Fact (2 < p) := ⟨by norm_num [p]⟩
  exact ZMod.neg_one_ne_one (hneg.symm.trans hone)

/-! ### One round -/

theorem orderSearch_eq (M : ℕ) : ∀ (fuel i : ℕ) {t2 : ℕ}, t2 ≤ p →
    orderSearch M fuel i t2 = .ok (PrimeField.orderSearch M fuel i t2) := by
  intro fuel
  induction fuel with
  | zero => exact fun _ _ _ => rfl
  | succ fuel ih =>
      intro i t2 ht2
      rw [orderSearch, PrimeField.orderSearch]
      by_cases hi : i < M
      · rw [if_pos hi, if_pos hi, Except.bind_ok (times_ok ht2 ht2)]
        dsimp only
        split
        · rfl
        · exact ih (i + 1) (mod_p_le _)
      · rw [if_neg hi, if_neg hi]

/-- For `t = -1` the round multiplies `R` by `c`, and `t` becomes `1`. -/
theorem round_neg_one {R : ℕ} (hR : R ≤ p) :
    round ⟨c₀, R, p - 1, S⟩ = .ok ⟨c₀ * c₀ % p, R * c₀ % p, 1, 1⟩ := by
  have hle : p - 1 ≤ p := Nat.sub_le _ _
  have hc : c₀ ≤ p := by norm_num [c₀, p]
  have hsearch : orderSearch S S 1 (p - 1) = .ok 1 := by
    rw [orderSearch_eq S S 1 hle]
    decide +kernel
  have hm : sub S 1 = .ok 1 := rfl
  have hm' : sub 1 1 = .ok 0 := rfl
  have he : modpow 1 0 = .ok 1 := rfl
  have hb : modpow c₀ 1 = .ok c₀ := by
    rw [modpow_ok hc]
    decide +kernel
  have ht : times ((p - 1) * c₀ % p) c₀ = .ok 1 := by
    rw [times_ok (mod_p_le _) hc]
    decide +kernel
  rw [round, Except.bind_ok hsearch, Except.bind_ok hm, Except.bind_ok hm', Except.bind_ok he,
    Except.bind_ok hb, Except.bind_ok (times_ok hR hc), Except.bind_ok (times_ok hle hc),
    Except.bind_ok ht, Except.bind_ok (times_ok hc hc)]
  rfl

/-- When `t²` is not `1`, the subtraction `M - i - 1` goes below zero. -/
theorem round_rangeError {R t : ℕ} (ht : t ≤ p) (hsq : t * t % p ≠ 1) :
    round ⟨c₀, R, t, S⟩ = .error .rangeError := by
  have hsearch : orderSearch S S 1 t = .ok S := by
    rw [orderSearch_eq S S 1 ht]
    simp [PrimeField.orderSearch, S, hsq]
  have hm : sub S S = .ok 0 := rfl
  rw [round, Except.bind_ok hsearch, Except.bind_ok hm]
  rfl

/-! ### The loop -/

theorem start_eq {n : ℕ} (hn : n ≤ p) :
    start n = .ok ⟨c₀, PrimeField.modpow n ((Q + 1) / 2), PrimeField.modpow n Q, S⟩ := by
  have hq : add Q 1 = .ok (Q + 1) := by decide
  rw [start, Except.bind_ok hq, Except.bind_ok (modpow_ok hn _), Except.bind_ok (modpow_ok hn _)]
  rfl

theorem modpow_le (a : ℕ) {b : ℕ} (hb : b < 2 ^ 128) : PrimeField.modpow a b ≤ p := by
  rw [modpow_eq hb]
  exact mod_p_le _

theorem modsqrtLoop_one (fuel : ℕ) {v : Vars} (ht : v.t = 1) :
    modsqrtLoop fuel v = some (.ok v.R) := by
  cases fuel <;> simp [modsqrtLoop, ht]

theorem canonical_eq {R : ℕ} (hR : R ≤ p) :
    canonical R = .ok (if R ≤ p / 2 then ofNat R else ofNat (p - R)) := by
  unfold canonical
  split
  · exact construct_natCast hR
  · rw [Except.bind_ok (sub_ok hR)]
    exact construct_natCast (Nat.sub_le _ _)

/-- For `t = 1` and `t = -1` the loop is over after at most one round, with the root of the
unchecked one. -/
theorem modsqrtLoop_eq (fuel : ℕ) {R t : ℕ} (hR : R ≤ p) (ht : t = 1 ∨ t = p - 1) :
    ∃ R' ≤ p, modsqrtLoop (fuel + 1) ⟨c₀, R, t, S⟩ = some (.ok R')
      ∧ PrimeField.modsqrtLoop S c₀ R t S = .ok R' := by
  rcases ht with rfl | rfl
  · exact ⟨R, hR, modsqrtLoop_one _ rfl, PrimeField.modsqrtLoop_one _ _ _ _⟩
  · refine ⟨R * c₀ % p, mod_p_le _, ?_, PrimeField.modsqrtLoop_neg_one R⟩
    have hne : ¬p - 1 = 1 := by norm_num [p]
    rw [modsqrtLoop, if_neg hne, round_neg_one hR]
    exact modsqrtLoop_one fuel rfl

section Root

variable (x : PrimeField) (fuel : ℕ)

/-- The residue of `t * t`, for the `t` before the loop. -/
theorem natCast_t_sq :
    ((PrimeField.modpow x.value Q : ℕ) : ZMod p) * (PrimeField.modpow x.value Q : ℕ)
      = toZMod x ^ (p / 2) := by
  rw [natCast_modpow (by norm_num [Q]), ← pow_add]
  rfl

/-- Euler's criterion, as the loop meets it. -/
theorem t_sq_eq_one_iff :
    ((PrimeField.modpow x.value Q : ℕ) : ZMod p) * (PrimeField.modpow x.value Q : ℕ) = 1
      ↔ toZMod x ≠ 0 ∧ IsSquare (toZMod x) := by
  rw [natCast_t_sq]
  by_cases hx : toZMod x = 0
  · rw [hx, zero_pow (by norm_num [p])]
    simp
  · rw [← ZMod.euler_criterion p hx]
    exact (and_iff_right hx).symm

theorem t_lt : PrimeField.modpow x.value Q < p := by
  rw [modpow_eq (by norm_num [Q])]
  exact Nat.mod_lt _ p_pos

/-- A square: `t` is `1` or `-1`. -/
theorem t_eq (h : toZMod x ≠ 0 ∧ IsSquare (toZMod x)) :
    PrimeField.modpow x.value Q = 1 ∨ PrimeField.modpow x.value Q = p - 1 := by
  rcases mul_self_eq_one_iff.mp ((t_sq_eq_one_iff x).mpr h) with h | h
  · left
    have hval : ((PrimeField.modpow x.value Q : ℕ) : ZMod p) = ((1 : ℕ) : ZMod p) := by
      rw [h, Nat.cast_one]
    rw [ZMod.natCast_eq_natCast_iff', Nat.mod_eq_of_lt (t_lt x)] at hval
    exact hval
  · right
    have hval : ((PrimeField.modpow x.value Q : ℕ) : ZMod p) = ((p - 1 : ℕ) : ZMod p) := by
      rw [h, Nat.cast_sub p_pos, ZMod.natCast_self, Nat.cast_one, zero_sub]
    rw [ZMod.natCast_eq_natCast_iff', Nat.mod_eq_of_lt (t_lt x)] at hval
    rw [hval]
    norm_num [p]

theorem modsqrt_eq (h : toZMod x ≠ 0 ∧ IsSquare (toZMod x)) :
    modsqrt (fuel + 1) x = some (PrimeField.modsqrt x) := by
  obtain ⟨R, hR, hloop, hloop'⟩ := modsqrtLoop_eq fuel
    (modpow_le x.value (b := (Q + 1) / 2) (by norm_num [Q])) (t_eq x h)
  have hsame : PrimeField.modsqrt x
      = .ok (if R ≤ p / 2 then ofNat R else ofNat (p - R)) := by
    rw [PrimeField.modsqrt]
    show (PrimeField.modsqrtLoop S c₀ (PrimeField.modpow x.value ((Q + 1) / 2))
      (PrimeField.modpow x.value Q) S >>= _) = _
    rw [Except.bind_ok hloop']
    split <;> rfl
  rw [modsqrt, start_eq x.le_p]
  dsimp only
  rw [hloop, hsame, ← canonical_eq hR]
  rfl

theorem modsqrt_rangeError (h : ¬(toZMod x ≠ 0 ∧ IsSquare (toZMod x))) :
    modsqrt (fuel + 1) x = some (.error .rangeError) := by
  rw [← t_sq_eq_one_iff] at h
  have hsq : PrimeField.modpow x.value Q * PrimeField.modpow x.value Q % p ≠ 1 := by
    intro hone
    refine h ?_
    rw [← Nat.cast_mul, ← ZMod.natCast_mod, hone, Nat.cast_one]
  have hne : ¬PrimeField.modpow x.value Q = 1 := by
    intro hone
    refine h ?_
    rw [hone, Nat.cast_one, mul_one]
  rw [modsqrt, start_eq x.le_p]
  dsimp only
  rw [modsqrtLoop, if_neg hne, round_rangeError (t_lt x).le hsq]
  rfl

end Root

/-- **`modsqrt` is total on squares, and canonical.** However many rounds are allowed after
the first, a square of `[1, p)` has its root at most `p / 2` returned, and for anything else
the checked subtraction raises. -/
theorem modsqrt_total (fuel : ℕ) (x : PrimeField) :
    (1 ≤ x.value → x.value < p → IsSquare (toZMod x) →
        ∃ y, modsqrt (fuel + 1) x = some (.ok y) ∧ toZMod y * toZMod y = toZMod x
          ∧ y.value ≤ p / 2)
      ∧ (toZMod x = 0 ∨ ¬IsSquare (toZMod x) →
        modsqrt (fuel + 1) x = some (.error .rangeError))
      ∧ p - 1 = Q * 2 ^ S ∧ c₀ = 2 ^ Q % p ∧ ¬IsSquare (2 : ZMod p) := by
  refine ⟨fun hpos hlt hsq => ?_, fun hnot => ?_, Q_two_pow, c₀_eq, two_not_isSquare⟩
  · have hne : toZMod x ≠ 0 := by
      rw [toZMod, ne_eq, natCast_eq_zero_iff hlt]
      omega
    obtain ⟨y, hy⟩ := hsq
    have hyne : y ≠ 0 := by
      rintro rfl
      exact hne (by rw [hy, mul_zero])
    obtain ⟨r, hr, hle, -, hroot⟩ := modsqrt_square hyne hy
    exact ⟨r, by rw [modsqrt_eq x fuel ⟨hne, y, hy⟩, hr], hroot, hle⟩
  · refine modsqrt_rangeError x fuel fun h => ?_
    rcases hnot with hzero | hnsq
    · exact h.1 hzero
    · exact hnsq h.2

/-- The root of `4`, and no root of `0`. -/
theorem modsqrt_total_four :
    (∃ y, modsqrt 1 (ofNat 4) = some (.ok y) ∧ toZMod y * toZMod y = toZMod (ofNat 4)
      ∧ y.value ≤ p / 2) ∧ modsqrt 1 0 = some (.error .rangeError) := by
  have hfour : (ofNat 4).value = 4 := ofNat_value_of_lt (by norm_num [p])
  refine ⟨(modsqrt_total 0 (ofNat 4)).1 ?_ ?_ ⟨2, ?_⟩, (modsqrt_total 0 0).2.1 (.inl toZMod_zero)⟩
  · rw [hfour]
    norm_num
  · rw [hfour]
    norm_num [p]
  · rw [toZMod_ofNat]
    norm_num

end QuickMpc.PrimeField.Checked
