import Mathlib.Data.Fin.VecNotation
import QuickMpc.Floor
import QuickMpc.ShareVector

/-!
# QuickMpc.MeshCode

`MeshCodeFunction::meshcode_transform`: the digits of the mesh cell a point lies in, out of
ten floors. Each floor but the first of a coordinate is taken of what the last one left,
times the number of parts the cell is divided into next. A decimal such as `"7.5"` is
`ofDouble` of the number that it spells.

A vector is divided by multiplying with a rounded reciprocal, which for `5` may fall short
though it comes out even, and `getFloor` is only nearly a floor, so a residue may be a few
units below zero. It is never a few units below one (`FloorOf`), which is why no digit leaves
its range (`getFloor_next`). The errors of the five digits of a coordinate add up to less than
a hundredth of the cell, which can put the point into the next cell, but not further
(`MeshDigits`, `meshcode_transform_in_place`).
-/

namespace QuickMpc.Share

open FixedPoint (shift ofInt ofDouble stdRound)

variable {n N : ℕ}

/-- What the five calls of `getFloor` for each coordinate draw. -/
structure MeshDraws (n N : ℕ) where
  latitude : Fin 5 → ℕ → LSBVecDraws n N
  longitude : Fin 5 → ℕ → LSBVecDraws n N

section Code

variable [Config n]

/-- The first half of `meshcode_transform`: `p`, `q`, `r`, `s` and `t`. -/
def latitudeFloors [Multiprecision] (draws : Fin 5 → ℕ → LSBVecDraws n N)
    (latitude : Fin N → Share n FixedPoint) :
    Run (Fin 5 → Fin N → Share n FixedPoint) := do
  let p ← getFloor (draws 0) fun k => ofDouble (3 / 2) * latitude k
  let a := fun k => ofDouble 60 * latitude k - ofDouble 40 * p k
  let q ← getFloor (draws 1) (divVec a (ofDouble 5))
  let b := fun k => a k - ofDouble 5 * q k
  let r ← getFloor (draws 2) fun k => ofDouble 2 * b k
  let c := fun k => ofDouble 60 * b k - ofDouble 30 * r k
  let s ← getFloor (draws 3) (divVec c (ofDouble 15))
  let d := fun k => c k - ofDouble 15 * s k
  let t ← getFloor (draws 4) (divVec d (ofDouble (15 / 2)))
  return ![p, q, r, s, t]

/-- The second half of `meshcode_transform`: `u`, `v`, `w`, `x` and `y`. -/
def longitudeFloors [Multiprecision] (draws : Fin 5 → ℕ → LSBVecDraws n N)
    (longitude : Fin N → Share n FixedPoint) : Run (Fin 5 → Fin N → Share n FixedPoint) := do
  let u ← getFloor (draws 0) fun k => longitude k + -ofDouble 100
  let f := fun k => longitude k + -ofDouble 100 - u k
  let v ← getFloor (draws 1) fun k => ofDouble 8 * f k
  let g := fun k => ofDouble 60 * f k - ofDouble (15 / 2) * v k
  let w ← getFloor (draws 2) (divVec (fun k => ofDouble 60 * g k) (ofDouble 45))
  let h := fun k => ofDouble 60 * g k - ofDouble 45 * w k
  let x ← getFloor (draws 3) (divVec h (ofDouble (45 / 2)))
  let i := fun k => h k - ofDouble (45 / 2) * x k
  let y ← getFloor (draws 4) (divVec i (ofDouble (45 / 4)))
  return ![u, v, w, x, y]

/-- `meshcode_transform`. -/
def meshcode_transform [Multiprecision] (draws : MeshDraws n N)
    (latitude longitude : Fin N → Share n FixedPoint) :
    Run (Fin N → List (Share n FixedPoint)) := do
  let pqrst ← latitudeFloors draws.latitude latitude
  let uvwxy ← longitudeFloors draws.longitude longitude
  let m := fun k => pqrst 3 k * ofDouble 2 + (uvwxy 3 k + ofDouble 1)
  let n := fun k => pqrst 4 k * ofDouble 2 + (uvwxy 4 k + ofDouble 1)
  return fun k => [pqrst 0 k, uvwxy 0 k, pqrst 1 k, uvwxy 1 k, pqrst 2 k, uvwxy 2 k, m k, n k]

end Code

/-! ### One floor after the other -/

/-- The floor of what the last floor left, in `R` parts, is a digit for the radix `R`. -/
theorem getFloor_next [Multiprecision] [Config 3] (draws : ℕ → LSBVecDraws 3 N) {x d F : Fin N → ℤ}
    {R : ℤ} {s : Fin N → Share 3 FixedPoint} (hR : 2 ≤ R ∧ R ≤ 10)
    (hx : ∀ k, FloorOf (x k) (d k) (F k)) (hs : ∀ k, |secret (s k) - R * (x k - d k)| ≤ 500) :
    ∃ ret, getFloor draws s = .ok ret ∧ ∃ F' : Fin N → ℤ, ∀ k,
      FloorOf (secret (s k)) (secret (ret k)) (F' k) ∧ 0 ≤ F' k ∧ F' k < R := by
  have hrange : ∀ k, -550 ≤ secret (s k) ∧ secret (s k) ≤ R * shift - 2540 := by
    intro k
    have hlow : R * -5 ≤ R * (x k - d k) :=
      mul_le_mul_of_nonneg_left (hx k).rest_low (by linarith)
    have hhigh : R * (x k - d k) ≤ R * (shift - 1520) :=
      mul_le_mul_of_nonneg_left (hx k).rest_high (by linarith)
    have hsk := abs_le.mp (hs k)
    exact ⟨by linarith, by linarith⟩
  obtain ⟨ret, hret, hfloor⟩ := getFloor_spec draws (s := s) (by
    intro k
    have hlow := (hrange k).1
    simp only [shift]
    linarith)
  choose F' hF' using hfloor
  refine ⟨ret, hret, F', fun k => ⟨hF' k, ?_, ?_⟩⟩
  · have hlow := (hrange k).1
    have hhigh := (hF' k).high
    simp only [shift] at *
    omega
  · have hhigh := (hrange k).2
    have hlow := (hF' k).low
    simp only [shift] at *
    omega

/-- What the five floors of a coordinate are together: `d` is nearly whole, the digits of the
parts are in range, and the number they spell is nearly that of the cell with `x` in it. -/
structure MeshDigits (x : ℤ) (d F : Fin 5 → ℤ) : Prop where
  near : ∀ i, |d i - F i * shift| ≤ 2267
  eighth : 0 ≤ F 1 ∧ F 1 < 8
  tenth : 0 ≤ F 2 ∧ F 2 < 10
  half : 0 ≤ F 3 ∧ F 3 < 2
  quarter : 0 ≤ F 4 ∧ F 4 < 2
  low : (320 * F 0 + 40 * F 1 + 4 * F 2 + 2 * F 3 + F 4) * shift - 855494 ≤ 320 * x
  high : 320 * x ≤ (320 * F 0 + 40 * F 1 + 4 * F 2 + 2 * F 3 + F 4 + 1) * shift + 855494

theorem meshDigits_of_floors {x d F : Fin 5 → ℤ} (floors : ∀ i, FloorOf (x i) (d i) (F i))
    (eighth : |x 1 - 8 * (x 0 - d 0)| ≤ 500 ∧ 0 ≤ F 1 ∧ F 1 < 8)
    (tenth : |x 2 - 10 * (x 1 - d 1)| ≤ 500 ∧ 0 ≤ F 2 ∧ F 2 < 10)
    (half : |x 3 - 2 * (x 2 - d 2)| ≤ 500 ∧ 0 ≤ F 3 ∧ F 3 < 2)
    (quarter : |x 4 - 2 * (x 3 - d 3)| ≤ 500 ∧ 0 ≤ F 4 ∧ F 4 < 2) : MeshDigits (x 0) d F := by
  obtain ⟨h0, h0'⟩ := abs_le.mp (floors 0).near
  obtain ⟨h1, h1'⟩ := abs_le.mp (floors 1).near
  obtain ⟨h2, h2'⟩ := abs_le.mp (floors 2).near
  obtain ⟨h3, h3'⟩ := abs_le.mp (floors 3).near
  obtain ⟨h4, h4'⟩ := abs_le.mp (floors 4).near
  obtain ⟨e1, e1'⟩ := abs_le.mp eighth.1
  obtain ⟨e2, e2'⟩ := abs_le.mp tenth.1
  obtain ⟨e3, e3'⟩ := abs_le.mp half.1
  obtain ⟨e4, e4'⟩ := abs_le.mp quarter.1
  have hrest_low := (floors 4).rest_low
  have hrest_high := (floors 4).rest_high
  refine ⟨fun i => (floors i).near, eighth.2, tenth.2, half.2, quarter.2, ?_, ?_⟩
  · linarith
  · linarith

/-! ### The factors -/

theorem secret_ofNat_mul (k : ℕ) [k.AtLeastTwo] (x : Share n FixedPoint) :
    secret (ofDouble (OfNat.ofNat k) * x) = OfNat.ofNat k * secret x := by
  rw [FixedPoint.ofDouble_ofNat, mul_comm]
  exact secret_mul_ofInt x (OfNat.ofNat k)

/-- A factor that is not whole is rounded by every party. -/
theorem secret_mul_near {c : FixedPoint} {v : ℤ} (hc : c.value = v) (x : Share 3 FixedPoint) :
    |shift * secret (x * c) - secret x * v| ≤ 3 * (shift - 1) := by
  rw [← hc]
  exact abs_shift_mul_secret_mul_value_sub_le x c

/-- The divisor is turned into a rounded reciprocal before. -/
theorem secret_div_near [Multiprecision] {q : ℚ} {k v : ℤ} (hk : q * shift = k)
    (hrest : (shift * shift).tmod k ≠ 0) (hv : (shift * shift).tdiv k = v)
    (x : Share 3 FixedPoint) :
    |shift * secret (x * (ofDouble 1 / ofDouble q)) - secret x * v| ≤ 3 * (shift - 1) := by
  refine secret_mul_near ?_ x
  rw [FixedPoint.div_value, FixedPoint.ofDouble_one_value, FixedPoint.ofDouble_value hk,
    FixedPoint.quot_of_tmod_ne_zero hrest, hv]

/-- A fifth, which the library may leave a unit short. -/
theorem fifth_value [Multiprecision] :
    (ofDouble 1 / ofDouble 5).value = 20000000 ∨ (ofDouble 1 / ofDouble 5).value = 19999999 := by
  have h := FixedPoint.abs_sub_mul_quot_le (b := 500000000) (by norm_num) shift
  have hnonneg := nonneg_of_mul_nonneg_left
    (FixedPoint.sub_mul_quot_mul_nonneg shift 500000000) FixedPoint.shift_pos
  rw [FixedPoint.div_value, FixedPoint.ofDouble_one_value,
    FixedPoint.ofDouble_value (k := 500000000) (by norm_num [shift])]
  rw [abs_of_nonneg hnonneg, abs_of_pos (by norm_num)] at h
  simp only [shift] at *
  omega

/-! ### Five floors -/

/-- A vector of floors. -/
def Floored (s ret : Fin N → Share 3 FixedPoint) : Prop :=
  ∀ k, ∃ F, FloorOf (secret (s k)) (secret (ret k)) F

/-- The floors of a coordinate, each but the first of what the last one left: in eighths, in
tenths, in halves and in halves of these. -/
theorem floors_spec [Multiprecision] [Config 3] (draws : Fin 5 → ℕ → LSBVecDraws 3 N)
    (s0 : Fin N → Share 3 FixedPoint)
    (s1 : (Fin N → Share 3 FixedPoint) → Fin N → Share 3 FixedPoint)
    (s2 : (Fin N → Share 3 FixedPoint) → (Fin N → Share 3 FixedPoint) →
      Fin N → Share 3 FixedPoint)
    (s3 : (Fin N → Share 3 FixedPoint) → (Fin N → Share 3 FixedPoint) →
      (Fin N → Share 3 FixedPoint) → Fin N → Share 3 FixedPoint)
    (s4 : (Fin N → Share 3 FixedPoint) → (Fin N → Share 3 FixedPoint) →
      (Fin N → Share 3 FixedPoint) → (Fin N → Share 3 FixedPoint) → Fin N → Share 3 FixedPoint)
    (first : ∀ k, -shift ≤ secret (s0 k))
    (eighth : ∀ p, Floored s0 p → ∀ k,
      |secret (s1 p k) - 8 * (secret (s0 k) - secret (p k))| ≤ 500)
    (tenth : ∀ p q, Floored s0 p → Floored (s1 p) q → ∀ k,
      |secret (s2 p q k) - 10 * (secret (s1 p k) - secret (q k))| ≤ 500)
    (half : ∀ p q r, Floored s0 p → Floored (s1 p) q → Floored (s2 p q) r → ∀ k,
      |secret (s3 p q r k) - 2 * (secret (s2 p q k) - secret (r k))| ≤ 500)
    (quarter : ∀ p q r s, Floored s0 p → Floored (s1 p) q → Floored (s2 p q) r →
      Floored (s3 p q r) s → ∀ k,
        |secret (s4 p q r s k) - 2 * (secret (s3 p q r k) - secret (s k))| ≤ 500) :
    ∃ ret, (do
        let p ← getFloor (draws 0) s0
        let q ← getFloor (draws 1) (s1 p)
        let r ← getFloor (draws 2) (s2 p q)
        let s ← getFloor (draws 3) (s3 p q r)
        let t ← getFloor (draws 4) (s4 p q r s)
        return ![p, q, r, s, t] : Run (Fin 5 → Fin N → Share 3 FixedPoint)) = .ok ret ∧
      ∀ k, ∃ F : Fin 5 → ℤ, MeshDigits (secret (s0 k)) (fun i => secret (ret i k)) F := by
  obtain ⟨p, hp, hP⟩ := getFloor_spec (draws 0) (s := s0) (by
    intro k
    have hk := first k
    simp only [shift] at *
    omega)
  have hpf : Floored s0 p := hP
  choose P hP using hP
  obtain ⟨q, hq, Q, hQ⟩ := getFloor_next (draws 1) (by norm_num) hP (eighth p hpf)
  have hqf : Floored (s1 p) q := fun k => ⟨Q k, (hQ k).1⟩
  obtain ⟨r, hr, R, hR⟩ := getFloor_next (draws 2) (by norm_num) (fun k => (hQ k).1)
    (tenth p q hpf hqf)
  have hrf : Floored (s2 p q) r := fun k => ⟨R k, (hR k).1⟩
  obtain ⟨s, hs, S, hS⟩ := getFloor_next (draws 3) (by norm_num) (fun k => (hR k).1)
    (half p q r hpf hqf hrf)
  have hsf : Floored (s3 p q r) s := fun k => ⟨S k, (hS k).1⟩
  obtain ⟨t, ht, T, hT⟩ := getFloor_next (draws 4) (by norm_num) (fun k => (hS k).1)
    (quarter p q r s hpf hqf hrf hsf)
  refine ⟨![p, q, r, s, t], ?_, fun k => ⟨![P k, Q k, R k, S k, T k], ?_⟩⟩
  · refine (Except.bind_ok hp _).trans ?_
    refine (Except.bind_ok hq _).trans ?_
    refine (Except.bind_ok hr _).trans ?_
    refine (Except.bind_ok hs _).trans ?_
    exact Except.bind_ok ht _
  · refine meshDigits_of_floors (x := ![secret (s0 k), secret (s1 p k), secret (s2 p q k),
      secret (s3 p q r k), secret (s4 p q r s k)]) ?_ ?_ ?_ ?_ ?_
    · intro i
      fin_cases i
      exacts [hP k, (hQ k).1, (hR k).1, (hS k).1, (hT k).1]
    · exact ⟨eighth p hpf k, (hQ k).2⟩
    · exact ⟨tenth p q hpf hqf k, (hR k).2⟩
    · exact ⟨half p q r hpf hqf hrf k, (hS k).2⟩
    · exact ⟨quarter p q r s hpf hqf hrf hsf k, (hT k).2⟩

/-! ### The latitude -/

section Latitude

variable {latitude p q r s : Share 3 FixedPoint} {P R S : ℤ}

theorem latitude_scaled (latitude : Share 3 FixedPoint) :
    |2 * secret (ofDouble (3 / 2) * latitude) - 3 * secret latitude| ≤ 5 := by
  have h : |shift * secret (ofDouble (3 / 2) * latitude) - secret latitude * 150000000|
      ≤ 3 * (shift - 1) :=
    secret_mul_near (FixedPoint.ofDouble_value (by norm_num [shift])) latitude
  rw [abs_le] at h ⊢
  simp only [shift] at *
  omega

/-- `a`, the rest in minutes, of which five are an eighth. -/
def minutes (latitude p : Share 3 FixedPoint) : Share 3 FixedPoint :=
  ofDouble 60 * latitude - ofDouble 40 * p

theorem latitude_fifth [Multiprecision]
    (hP : FloorOf (secret (ofDouble (3 / 2) * latitude)) (secret p) P) :
    |5 * secret (minutes latitude p * (ofDouble 1 / ofDouble 5)) - secret (minutes latitude p)|
      ≤ 215 := by
  have hscaled := abs_le.mp (latitude_scaled latitude)
  have hlow := hP.rest_low
  have hhigh := hP.rest_high
  have hminutes : secret (minutes latitude p) = 60 * secret latitude - 40 * secret p := by
    rw [minutes, secret_sub, secret_ofNat_mul, secret_ofNat_mul]
  rcases fifth_value with hfifth | hfifth
  · have hdiv := abs_le.mp (secret_mul_near hfifth (minutes latitude p))
    rw [hminutes] at *
    rw [abs_le]
    simp only [shift] at *
    omega
  · have hdiv := abs_le.mp (secret_mul_near hfifth (minutes latitude p))
    rw [hminutes] at *
    rw [abs_le]
    simp only [shift] at *
    omega

theorem latitude_eighth [Multiprecision]
    (hP : FloorOf (secret (ofDouble (3 / 2) * latitude)) (secret p) P) :
    |secret (minutes latitude p * (ofDouble 1 / ofDouble 5))
      - 8 * (secret (ofDouble (3 / 2) * latitude) - secret p)| ≤ 500 := by
  have hscaled := latitude_scaled latitude
  have hfifth := latitude_fifth hP
  have hminutes : secret (minutes latitude p) = 60 * secret latitude - 40 * secret p := by
    rw [minutes, secret_sub, secret_ofNat_mul, secret_ofNat_mul]
  rw [hminutes] at hfifth
  rw [abs_le] at *
  omega

theorem latitude_tenth [Multiprecision]
    (hP : FloorOf (secret (ofDouble (3 / 2) * latitude)) (secret p) P) :
    |secret (ofDouble 2 * (minutes latitude p - ofDouble 5 * q))
      - 10 * (secret (minutes latitude p * (ofDouble 1 / ofDouble 5)) - secret q)| ≤ 500 := by
  have hfifth := latitude_fifth hP
  rw [secret_ofNat_mul, secret_sub, secret_ofNat_mul]
  rw [abs_le] at *
  omega

/-- `c`, the rest in seconds, of which fifteen are a half; `b` is what `q` leaves. -/
def seconds (b r : Share 3 FixedPoint) : Share 3 FixedPoint := ofDouble 60 * b - ofDouble 30 * r

theorem secret_seconds (b r : Share 3 FixedPoint) :
    secret (seconds b r) = 30 * (secret (ofDouble 2 * b) - secret r) := by
  rw [seconds, secret_sub, secret_ofNat_mul, secret_ofNat_mul, secret_ofNat_mul]
  ring

theorem latitude_fifteenth [Multiprecision] {b : Share 3 FixedPoint}
    (hR : FloorOf (secret (ofDouble 2 * b)) (secret r) R) :
    |15 * secret (seconds b r * (ofDouble 1 / ofDouble 15)) - secret (seconds b r)| ≤ 345 := by
  have hdiv := secret_div_near (k := 1500000000) (v := 6666666) (q := 15)
    (by norm_num [shift]) (by decide) (by decide) (seconds b r)
  have hlow := hR.rest_low
  have hhigh := hR.rest_high
  rw [secret_seconds] at hdiv ⊢
  rw [abs_le] at hdiv ⊢
  simp only [shift] at *
  omega

theorem latitude_half [Multiprecision] {b : Share 3 FixedPoint}
    (hR : FloorOf (secret (ofDouble 2 * b)) (secret r) R) :
    |secret (seconds b r * (ofDouble 1 / ofDouble 15)) - 2 * (secret (ofDouble 2 * b) - secret r)|
      ≤ 500 := by
  have h := latitude_fifteenth hR
  rw [secret_seconds] at h
  rw [abs_le] at h ⊢
  omega

theorem latitude_quarter [Multiprecision] {b : Share 3 FixedPoint}
    (hR : FloorOf (secret (ofDouble 2 * b)) (secret r) R)
    (hS : FloorOf (secret (seconds b r * (ofDouble 1 / ofDouble 15))) (secret s) S) :
    |secret ((seconds b r - ofDouble 15 * s) * (ofDouble 1 / ofDouble (15 / 2)))
      - 2 * (secret (seconds b r * (ofDouble 1 / ofDouble 15)) - secret s)| ≤ 500 := by
  have h := latitude_fifteenth hR
  have hdiv := secret_div_near (k := 750000000) (v := 13333333) (q := 15 / 2)
    (by norm_num [shift]) (by decide) (by decide) (seconds b r - ofDouble 15 * s)
  have hlow := hS.rest_low
  have hhigh := hS.rest_high
  rw [secret_sub, secret_ofNat_mul] at hdiv
  rw [abs_le] at h hdiv ⊢
  simp only [shift] at *
  omega

end Latitude

theorem latitudeFloors_spec [Multiprecision] [Config 3] (draws : Fin 5 → ℕ → LSBVecDraws 3 N)
    {latitude : Fin N → Share 3 FixedPoint} (hlat : ∀ k, 0 ≤ secret (latitude k)) :
    ∃ ret, latitudeFloors draws latitude = .ok ret ∧ ∀ k, ∃ x, ∃ F : Fin 5 → ℤ,
      |2 * x - 3 * secret (latitude k)| ≤ 5 ∧ MeshDigits x (fun i => secret (ret i k)) F := by
  obtain ⟨ret, hret, hdigits⟩ := floors_spec draws (fun k => ofDouble (3 / 2) * latitude k)
    (fun p k => minutes (latitude k) (p k) * (ofDouble 1 / ofDouble 5))
    (fun p q k => ofDouble 2 * (minutes (latitude k) (p k) - ofDouble 5 * q k))
    (fun p q r k => seconds (minutes (latitude k) (p k) - ofDouble 5 * q k) (r k)
      * (ofDouble 1 / ofDouble 15))
    (fun p q r s k => (seconds (minutes (latitude k) (p k) - ofDouble 5 * q k) (r k)
      - ofDouble 15 * s k) * (ofDouble 1 / ofDouble (15 / 2)))
    (fun k => by
      have hscaled := abs_le.mp (latitude_scaled (latitude k))
      have hk := hlat k
      simp only [shift]
      omega)
    (fun p hp k => latitude_eighth (hp k).choose_spec)
    (fun p q hp _ k => latitude_tenth (hp k).choose_spec)
    (fun p q r _ _ hr k => latitude_half (hr k).choose_spec)
    (fun p q r s _ _ hr hs k => latitude_quarter (hr k).choose_spec (hs k).choose_spec)
  exact ⟨ret, hret, fun k => ⟨_, (hdigits k).choose, latitude_scaled _, (hdigits k).choose_spec⟩⟩

/-! ### The longitude -/

section Longitude

variable {f v w x : Share 3 FixedPoint} {V W X : ℤ}

theorem longitude_first (longitude : Share 3 FixedPoint) [Config 3] :
    secret (longitude + -ofDouble 100) = secret longitude - 100 * shift := by
  rw [secret_add_value, FixedPoint.ofDouble_ofNat, denote_eq_value, FixedPoint.neg_value,
    FixedPoint.ofInt_value]
  ring

theorem longitude_eighth (x u : Share 3 FixedPoint) :
    |secret (ofDouble 8 * (x - u)) - 8 * (secret x - secret u)| ≤ 500 := by
  rw [secret_ofNat_mul, secret_sub, sub_self, abs_zero]
  norm_num

/-- `g`, the rest in minutes; `f` is what `u` leaves. -/
def eastMinutes (f v : Share 3 FixedPoint) : Share 3 FixedPoint :=
  ofDouble 60 * f - ofDouble (15 / 2) * v

theorem secret_eastMinutes_near (f v : Share 3 FixedPoint) :
    |2 * secret (eastMinutes f v) - 15 * (secret (ofDouble 8 * f) - secret v)| ≤ 5 := by
  have hmul : |shift * secret (ofDouble (15 / 2) * v) - secret v * 750000000| ≤ 3 * (shift - 1) :=
    secret_mul_near (FixedPoint.ofDouble_value (by norm_num [shift])) v
  rw [eastMinutes, secret_sub, secret_ofNat_mul, secret_ofNat_mul]
  rw [abs_le] at hmul ⊢
  simp only [shift] at *
  omega

theorem longitude_wide [Multiprecision] (hV : FloorOf (secret (ofDouble 8 * f)) (secret v) V) :
    |45 * secret (ofDouble 60 * eastMinutes f v * (ofDouble 1 / ofDouble 45))
      - 60 * secret (eastMinutes f v)| ≤ 4700 := by
  have h := secret_eastMinutes_near f v
  have hdiv := secret_div_near (k := 4500000000) (v := 2222222) (q := 45)
    (by norm_num [shift]) (by decide) (by decide) (ofDouble 60 * eastMinutes f v)
  have hlow := hV.rest_low
  have hhigh := hV.rest_high
  rw [secret_ofNat_mul] at hdiv
  rw [abs_le] at h hdiv ⊢
  simp only [shift] at *
  omega

theorem longitude_tenth [Multiprecision] (hV : FloorOf (secret (ofDouble 8 * f)) (secret v) V) :
    |secret (ofDouble 60 * eastMinutes f v * (ofDouble 1 / ofDouble 45))
      - 10 * (secret (ofDouble 8 * f) - secret v)| ≤ 500 := by
  have h := secret_eastMinutes_near f v
  have h' := longitude_wide hV
  rw [abs_le] at h h' ⊢
  omega

/-- `h`, the rest in seconds. -/
def eastSeconds (g w : Share 3 FixedPoint) : Share 3 FixedPoint :=
  ofDouble 60 * g - ofDouble 45 * w

theorem secret_eastSeconds (g w : Share 3 FixedPoint) :
    secret (eastSeconds g w) = 60 * secret g - 45 * secret w := by
  rw [eastSeconds, secret_sub, secret_ofNat_mul, secret_ofNat_mul]

theorem longitude_third [Multiprecision] (hV : FloorOf (secret (ofDouble 8 * f)) (secret v) V)
    (hW : FloorOf (secret (ofDouble 60 * eastMinutes f v * (ofDouble 1 / ofDouble 45)))
      (secret w) W) :
    |45 * secret (eastSeconds (eastMinutes f v) w * (ofDouble 1 / ofDouble (45 / 2)))
      - 2 * secret (eastSeconds (eastMinutes f v) w)| ≤ 1100 := by
  have h := longitude_wide hV
  have hdiv := secret_div_near (k := 2250000000) (v := 4444444) (q := 45 / 2)
    (by norm_num [shift]) (by decide) (by decide) (eastSeconds (eastMinutes f v) w)
  have hlow := hW.rest_low
  have hhigh := hW.rest_high
  rw [secret_eastSeconds] at hdiv ⊢
  rw [abs_le] at h hdiv ⊢
  simp only [shift] at *
  omega

theorem longitude_half [Multiprecision] (hV : FloorOf (secret (ofDouble 8 * f)) (secret v) V)
    (hW : FloorOf (secret (ofDouble 60 * eastMinutes f v * (ofDouble 1 / ofDouble 45)))
      (secret w) W) :
    |secret (eastSeconds (eastMinutes f v) w * (ofDouble 1 / ofDouble (45 / 2)))
      - 2 * (secret (ofDouble 60 * eastMinutes f v * (ofDouble 1 / ofDouble 45)) - secret w)|
      ≤ 500 := by
  have h := longitude_wide hV
  have h' := longitude_third hV hW
  rw [secret_eastSeconds] at h'
  rw [abs_le] at h h' ⊢
  omega

theorem longitude_quarter [Multiprecision] (hV : FloorOf (secret (ofDouble 8 * f)) (secret v) V)
    (hW : FloorOf (secret (ofDouble 60 * eastMinutes f v * (ofDouble 1 / ofDouble 45)))
      (secret w) W)
    (hX : FloorOf (secret (eastSeconds (eastMinutes f v) w * (ofDouble 1 / ofDouble (45 / 2))))
      (secret x) X) :
    |secret ((eastSeconds (eastMinutes f v) w - ofDouble (45 / 2) * x)
        * (ofDouble 1 / ofDouble (45 / 4)))
      - 2 * (secret (eastSeconds (eastMinutes f v) w * (ofDouble 1 / ofDouble (45 / 2)))
        - secret x)| ≤ 500 := by
  have h := longitude_third hV hW
  have hmul : |shift * secret (ofDouble (45 / 2) * x) - secret x * 2250000000| ≤ 3 * (shift - 1) :=
    secret_mul_near (FixedPoint.ofDouble_value (by norm_num [shift])) x
  have hdiv := secret_div_near (k := 1125000000) (v := 8888888) (q := 45 / 4)
    (by norm_num [shift]) (by decide) (by decide)
    (eastSeconds (eastMinutes f v) w - ofDouble (45 / 2) * x)
  have hlow := hX.rest_low
  have hhigh := hX.rest_high
  rw [secret_sub] at hdiv
  rw [abs_le] at h hmul hdiv ⊢
  simp only [shift] at *
  omega

end Longitude

theorem longitudeFloors_spec [Multiprecision] [Config 3] (draws : Fin 5 → ℕ → LSBVecDraws 3 N)
    {longitude : Fin N → Share 3 FixedPoint} (hlon : ∀ k, 100 * shift ≤ secret (longitude k)) :
    ∃ ret, longitudeFloors draws longitude = .ok ret ∧ ∀ k, ∃ F : Fin 5 → ℤ,
      MeshDigits (secret (longitude k) - 100 * shift) (fun i => secret (ret i k)) F := by
  obtain ⟨ret, hret, hdigits⟩ := floors_spec draws (fun k => longitude k + -ofDouble 100)
    (fun u k => ofDouble 8 * (longitude k + -ofDouble 100 - u k))
    (fun u v k => ofDouble 60 * eastMinutes (longitude k + -ofDouble 100 - u k) (v k)
      * (ofDouble 1 / ofDouble 45))
    (fun u v w k => eastSeconds (eastMinutes (longitude k + -ofDouble 100 - u k) (v k)) (w k)
      * (ofDouble 1 / ofDouble (45 / 2)))
    (fun u v w x k => (eastSeconds (eastMinutes (longitude k + -ofDouble 100 - u k) (v k)) (w k)
      - ofDouble (45 / 2) * x k) * (ofDouble 1 / ofDouble (45 / 4)))
    (fun k => by
      have hk := hlon k
      rw [longitude_first]
      simp only [shift] at *
      omega)
    (fun u _ k => longitude_eighth _ _)
    (fun u v _ hv k => longitude_tenth (hv k).choose_spec)
    (fun u v w _ hv hw k => longitude_half (hv k).choose_spec (hw k).choose_spec)
    (fun u v w x _ hv hw hx k =>
      longitude_quarter (hv k).choose_spec (hw k).choose_spec (hx k).choose_spec)
  refine ⟨ret, hret, fun k => ?_⟩
  have h := hdigits k
  rwa [longitude_first] at h

end QuickMpc.Share

namespace QuickMpc

/-! ### Cells -/

/-- The code of a quarter cell. A primary cell, `2/3` degree high and `1` degree wide, has
the numbers `p` and `u`; its parts are eighths, `q` and `v`, tenths of these, `r` and `w`,
and then halves two times, which `m` and `n` count from `1` in rows of two. -/
structure MeshCode where
  (p u q v r w m n : ℤ)
  eighth : (0 ≤ q ∧ q ≤ 7) ∧ 0 ≤ v ∧ v ≤ 7
  tenth : (0 ≤ r ∧ r ≤ 9) ∧ 0 ≤ w ∧ w ≤ 9
  half : 1 ≤ m ∧ m ≤ 4
  quarter : 1 ≤ n ∧ n ≤ 4

namespace MeshCode

/-- The eight numbers, in the order of `meshcode_transform`. -/
def digits (code : MeshCode) : List ℤ :=
  [code.p, code.u, code.q, code.v, code.r, code.w, code.m, code.n]

/-- The southern edge, in degrees. -/
def south (code : MeshCode) : ℚ :=
  2 / 3 * code.p + code.q / 12 + code.r / 120 + ((code.m - 1) / 2 : ℤ) / 240
    + ((code.n - 1) / 2 : ℤ) / 480

/-- The western edge, in degrees. -/
def west (code : MeshCode) : ℚ :=
  100 + code.u + code.v / 8 + code.w / 80 + ((code.m - 1) % 2 : ℤ) / 160
    + ((code.n - 1) % 2 : ℤ) / 320

/-- The cell has its southern and its western edge. -/
def Contains (code : MeshCode) (latitude longitude : ℚ) : Prop :=
  (code.south ≤ latitude ∧ latitude < code.south + 1 / 480) ∧
    code.west ≤ longitude ∧ longitude < code.west + 1 / 320

/-- A value that is at most `ε` outside of an interval is near to one inside. -/
theorem exists_near {x l w ε : ℚ} (hε : 0 < ε) (hw : ε ≤ w) (hlo : l - ε ≤ x)
    (hhi : x ≤ l + w + ε) : ∃ y, (l ≤ y ∧ y < l + w) ∧ |y - x| ≤ 2 * ε := by
  rcases lt_or_ge x l with hbelow | hfrom
  · refine ⟨l, ⟨le_refl l, by linarith⟩, ?_⟩
    rw [abs_le]
    exact ⟨by linarith, by linarith⟩
  rcases lt_or_ge x (l + w) with hinside | hto
  · refine ⟨x, ⟨hfrom, hinside⟩, ?_⟩
    rw [sub_self, abs_zero]
    linarith
  · refine ⟨l + w - ε, ⟨by linarith, by linarith⟩, ?_⟩
    rw [abs_le]
    exact ⟨by linarith, by linarith⟩

/-- The part of a degree with the number `i` has a point near a coordinate of `X` units, when
`X` is at most `856294` units of a part outside. -/
theorem exists_in_cell {edge : ℚ} {c i X : ℤ} (hc : 300 ≤ c ∧ c ≤ 1000)
    (hedge : c * edge = i) (hlow : i * FixedPoint.shift - 856294 ≤ c * X)
    (hhigh : c * X ≤ (i + 1) * FixedPoint.shift + 856294) :
    ∃ y, (edge ≤ y ∧ y < edge + 1 / c) ∧ |y - X / FixedPoint.shift| ≤ 6 / 100000 := by
  have hpos : (0 : ℚ) < c := by exact_mod_cast (by omega : 0 < c)
  have hmin : (300 : ℚ) ≤ c := by exact_mod_cast hc.1
  have hmax : (c : ℚ) ≤ 1000 := by exact_mod_cast hc.2
  have hlow' : (i * 100000000 - 856294 : ℚ) ≤ c * X := by exact_mod_cast hlow
  have hhigh' : (c * X : ℚ) ≤ (i + 1) * 100000000 + 856294 := by exact_mod_cast hhigh
  have hunit : c * ((X : ℚ) / FixedPoint.shift) = c * X / 100000000 := by
    rw [mul_div_assoc]
    simp only [FixedPoint.shift]
    norm_num
  obtain ⟨y, hy, hnear⟩ := exists_near (x := (X : ℚ) / FixedPoint.shift) (l := edge)
    (w := 1 / c) (ε := 3 / 100000) (by norm_num)
    (by
      rw [le_div_iff₀ hpos]
      linarith)
    (by
      refine le_of_mul_le_mul_left ?_ hpos
      rw [hunit, mul_sub, hedge]
      linarith)
    (by
      refine le_of_mul_le_mul_left ?_ hpos
      rw [hunit, mul_add, mul_add, hedge, mul_one_div_cancel hpos.ne']
      linarith)
  exact ⟨y, hy, hnear.trans (by norm_num)⟩

/-- The digits of both coordinates are the code of a cell. -/
def ofDigits {x x' : ℤ} {d d' F G : Fin 5 → ℤ} (hF : Share.MeshDigits x d F)
    (hG : Share.MeshDigits x' d' G) : MeshCode where
  p := F 0
  u := G 0
  q := F 1
  v := G 1
  r := F 2
  w := G 2
  m := F 3 * 2 + (G 3 + 1)
  n := F 4 * 2 + (G 4 + 1)
  eighth := by
    have h := hF.eighth
    have h' := hG.eighth
    omega
  tenth := by
    have h := hF.tenth
    have h' := hG.tenth
    omega
  half := by
    have h := hF.half
    have h' := hG.half
    omega
  quarter := by
    have h := hF.quarter
    have h' := hG.quarter
    omega

theorem south_ofDigits {x x' : ℤ} {d d' F G : Fin 5 → ℤ} (hF : Share.MeshDigits x d F)
    (hG : Share.MeshDigits x' d' G) : 480 * (ofDigits hF hG).south
      = ((320 * F 0 + 40 * F 1 + 4 * F 2 + 2 * F 3 + F 4 : ℤ) : ℚ) := by
  have hm : (F 3 * 2 + (G 3 + 1) - 1) / 2 = F 3 := by
    have h := hG.half
    omega
  have hn : (F 4 * 2 + (G 4 + 1) - 1) / 2 = F 4 := by
    have h := hG.quarter
    omega
  simp only [south, ofDigits, hm, hn]
  push_cast
  ring

theorem west_ofDigits {x x' : ℤ} {d d' F G : Fin 5 → ℤ} (hF : Share.MeshDigits x d F)
    (hG : Share.MeshDigits x' d' G) : 320 * ((ofDigits hF hG).west - 100)
      = ((320 * G 0 + 40 * G 1 + 4 * G 2 + 2 * G 3 + G 4 : ℤ) : ℚ) := by
  have hm : (F 3 * 2 + (G 3 + 1) - 1) % 2 = G 3 := by
    have h := hG.half
    omega
  have hn : (F 4 * 2 + (G 4 + 1) - 1) % 2 = G 4 := by
    have h := hG.quarter
    omega
  simp only [west, ofDigits, hm, hn]
  push_cast
  ring

end MeshCode

namespace Share

open FixedPoint (shift ofDouble stdRound)

variable {N : ℕ}

/-- The output `out` stands for the whole number `digit`. -/
def Rounds (out : Share 3 FixedPoint) (digit : ℤ) : Prop :=
  stdRound (recons out).getDoubleVal = digit ∧ |(recons out).getDoubleVal - digit| ≤ 1 / 1000

theorem rounds_of_near {out : Share 3 FixedPoint} {digit : ℤ}
    (h : |secret out - digit * shift| ≤ 6801) : Rounds out digit := by
  have hround := FixedPoint.abs_stdRound_mul_shift_sub_le (recons out)
  rw [recons_value_fixedPoint, two_mul_abs_le_iff] at hround
  rw [abs_le] at h
  refine ⟨?_, ?_⟩
  · simp only [shift] at *
    omega
  · have hlow : (-6801 : ℚ) ≤ secret out - digit * shift := by exact_mod_cast h.1
    have hhigh : (secret out - digit * shift : ℚ) ≤ 6801 := by exact_mod_cast h.2
    rw [FixedPoint.getDoubleVal, recons_value_fixedPoint, abs_le]
    simp only [shift] at *
    push_cast at *
    exact ⟨by linarith, by linarith⟩

theorem recons_getDoubleVal (x : Share 3 FixedPoint) :
    (recons x).getDoubleVal = secret x / shift := by
  rw [FixedPoint.getDoubleVal, recons_value_fixedPoint]

/-- `m` and `n` count the four halves. -/
theorem secret_halves [Config 3] (s x : Share 3 FixedPoint) :
    secret (s * ofDouble 2 + (x + ofDouble 1)) = secret s * 2 + (secret x + shift) := by
  rw [secret_add, FixedPoint.ofDouble_ofNat, secret_mul_ofInt, secret_add_value, denote_eq_value,
    FixedPoint.ofDouble_one_value]

/-- **`meshcode_transform`** keeps its digits in range and the point in place: every output is
nearly whole, and the digits are the code of a cell with a point within `10^-4` degrees. -/
theorem meshcode_transform_in_place [Multiprecision] [Config 3] (draws : MeshDraws 3 N)
    {latitude longitude : Fin N → Share 3 FixedPoint}
    (hlat : ∀ k, 0 ≤ (recons (latitude k)).getDoubleVal ∧ (recons (latitude k)).getDoubleVal < 66)
    (hlon : ∀ k, 100 ≤ (recons (longitude k)).getDoubleVal ∧
      (recons (longitude k)).getDoubleVal < 180) :
    ∃ ret, meshcode_transform draws latitude longitude = .ok ret ∧ ∀ k, ∃ code : MeshCode,
      List.Forall₂ Rounds (ret k) code.digits ∧
      ∃ lat lon, code.Contains lat lon ∧
        (lat - (recons (latitude k)).getDoubleVal) ^ 2
          + (lon - (recons (longitude k)).getDoubleVal) ^ 2 ≤ (1 / 10000) ^ 2 := by
  have hlat' : ∀ k, 0 ≤ secret (latitude k) := by
    intro k
    have h := (hlat k).1
    rw [recons_getDoubleVal] at h
    simp only [shift] at h
    push_cast at h
    exact_mod_cast (by linarith : (0 : ℚ) ≤ secret (latitude k))
  have hlon' : ∀ k, 100 * shift ≤ secret (longitude k) := by
    intro k
    have h := (hlon k).1
    rw [recons_getDoubleVal] at h
    simp only [shift] at *
    push_cast at h
    exact_mod_cast (by linarith : (100 * 100000000 : ℚ) ≤ secret (longitude k))
  obtain ⟨pqrst, hpqrst, hnorth⟩ := latitudeFloors_spec draws.latitude hlat'
  obtain ⟨uvwxy, huvwxy, heast⟩ := longitudeFloors_spec draws.longitude hlon'
  refine ⟨_, (Except.bind_ok hpqrst _).trans (Except.bind_ok huvwxy _), fun k => ?_⟩
  obtain ⟨x, F, hx, hF⟩ := hnorth k
  obtain ⟨G, hG⟩ := heast k
  refine ⟨MeshCode.ofDigits hF hG, ?_, ?_⟩
  · have single : ∀ i, Rounds (pqrst i k) (F i) :=
      fun i => rounds_of_near ((hF.near i).trans (by norm_num))
    have single' : ∀ i, Rounds (uvwxy i k) (G i) :=
      fun i => rounds_of_near ((hG.near i).trans (by norm_num))
    have pair : ∀ i, Rounds (pqrst i k * ofDouble 2 + (uvwxy i k + ofDouble 1))
        (F i * 2 + (G i + 1)) := by
      intro i
      have h := abs_le.mp (hF.near i)
      have h' := abs_le.mp (hG.near i)
      refine rounds_of_near ?_
      rw [secret_halves, abs_le]
      exact ⟨by linarith, by linarith⟩
    simp only [MeshCode.digits, MeshCode.ofDigits, List.forall₂_cons, List.Forall₂.nil, and_true]
    exact ⟨single 0, single' 0, single 1, single' 1, single 2, single' 2, pair 3, pair 4⟩
  · obtain ⟨hx_low, hx_high⟩ := abs_le.mp hx
    obtain ⟨lat, hlat_mem, hlat_near⟩ := MeshCode.exists_in_cell (c := 480)
      (X := secret (latitude k)) (by norm_num) (MeshCode.south_ofDigits hF hG)
      (by linarith [hF.low]) (by linarith [hF.high])
    obtain ⟨lon, hlon_mem, hlon_near⟩ := MeshCode.exists_in_cell (c := 320)
      (X := secret (longitude k) - 100 * shift) (by norm_num) (MeshCode.west_ofDigits hF hG)
      (by linarith [hG.low]) (by linarith [hG.high])
    have hoffset : ((secret (longitude k) - 100 * shift : ℤ) : ℚ) / shift
        = secret (longitude k) / shift - 100 := by
      simp only [shift]
      push_cast
      ring
    rw [hoffset] at hlon_near
    push_cast at hlat_mem hlon_mem
    refine ⟨lat, 100 + lon, ⟨hlat_mem, by linarith [hlon_mem.1], by linarith [hlon_mem.2]⟩, ?_⟩
    rw [recons_getDoubleVal, recons_getDoubleVal]
    calc (lat - secret (latitude k) / shift) ^ 2 + (100 + lon - secret (longitude k) / shift) ^ 2
        = |lat - secret (latitude k) / shift| ^ 2
            + |lon - (secret (longitude k) / shift - 100)| ^ 2 := by
          rw [sq_abs, sq_abs]
          ring
      _ ≤ (6 / 100000) ^ 2 + (6 / 100000) ^ 2 :=
          add_le_add (pow_le_pow_left₀ (abs_nonneg _) hlat_near 2)
            (pow_le_pow_left₀ (abs_nonneg _) hlon_near 2)
      _ ≤ (1 / 10000) ^ 2 := by norm_num

/-- Draws for two points; every first number shares zero and is drawn again. -/
def sampleVecDraws : LSBVecDraws 3 2 where
  first := fun _ =>
    ⟨![7, -3, -4], by decide, ⟨![1, 0, 2], ![0, 3, 1], ![8, 0, 4], by decide⟩⟩
  again := fun _ =>
    [⟨![-1000, 998, 6], by decide, ⟨![1, 0, 2], ![0, 3, 1], ![8, 0, 4], by decide⟩⟩]
  accepted := fun _ => ⟨_, List.mem_cons_of_mem _ List.mem_cons_self, by decide⟩
  r_dash := fun _ => ![0, 999, 17]
  range := by decide

/-- The corner of the first cell, and the point of the integration test. -/
theorem meshcode_transform_in_place_sample :
    letI := threeParties
    letI := Multiprecision.plain
    let latitude : Fin 2 → Share 3 FixedPoint :=
      ![⟨![⟨0⟩, ⟨-7⟩, ⟨7⟩]⟩, ⟨![⟨1190026000⟩, ⟨1190026000⟩, ⟨1190026000⟩]⟩]
    let longitude : Fin 2 → Share 3 FixedPoint :=
      ![⟨![⟨10000000000⟩, ⟨5⟩, ⟨-5⟩]⟩, ⟨![⟨4657158330⟩, ⟨4657158330⟩, ⟨4657158330⟩]⟩]
    ∃ ret, meshcode_transform ⟨fun _ _ => sampleVecDraws, fun _ _ => sampleVecDraws⟩
        latitude longitude = .ok ret ∧ ∀ k, ∃ code : MeshCode,
      List.Forall₂ Rounds (ret k) code.digits ∧
      ∃ lat lon, code.Contains lat lon ∧
        (lat - (recons (latitude k)).getDoubleVal) ^ 2
          + (lon - (recons (longitude k)).getDoubleVal) ^ 2 ≤ (1 / 10000) ^ 2 := by
  let _ := threeParties
  let _ := Multiprecision.plain
  exact meshcode_transform_in_place _ (by decide +kernel) (by decide +kernel)

end Share

end QuickMpc
