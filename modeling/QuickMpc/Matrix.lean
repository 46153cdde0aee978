import QuickMpc.Lib.RowMajor
import QuickMpc.Multiplication

/-!
# QuickMpc.Matrix

The product of two `ShareMatrix`es. All the products of entries are computed in one bulk
multiplication: `operator*` writes the factors into two vectors, row by row and entry by
entry, and adds the products up again with one running index `it`. A sum of `w` products
is off by less than `w` units in the last place.
-/

namespace QuickMpc

open Share (recons secret mulVec)
open FixedPoint (shift)

/-- A `ShareMatrix` with `h` rows and `w` columns. -/
abbrev ShareMatrix (n h w : ℕ) := Fin h → Fin w → Share n FixedPoint

namespace ShareMatrix

variable {n h h' k w : ℕ}

/-! ### The code -/

/-- `setFromVector`. -/
def setFromVector (mat_v : List (List (Share n FixedPoint))) : ShareMatrix n h w :=
  fun i j => (mat_v.getD i []).getD j 0

/-- The loop `s += mul[it]; ++it;` of one entry. -/
def sumEntry (mul : List (Share n FixedPoint)) : ℕ → Share n FixedPoint → ℕ →
    Share n FixedPoint × ℕ
  | 0, s, it => (s, it)
  | w + 1, s, it => sumEntry mul w (s + mul.getD it 0) (it + 1)

/-- The loops that take the products out again. -/
def takeProducts (mul : List (Share n FixedPoint)) (h k w : ℕ) : List (List (Share n FixedPoint)) :=
  (RowMajor.readMany (RowMajor.readMany (sumEntry mul w 0) k) h 0).1

/-- `operator*`. -/
def mul [Config n] (t : ℕ → Triple n FixedPoint) (mat : ShareMatrix n h w)
    (obj : ShareMatrix n h' k) : Run (ShareMatrix n h k) :=
  if hw : w = h' then do
    let a := (List.finRange h).flatMap fun i => (List.finRange k).flatMap fun _ =>
      (List.finRange w).map fun t => mat i t
    let b := (List.finRange h).flatMap fun _ => (List.finRange k).flatMap fun j =>
      (List.finRange w).map fun t => obj (t.cast hw) j
    let mul ← (mulVec t a b).2
    return setFromVector (takeProducts mul h k w)
  else .error (.runtimeError "Matrix Mul Error!")

/-! ### Reading the products -/

/-- The sum of an entry, from where it starts. -/
theorem secret_sumEntry (mul : List (Share n FixedPoint)) :
    ∀ (w : ℕ) (s : Share n FixedPoint) (it : ℕ),
      secret (sumEntry mul w s it).1
        = secret s + ∑ t ∈ Finset.range w, secret (mul.getD (it + t) 0)
  | 0, s, it => by
      rw [sumEntry, Finset.sum_range_zero, add_zero]
  | w + 1, s, it => by
      rw [sumEntry, secret_sumEntry mul w, Finset.sum_range_succ', Share.secret_add, add_zero,
        add_assoc, add_comm (secret (mul.getD it 0))]
      simp only [add_assoc, add_comm 1]

theorem sumEntry_snd (mul : List (Share n FixedPoint)) :
    ∀ (w : ℕ) (s : Share n FixedPoint) (it : ℕ), (sumEntry mul w s it).2 = it + w
  | 0, _, _ => rfl
  | w + 1, s, it => by
      rw [sumEntry, sumEntry_snd mul w]
      omega

/-- The entry `(i, j)` starts at the index `k * w * i + w * j`. -/
theorem takeProducts_entry (mul : List (Share n FixedPoint)) (i : Fin h) (j : Fin k) :
    (setFromVector (takeProducts mul h k w) : ShareMatrix n h k) i j
      = (sumEntry mul w 0 (w * k * i + w * j)).1 := by
  have hentry : ∀ it, sumEntry mul w 0 it = ((sumEntry mul w 0 it).1, it + w) := fun it =>
    Prod.ext rfl (sumEntry_snd mul w 0 it)
  have hrow := RowMajor.readMany_eq (RowMajor.readMany_eq hentry k)
  rw [setFromVector, takeProducts, hrow]
  dsimp only
  rw [RowMajor.getD_map_range _ i.isLt, RowMajor.getD_map_range _ j.isLt, zero_add]

/-! ### The product -/

/-- The products in the order of the bulk multiplication: the factors of the `q`-th one are
at the indices that `q` is the place of. -/
theorem mul_eq [Config n] (t : ℕ → Triple n FixedPoint) (A : ShareMatrix n h w)
    (B : ShareMatrix n w k) :
    mul t A B = .ok (setFromVector (takeProducts (List.ofFn fun q : Fin (h * (k * w)) =>
      Share.mul (t q) (A q.divNat q.modNat.modNat) (B q.modNat.modNat q.modNat.divNat)) h k w)) := by
  rw [mul, dif_pos rfl, RowMajor.flatMap_flatMap_eq_ofFn, RowMajor.flatMap_flatMap_eq_ofFn]
  exact Except.bind_ok (Share.mulVec_ofFn _ _ _) _

/-- The operator throws exactly when the inner dimensions differ. -/
theorem mul_error_iff [Config n] (t : ℕ → Triple n FixedPoint) (A : ShareMatrix n h w)
    (B : ShareMatrix n h' k) :
    mul t A B = .error (.runtimeError "Matrix Mul Error!") ↔ w ≠ h' := by
  constructor
  · intro herr hw
    subst hw
    rw [mul_eq] at herr
    cases herr
  · intro hw
    exact dif_neg hw

/-- Every entry of the product is a sum of `w` products of shares. -/
theorem exists_mul_entry [Config n] (t : ℕ → BtsTriple n) (A : ShareMatrix n h w)
    (B : ShareMatrix n w k) : ∃ C, mul (fun q => (t q).convertStr2Triple) A B = .ok C ∧
      ∀ i j, ∃ u : Fin w → BtsTriple n, secret (C i j)
        = ∑ x, secret (Share.mul (u x).convertStr2Triple (A i x) (B x j)) := by
  refine ⟨_, mul_eq _ A B, fun i j => ⟨fun x => t (Fin.mkDivMod i (Fin.mkDivMod j x)), ?_⟩⟩
  rw [takeProducts_entry, secret_sumEntry, Share.secret_zero, zero_add, Finset.sum_range]
  refine Finset.sum_congr rfl fun x _ => ?_
  have hplace : w * k * i.val + w * j.val + x.val = (Fin.mkDivMod i (Fin.mkDivMod j x)).val := by
    rw [Fin.coe_mkDivMod, Fin.coe_mkDivMod, mul_comm w k, add_assoc]
  rw [hplace, RowMajor.getD_ofFn, Fin.divNat_mkDivMod, Fin.modNat_mkDivMod, Fin.divNat_mkDivMod,
    Fin.modNat_mkDivMod]

/-- **The product of matrices.** It throws exactly when the inner dimensions differ, and
otherwise every entry is off by less than `w` units in the last place, one for each of the `w`
products that it sums up, for any sharing and any triples. -/
theorem mul_correct [Config n] (t : ℕ → BtsTriple n) (A : ShareMatrix n h w)
    (B : ShareMatrix n h' k) (hw : 1 ≤ w) :
    (mul (fun q => (t q).convertStr2Triple) A B = .error (.runtimeError "Matrix Mul Error!") ↔
      w ≠ h') ∧
    ∀ hd : w = h', ∃ C, mul (fun q => (t q).convertStr2Triple) A B = .ok C ∧
      ∀ i j, |shift * (recons (C i j)).value
        - ∑ x, (recons (A i x)).value * (recons (B (x.cast hd) j)).value| < w * shift := by
  refine ⟨mul_error_iff _ A B, fun hd => ?_⟩
  subst hd
  obtain ⟨C, hok, hentries⟩ := exists_mul_entry t A B
  refine ⟨C, hok, fun i j => ?_⟩
  obtain ⟨u, hu⟩ := hentries i j
  have hsum : shift * secret (C i j) - ∑ x, secret (A i x) * secret (B x j)
      = ∑ x, (shift * secret (Share.mul (u x).convertStr2Triple (A i x) (B x j))
          - secret (A i x) * secret (B x j)) := by
    rw [hu, Finset.mul_sum, Finset.sum_sub_distrib]
  simp only [Share.recons_value_fixedPoint, Fin.cast_eq_self]
  have hne : (Finset.univ : Finset (Fin w)).Nonempty := ⟨⟨0, hw⟩, Finset.mem_univ _⟩
  calc |shift * secret (C i j) - ∑ x, secret (A i x) * secret (B x j)|
      ≤ ∑ x, |shift * secret (Share.mul (u x).convertStr2Triple (A i x) (B x j))
          - secret (A i x) * secret (B x j)| := by
        rw [hsum]
        exact Finset.abs_sum_le_sum_abs _ _
    _ < ∑ _x : Fin w, shift :=
        Finset.sum_lt_sum_of_nonempty hne fun x _ =>
          Share.abs_shift_mul_secret_mul_sub_lt (u x) (A i x) (B x j)
    _ = w * shift := by rw [Finset.sum_const, Finset.card_univ, Fintype.card_fin, nsmul_eq_mul]

/-- A sample of shared entries, by three parties. -/
def sample (h w : ℕ) : ShareMatrix 3 h w :=
  fun i j => ⟨![.ofInt (i + 1), ⟨12345 * j⟩, .ofInt (-2)]⟩

def sampleTriple : BtsTriple 3 := ⟨fun _ => 1, fun _ => 2, fun _ => 6, by decide⟩

/-- Two rows and three columns, by three rows and five columns, or by themselves. -/
theorem mul_correct_sample :
    letI := threeParties
    let t := fun _ : ℕ => sampleTriple.convertStr2Triple
    mul t (sample 2 3) (sample 2 3) = .error (.runtimeError "Matrix Mul Error!") ∧
    ∃ C, mul t (sample 2 3) (sample 3 5) = .ok C ∧
      ∀ i j, |shift * (recons (C i j)).value
        - ∑ x, (recons (sample 2 3 i x)).value * (recons (sample 3 5 x j)).value| < 3 * shift := by
  let _ := threeParties
  have hw : 1 ≤ 3 := by norm_num
  exact ⟨(mul_correct (fun _ => sampleTriple) (sample 2 3) (sample 2 3) hw).1.mpr (by norm_num),
    (mul_correct (fun _ => sampleTriple) (sample 2 3) (sample 3 5) hw).2 rfl⟩

end ShareMatrix

end QuickMpc
