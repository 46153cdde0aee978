import QuickMpc.FixedPoint
import QuickMpc.PrimeField

/-!
# QuickMpc.Compare.Fp2Pf

`Fp2Pf` takes a fixed-point number into the field, for the comparisons there.

The stored integer is shifted by `p / 2`, converted to a `checked_uint128_t` and handed to
the constructor of `PrimeField`. The order is kept (`Fp2Pf.value_of_ne_top`), except at one
number: the constructor lets the representative `p` pass and stores it as `0`, below all
others (`Fp2Pf.not_lt_of_eq_top`).
-/

namespace QuickMpc.Share

open PrimeField (p construct ofNat)

/-- `static_cast` of a `cpp_int` to `checked_uint128_t`. -/
def toUint128 (v : ℤ) : Run ℕ := if 0 ≤ v ∧ v < 2 ^ 128 then .ok v.toNat else .error .rangeError

/-- `Fp2Pf`. -/
def Fp2Pf (fp : FixedPoint) : Run PrimeField := do
  let p_half := p / 2
  let obj ← toUint128 (fp.value + p_half)
  construct obj

namespace Fp2Pf

/-- The shifted representative of `fp`. -/
def shifted (fp : FixedPoint) : ℤ := fp.value + (p / 2 : ℕ)

/-- The number whose representative is `p`. -/
def top : ℤ := p - (p / 2 : ℕ)

theorem shifted_eq_p_iff {fp : FixedPoint} : shifted fp = p ↔ fp.value = top := by
  unfold shifted top
  omega

theorem shifted_lt_iff {a b : FixedPoint} : shifted a < shifted b ↔ a.value < b.value := by
  simp [shifted]

theorem shifted_inj {a b : FixedPoint} : shifted a = shifted b ↔ a.value = b.value := by
  simp [shifted]

/-! ### What is accepted -/

theorem of_range {fp : FixedPoint} (h : 0 ≤ shifted fp ∧ shifted fp ≤ p) :
    Fp2Pf fp = .ok (ofNat (shifted fp).toNat) := by
  have hp : (p : ℤ) < 2 ^ 128 := by norm_num [p]
  have hcast : toUint128 (fp.value + (p / 2 : ℕ)) = .ok (shifted fp).toNat :=
    if_pos ⟨h.1, h.2.trans_lt hp⟩
  rw [Fp2Pf, Except.bind_ok hcast, PrimeField.construct_natCast (Int.toNat_le.mpr h.2)]

/-- What does not fit into the word is refused by the conversion, the rest above `p` by the
constructor. -/
theorem of_not_range {fp : FixedPoint} (h : ¬(0 ≤ shifted fp ∧ shifted fp ≤ p)) :
    ∃ e, Fp2Pf fp = .error e := by
  by_cases hword : 0 ≤ shifted fp ∧ shifted fp < 2 ^ 128
  · have hcast : toUint128 (fp.value + (p / 2 : ℕ)) = .ok (shifted fp).toNat := if_pos hword
    refine ⟨_, (Except.bind_ok hcast _).trans (if_pos ?_)⟩
    omega
  · have hcast : toUint128 (fp.value + (p / 2 : ℕ)) = .error .rangeError := if_neg hword
    refine ⟨.rangeError, ?_⟩
    rw [Fp2Pf, hcast]
    rfl

theorem eq_ok_iff {fp : FixedPoint} {x : PrimeField} :
    Fp2Pf fp = .ok x ↔ (0 ≤ shifted fp ∧ shifted fp ≤ p) ∧ x = ofNat (shifted fp).toNat := by
  by_cases h : 0 ≤ shifted fp ∧ shifted fp ≤ p
  · rw [of_range h]
    simp [h, eq_comm]
  · obtain ⟨e, he⟩ := of_not_range h
    simp [he, h]

/-- Below `p`, the representative is what is stored. -/
theorem value_of_ne_top {fp : FixedPoint} {x : PrimeField} (h : Fp2Pf fp = .ok x)
    (htop : fp.value ≠ top) : (x.value : ℤ) = shifted fp := by
  obtain ⟨hrange, rfl⟩ := eq_ok_iff.mp h
  have hne := mt shifted_eq_p_iff.mp htop
  rw [PrimeField.ofNat_value_of_lt (by omega), Int.toNat_of_nonneg hrange.1]

/-- The representative `p` is stored as `0`. -/
theorem value_of_eq_top {fp : FixedPoint} {x : PrimeField} (h : Fp2Pf fp = .ok x)
    (htop : fp.value = top) : x.value = 0 := by
  obtain ⟨-, rfl⟩ := eq_ok_iff.mp h
  rw [shifted_eq_p_iff.mpr htop, Int.toNat_natCast, PrimeField.ofNat_value, Nat.mod_self]

/-! ### The order -/

/-- What an order embedding does on `a` and `b`, that throws on what is not in `[0, p)`. -/
structure Embeds (a b : FixedPoint) : Prop where
  order : ∀ x y, Fp2Pf a = .ok x → Fp2Pf b = .ok y → (a.value < b.value ↔ x.value < y.value)
  injective : ∀ x y, Fp2Pf a = .ok x → Fp2Pf b = .ok y → x.value = y.value → a.value = b.value
  rejected : ∀ fp ∈ [a, b], ¬(0 ≤ shifted fp ∧ shifted fp < p) → ∃ e, Fp2Pf fp = .error e

/-- The order is lost between the number with the representative `p` and every other one. -/
theorem not_lt_of_eq_top {a b : FixedPoint} {x y : PrimeField} (ha : Fp2Pf a = .ok x)
    (hb : Fp2Pf b = .ok y) (htop : b.value = top) (hne : a.value ≠ top) :
    a.value < b.value ∧ ¬x.value < y.value := by
  have hrange := (eq_ok_iff.mp ha).1
  have hlast := shifted_eq_p_iff.mpr htop
  have hne' := mt shifted_eq_p_iff.mp hne
  refine ⟨shifted_lt_iff.mp (by omega), ?_⟩
  rw [value_of_eq_top hb htop]
  exact Nat.not_lt_zero _

/-- **`Fp2Pf`** is an order embedding that throws outside of `[0, p)`, on all numbers but one:
the one with the representative `p` is let through, and stored as `0`. -/
theorem embeds_iff (a b : FixedPoint) : Embeds a b ↔ a.value ≠ top ∧ b.value ≠ top := by
  constructor
  · intro h
    have hrejected : ∀ fp ∈ [a, b], fp.value ≠ top := by
      intro fp hmem htop
      have hlast := shifted_eq_p_iff.mpr htop
      obtain ⟨e, he⟩ := h.rejected fp hmem (by omega)
      rw [of_range (by omega)] at he
      cases he
    exact ⟨hrejected a (by simp), hrejected b (by simp)⟩
  · rintro ⟨ha, hb⟩
    refine ⟨fun x y hx hy => ?_, fun x y hx hy hxy => ?_, fun fp hmem hout => ?_⟩
    · have hxv := value_of_ne_top hx ha
      have hyv := value_of_ne_top hy hb
      rw [← shifted_lt_iff]
      omega
    · have hxv := value_of_ne_top hx ha
      have hyv := value_of_ne_top hy hb
      rw [← shifted_inj]
      omega
    · have hne : fp.value ≠ top := by
        simp only [List.mem_cons, List.not_mem_nil, or_false] at hmem
        rcases hmem with rfl | rfl
        · exact ha
        · exact hb
      have hne' := mt shifted_eq_p_iff.mp hne
      exact of_not_range (by omega)

/-- `0` lies below `92233720368.54775779`, and far above it in the field. -/
theorem wraps_at_top :
    Fp2Pf ⟨0⟩ = .ok (ofNat 9223372036854775778) ∧ Fp2Pf ⟨9223372036854775779⟩ = .ok (ofNat 0) ∧
      (ofNat 0).value < (ofNat 9223372036854775778).value ∧
      ¬Embeds ⟨0⟩ ⟨9223372036854775779⟩ := by
  have hzero : Fp2Pf ⟨0⟩ = .ok (ofNat 9223372036854775778) := by decide
  have htop : Fp2Pf ⟨9223372036854775779⟩ = .ok (ofNat 0) := by decide
  obtain ⟨hlt, hlost⟩ := not_lt_of_eq_top hzero htop (by decide) (by decide)
  exact ⟨hzero, htop, by decide, fun h => hlost ((h.order _ _ hzero htop).mp hlt)⟩

end Fp2Pf

end QuickMpc.Share
