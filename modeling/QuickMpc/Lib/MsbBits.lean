import Mathlib.Algebra.BigOperators.Fin
import Mathlib.Algebra.BigOperators.Ring.Finset
import Mathlib.Algebra.Order.BigOperators.Group.Finset
import Mathlib.Data.Nat.Bitwise
import Mathlib.Tactic.Ring

/-!
# Bit vectors, most significant bit first

A vector `x : Fin m → Bool` spells the number `value x` with index `0` as its
most significant bit. Comparison of two such numbers is decided at the first
index where the vectors differ (`value_lt_value_iff`), which is what a
comparison circuit computes from a *prefix-or* of the exclusive or.

The second half is about flags inside a ring: `bit b` is `0` or `1`, the
Boolean connectives become polynomials, and a sum of flags of which at most one
is set is the flag of their disjunction (`sum_bit_of_unique`).
-/

namespace MsbBits

variable {m : ℕ}

/-- The number spelled by `x`, most significant bit first. -/
def value (x : Fin m → Bool) : ℕ := Nat.ofBits fun i => x i.rev

/-- The `m` low bits of a number, most significant bit first. -/
def bitsOf (m y : ℕ) : Fin m → Bool := fun i => y.testBit i.rev

theorem value_lt_two_pow (x : Fin m → Bool) : value x < 2 ^ m :=
  Nat.ofBits_lt_two_pow _

theorem testBit_value (x : Fin m → Bool) (i : Fin m) :
    (value x).testBit i.rev = x i := by
  unfold value
  rw [Nat.testBit_ofBits_lt _ _ i.rev.isLt, Fin.eta, Fin.rev_rev]

theorem testBit_value_ge (x : Fin m → Bool) {k : ℕ} (h : m ≤ k) :
    (value x).testBit k = false :=
  Nat.testBit_ofBits_ge _ _ h

theorem value_bitsOf (m y : ℕ) : value (bitsOf m y) = y % 2 ^ m := by
  unfold value bitsOf
  simp only [Fin.rev_rev]
  exact Nat.ofBits_testBit y m

theorem value_bitsOf_of_lt {y : ℕ} (h : y < 2 ^ m) : value (bitsOf m y) = y := by
  rw [value_bitsOf, Nat.mod_eq_of_lt h]

/-- One more, most significant, bit. -/
theorem value_succ (x : Fin (m + 1) → Bool) :
    value x = (x 0).toNat * 2 ^ m + value (fun i => x i.succ) := by
  refine Nat.eq_of_testBit_eq fun k => ?_
  rw [Nat.mul_comm, Nat.testBit_two_pow_mul_add _ (value_lt_two_pow _)]
  rcases lt_trichotomy k m with h | h | h
  · rw [if_pos h]
    have h1 := testBit_value x (Fin.rev ⟨k, by omega⟩)
    have h2 := testBit_value (fun i : Fin m => x i.succ) (Fin.rev ⟨k, h⟩)
    rw [Fin.rev_rev] at h1 h2
    rw [h1, h2]
    congr 1
    ext
    simp only [Fin.val_rev, Fin.val_succ]
    omega
  · subst h
    have h1 := testBit_value x 0
    rw [if_neg (lt_irrefl _), Nat.sub_self]
    simp only [Fin.rev_zero, Fin.val_last] at h1
    rw [h1]
    cases x 0 <;> rfl
  · rw [if_neg (by omega), testBit_value_ge x (by omega)]
    obtain ⟨j, rfl⟩ : ∃ j, k = m + (j + 1) := ⟨k - m - 1, by omega⟩
    rw [Nat.add_sub_cancel_left]
    cases x 0 <;> simp [Nat.testBit_succ]

theorem value_eq_sum : ∀ {m : ℕ} (x : Fin m → Bool),
    value x = ∑ i : Fin m, (x i).toNat * 2 ^ (m - 1 - i.val)
  | 0, x => by
      have hlt := value_lt_two_pow x
      simpa using hlt
  | m + 1, x => by
      rw [value_succ, value_eq_sum, Fin.sum_univ_succ]
      congr 1
      refine Finset.sum_congr rfl fun i _ => ?_
      rw [Fin.val_succ, Nat.sub_sub, Nat.sub_sub, Nat.add_comm 1 (i.val + 1), Nat.add_sub_add_right,
        Nat.add_comm 1]

/-- The last index holds the parity. -/
theorem value_mod_two (x : Fin (m + 1) → Bool) : value x % 2 = (x (Fin.last m)).toNat := by
  have h := testBit_value x (Fin.last m)
  rw [Fin.rev_last, Fin.val_zero, Nat.testBit_zero] at h
  cases hx : x (Fin.last m) <;> rw [hx] at h <;> simp at h ⊢ <;> omega

/-- Two numbers compare as their vectors do at the first difference. -/
theorem value_lt_of_first {a b : Fin m → Bool} {i : Fin m} (hpre : ∀ j < i, a j = b j)
    (ha : a i = false) (hb : b i = true) : value a < value b := by
  refine Nat.lt_of_testBit i.rev (by rw [testBit_value, ha]) (by rw [testBit_value, hb]) ?_
  intro k hk
  by_cases hkm : k < m
  · have hlt : Fin.rev ⟨k, hkm⟩ < i := by
      rw [Fin.lt_def] at *
      simp only [Fin.val_rev] at *
      omega
    have h1 := testBit_value a (Fin.rev ⟨k, hkm⟩)
    have h2 := testBit_value b (Fin.rev ⟨k, hkm⟩)
    rw [Fin.rev_rev] at h1 h2
    rw [h1, h2, hpre _ hlt]
  · rw [testBit_value_ge a (by omega), testBit_value_ge b (by omega)]

/-- The first index at which a flag is set, as a flag. -/
def isFirst (c : Fin m → Bool) (i : Fin m) : Bool :=
  c i && decide (∀ j < i, c j = false)

/-- The prefix disjunction. -/
def prefixOr (c : Fin m → Bool) (i : Fin m) : Bool := decide (∃ j ≤ i, c j = true)

theorem isFirst_iff {c : Fin m → Bool} {i : Fin m} :
    isFirst c i = true ↔ c i = true ∧ ∀ j < i, c j = false := by
  simp [isFirst]

/-- At most one index is first. -/
theorem isFirst_unique {c : Fin m → Bool} {i j : Fin m} (hi : isFirst c i = true)
    (hj : isFirst c j = true) : i = j := by
  rw [isFirst_iff] at hi hj
  rcases lt_trichotomy i j with h | h | h
  · exact absurd hi.1 (by simp [hj.2 i h])
  · exact h
  · exact absurd hj.1 (by simp [hi.2 j h])

/-- A vector with a set flag has a first one. -/
theorem exists_isFirst {c : Fin m → Bool} (h : ∃ i, c i = true) :
    ∃ i, isFirst c i = true := by
  obtain ⟨i, hi⟩ := h
  induction hk : i.val using Nat.strong_induction_on generalizing i with
  | _ k ih =>
    by_cases hpre : ∀ j < i, c j = false
    · exact ⟨i, isFirst_iff.mpr ⟨hi, hpre⟩⟩
    · push Not at hpre
      obtain ⟨j, hj, hcj⟩ := hpre
      exact ih j.val (by rw [← hk]; exact hj) j (by simpa using hcj) rfl

/-- **Comparison by the first difference.** -/
theorem value_lt_value_iff (a b : Fin m → Bool) :
    value a < value b ↔ ∃ i, isFirst (fun j => a j ^^ b j) i = true ∧ b i = true := by
  constructor
  · intro hlt
    have hne : ∃ i, (a i ^^ b i) = true := by
      by_contra hall
      push Not at hall
      have heq : a = b := funext fun i => by simpa using hall i
      exact absurd hlt (by rw [heq]; exact lt_irrefl _)
    obtain ⟨i, hi⟩ := exists_isFirst hne
    obtain ⟨hd, hpre⟩ := isFirst_iff.mp hi
    have hpre' : ∀ j < i, a j = b j := fun j hj => by simpa using hpre j hj
    refine ⟨i, hi, ?_⟩
    cases hb : b i with
    | true => rfl
    | false =>
        have ha : a i = true := by simpa [hb] using hd
        have hgt : value b < value a :=
          value_lt_of_first (fun j hj => (hpre' j hj).symm) hb ha
        exact absurd hlt (not_lt.mpr hgt.le)
  · intro h
    obtain ⟨i, hi, hb⟩ := h
    obtain ⟨hd, hpre⟩ := isFirst_iff.mp hi
    exact value_lt_of_first (fun j hj => by simpa using hpre j hj)
      (by simpa [hb] using hd) hb

/-! ### Prefix disjunction in two levels

A vector cut into blocks: the prefix disjunction up to index `j` of block `i`
is decided by the disjunctions of the whole blocks, except in the first block
that is not empty. -/

/-- The disjunction of every block. -/
def blockOr {k : ℕ} (c : Fin m → Fin k → Bool) (i : Fin m) : Bool := decide (∃ j, c i j = true)

/-- The first block that is not empty (all zero when there is none). -/
def firstBlock {k : ℕ} (c : Fin m → Fin k → Bool) (j : Fin k) : Bool :=
  decide (∃ i, (isFirst (blockOr c) i && c i j) = true)

/-- The prefix disjunction up to index `j` of block `i`. -/
def lexOr {k : ℕ} (c : Fin m → Fin k → Bool) (i : Fin m) (j : Fin k) : Bool :=
  decide (∃ i' j', (i' < i ∨ i' = i ∧ j' ≤ j) ∧ c i' j' = true)

theorem blockOr_iff {k : ℕ} {c : Fin m → Fin k → Bool} {i : Fin m} :
    blockOr c i = true ↔ ∃ j, c i j = true := by simp [blockOr]

theorem prefixOr_iff {c : Fin m → Bool} {i : Fin m} :
    prefixOr c i = true ↔ ∃ j ≤ i, c j = true := by simp [prefixOr]

theorem lexOr_iff {k : ℕ} {c : Fin m → Fin k → Bool} {i : Fin m} {j : Fin k} :
    lexOr c i j = true ↔ ∃ i' j', (i' < i ∨ i' = i ∧ j' ≤ j) ∧ c i' j' = true := by simp [lexOr]

/-- In the first non-empty block, the prefix disjunction is that of the block. -/
theorem lexOr_of_isFirst {k : ℕ} {c : Fin m → Fin k → Bool} {i : Fin m}
    (hi : isFirst (blockOr c) i = true) (j : Fin k) :
    lexOr c i j = prefixOr (firstBlock c) j := by
  have hblock : ∀ j', firstBlock c j' = c i j' := by
    intro j'
    cases hc : c i j' with
    | true => simpa [firstBlock] using ⟨i, hi, hc⟩
    | false =>
        simp only [firstBlock, Bool.and_eq_true, decide_eq_false_iff_not]
        intro h
        obtain ⟨i', hi', hc'⟩ := h
        rw [isFirst_unique hi' hi, hc] at hc'
        exact Bool.false_ne_true hc'
  rw [Bool.eq_iff_iff, lexOr_iff, prefixOr_iff]
  constructor
  · intro h
    obtain ⟨i', j', hlt | ⟨rfl, hj⟩, hc⟩ := h
    · have hempty := (isFirst_iff.mp hi).2 i' hlt
      rw [blockOr_iff.mpr ⟨j', hc⟩] at hempty
      exact absurd hempty (by simp)
    · exact ⟨j', hj, (hblock j').trans hc⟩
  · intro h
    obtain ⟨j', hj, hc⟩ := h
    exact ⟨i, j', .inr ⟨rfl, hj⟩, (hblock j').symm.trans hc⟩

/-- In every other block it is the prefix disjunction of the blocks. -/
theorem lexOr_of_not_isFirst {k : ℕ} {c : Fin m → Fin k → Bool} {i : Fin m}
    (hi : isFirst (blockOr c) i = false) (j : Fin k) :
    lexOr c i j = prefixOr (blockOr c) i := by
  rw [Bool.eq_iff_iff, lexOr_iff, prefixOr_iff]
  constructor
  · intro h
    obtain ⟨i', j', hle, hc⟩ := h
    refine ⟨i', ?_, blockOr_iff.mpr ⟨j', hc⟩⟩
    rcases hle with hlt | ⟨rfl, _⟩
    · exact hlt.le
    · exact le_rfl
  · intro h
    obtain ⟨i', hle, hb⟩ := h
    -- the first non-empty block is not `i`, so it lies strictly before
    obtain ⟨i₀, hi₀⟩ := exists_isFirst ⟨i', hb⟩
    obtain ⟨hb₀, hpre⟩ := isFirst_iff.mp hi₀
    obtain ⟨j₀, hc₀⟩ := blockOr_iff.mp hb₀
    have hne : i₀ ≠ i := by
      intro h
      subst h
      rw [hi₀] at hi
      exact absurd hi (by simp)
    have hle₀ : i₀ ≤ i := by
      by_contra hgt
      have hempty := hpre i' (hle.trans_lt (not_le.mp hgt))
      rw [hb] at hempty
      exact absurd hempty (by simp)
    exact ⟨i₀, j₀, .inl (lt_of_le_of_ne hle₀ hne), hc₀⟩

/-! ### Flags in a ring -/

section Ring

variable {R : Type*} [CommRing R]

/-- A flag as a ring element. -/
def bit (b : Bool) : R := if b then 1 else 0

@[simp] theorem bit_true : (bit true : R) = 1 := rfl
@[simp] theorem bit_false : (bit false : R) = 0 := rfl

theorem bit_not (b : Bool) : (bit (!b) : R) = 1 - bit b := by
  cases b <;> simp

theorem bit_and (a b : Bool) : (bit (a && b) : R) = bit a * bit b := by
  cases a <;> simp

theorem bit_xor (a b : Bool) : (bit (a ^^ b) : R) = bit a + bit b - 2 * (bit a * bit b) := by
  cases a <;> cases b <;> norm_num

theorem bit_eq_natCast (b : Bool) : (bit b : R) = (b.toNat : R) := by
  cases b <;> simp

/-- The number of set flags. -/
def count {ι : Type*} [Fintype ι] (x : ι → Bool) : ℕ := ∑ i, (x i).toNat

theorem sum_bit {ι : Type*} [Fintype ι] (x : ι → Bool) :
    ∑ i, (bit (x i) : R) = (count x : R) := by
  simp only [bit_eq_natCast, count, Nat.cast_sum]

theorem count_le_card {ι : Type*} [Fintype ι] (x : ι → Bool) : count x ≤ Fintype.card ι := by
  unfold count
  calc ∑ i, (x i).toNat ≤ ∑ _i : ι, 1 :=
        Finset.sum_le_sum fun i _ => Bool.toNat_le (x i)
    _ = Fintype.card ι := by simp

theorem count_eq_zero_iff {ι : Type*} [Fintype ι] (x : ι → Bool) :
    count x = 0 ↔ ∀ i, x i = false := by
  simp [count, Finset.sum_eq_zero_iff]

theorem count_eq_card_iff {ι : Type*} [Fintype ι] (x : ι → Bool) :
    count x = Fintype.card ι ↔ ∀ i, x i = true := by
  have hcard : Fintype.card ι = ∑ _i : ι, 1 := by simp
  have hle : ∀ i ∈ Finset.univ, (x i).toNat ≤ 1 := fun i _ => Bool.toNat_le (x i)
  rw [count, hcard, Finset.sum_eq_sum_iff_of_le hle]
  simp

/-- Flags that exclude each other add up to the flag of their disjunction. -/
theorem sum_bit_of_unique {ι : Type*} [Fintype ι] {x : ι → Bool}
    [Decidable (∃ i, x i = true)] (h : ∀ i j, x i = true → x j = true → i = j) :
    ∑ i, (bit (x i) : R) = bit (decide (∃ i, x i = true)) := by
  by_cases hex : ∃ i, x i = true
  · obtain ⟨i, hi⟩ := hex
    have hothers : ∀ j ∈ Finset.univ, j ≠ i → (bit (x j) : R) = 0 := by
      intro j _ hne
      cases hj : x j with
      | false => rfl
      | true => exact absurd (h j i hj hi) hne
    rw [Finset.sum_eq_single i hothers (fun hni => absurd (Finset.mem_univ i) hni), hi,
      decide_eq_true ⟨i, hi⟩]
  · rw [decide_eq_false hex]
    refine Finset.sum_eq_zero fun i _ => ?_
    cases hi : x i with
    | false => rfl
    | true => exact absurd ⟨i, hi⟩ hex

/-- The first index is where the prefix disjunction steps from `0` to `1`. -/
theorem bit_isFirst_of_pred (c : Fin m → Bool) {k i : Fin m} (hpred : k.val + 1 = i.val) :
    (bit (isFirst c i) : R) = bit (prefixOr c i) - bit (prefixOr c k) := by
  have hle : ∀ {j : Fin m}, j ≤ k ↔ j < i := fun {j} => by
    rw [Fin.le_def, Fin.lt_def]
    omega
  by_cases hpre : ∃ j ≤ k, c j = true
  · obtain ⟨j, hj, hcj⟩ := hpre
    have hlt : j < i := hle.mp hj
    have h1 : isFirst c i = false := by
      by_contra hf
      have := (isFirst_iff.mp (by simpa using hf)).2 j hlt
      simp [hcj] at this
    rw [h1, prefixOr, prefixOr, decide_eq_true ⟨j, hlt.le, hcj⟩, decide_eq_true ⟨j, hj, hcj⟩]
    simp
  · have hnone : ∀ j < i, c j = false := by
      intro j hj
      have := not_exists.mp hpre j
      simpa [hle.mpr hj] using this
    have h2 : prefixOr c i = c i := by
      rw [prefixOr]
      cases hc : c i with
      | true => exact decide_eq_true ⟨_, le_rfl, hc⟩
      | false =>
          refine decide_eq_false ?_
          intro h
          obtain ⟨j, hj, hcj⟩ := h
          rcases hj.lt_or_eq with hj | rfl
          · simp [hnone j hj] at hcj
          · simp [hc] at hcj
    rw [h2, isFirst, decide_eq_true hnone, prefixOr, decide_eq_false hpre]
    simp

/-- At the most significant index the prefix has one element. -/
theorem prefixOr_of_val_eq_zero (c : Fin m → Bool) {i : Fin m} (h : i.val = 0) :
    prefixOr c i = c i := by
  have hle : ∀ j : Fin m, j ≤ i ↔ j = i := fun j => by
    rw [Fin.le_def, Fin.ext_iff]
    omega
  simp [prefixOr, hle]

theorem isFirst_of_val_eq_zero (c : Fin m → Bool) {i : Fin m} (h : i.val = 0) :
    isFirst c i = c i := by
  have hnone : ∀ j < i, c j = false := fun j hj => by
    rw [Fin.lt_def] at hj
    omega
  rw [isFirst, decide_eq_true hnone, Bool.and_true]

/-- The two-level formula: a block takes its own prefix disjunction when it is
the first non-empty one, and the one of the blocks before it otherwise. -/
theorem bit_lexOr {k : ℕ} (c : Fin m → Fin k → Bool) (i : Fin m) (j : Fin k) :
    (bit (lexOr c i j) : R)
      = bit (isFirst (blockOr c) i) * bit (prefixOr (firstBlock c) j)
        + (bit (prefixOr (blockOr c) i) - bit (isFirst (blockOr c) i)) := by
  cases hi : isFirst (blockOr c) i with
  | true =>
      have hy : prefixOr (blockOr c) i = true :=
        prefixOr_iff.mpr ⟨i, le_rfl, (isFirst_iff.mp hi).1⟩
      rw [lexOr_of_isFirst hi, hy]
      simp
  | false =>
      rw [lexOr_of_not_isFirst hi]
      simp

/-- The share of the first non-empty block, selected by its flag. -/
theorem sum_bit_firstBlock {k : ℕ} (c : Fin m → Fin k → Bool) (j : Fin k) :
    ∑ i, (bit (isFirst (blockOr c) i) : R) * bit (c i j) = bit (firstBlock c j) := by
  have hunique : ∀ i i', (isFirst (blockOr c) i && c i j) = true →
      (isFirst (blockOr c) i' && c i' j) = true → i = i' := by
    intro i i' hi hi'
    exact isFirst_unique (Bool.and_eq_true_iff.mp hi).1 (Bool.and_eq_true_iff.mp hi').1
  simp only [← bit_and]
  exact sum_bit_of_unique (R := R) hunique

/-- Comparison as a sum of flags: where the vectors first differ, the larger
number has its bit set. -/
theorem sum_bit_isFirst_xor (a b : Fin m → Bool) :
    ∑ i, (bit (isFirst (fun j => a j ^^ b j) i) : R) * bit (b i)
      = bit (decide (value a < value b)) := by
  have hlt : decide (value a < value b)
      = decide (∃ i, (isFirst (fun j => a j ^^ b j) i && b i) = true) := by
    simp only [value_lt_value_iff, Bool.and_eq_true]
  rw [hlt]
  have hunique : ∀ i i', (isFirst (fun j => a j ^^ b j) i && b i) = true →
      (isFirst (fun j => a j ^^ b j) i' && b i') = true → i = i' := by
    intro i i' hi hi'
    exact isFirst_unique (Bool.and_eq_true_iff.mp hi).1 (Bool.and_eq_true_iff.mp hi').1
  simp only [← bit_and]
  exact sum_bit_of_unique (R := R) hunique

end Ring

end MsbBits
