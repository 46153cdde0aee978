import QuickMpc.Compare.FanIn

/-!
# QuickMpc.Compare.PrefixOr

`subPrefixOr` and, on top of it, `subBitwiseLessThan`.

The prefix disjunction of `l = 64` bits is computed in two levels: the vector is
cut into `lambda = 8` blocks of `lambda` bits, and one block, the first one that
is not empty, is selected and treated on its own (`MsbBits.bit_lexOr`). The
comparison of two vectors is decided at their first difference, which is where
the prefix disjunction of their exclusive or steps from `0` to `1`.
-/

namespace QuickMpc.Share

open PrimeField MsbBits

variable {n m : ℕ}

/-! ### Padding and steps -/

/-- `subPadding0`: the elements before `start_index`, then zeros. The caller
never asks for more elements than the vector has. -/
def subPadding0 (a_shares : Fin m → Share n PrimeField) (start_index : ℕ) (h : start_index ≤ m) :
    Fin l → Share n PrimeField :=
  fun i => if hi : i.val < start_index then a_shares ⟨i, lt_of_lt_of_le hi h⟩ else 0

/-- The steps of a vector: `head` first, then the difference to the previous
element. -/
def steps (head : Share n PrimeField) (d_shares : Fin m → Share n PrimeField) :
    Fin m → Share n PrimeField :=
  fun i => if i.val = 0 then head
    else d_shares i - d_shares ⟨i.val - 1, lt_of_le_of_lt (Nat.sub_le _ _) i.isLt⟩

/-- The same padding, of bits. -/
def padded (x : Fin m → Bool) (start_index : ℕ) (h : start_index ≤ m) : Fin l → Bool :=
  fun i => if hi : i.val < start_index then x ⟨i, lt_of_lt_of_le hi h⟩ else false

theorem subPadding0_bit {a_shares : Fin m → Share n PrimeField} {x : Fin m → Bool}
    (hx : ∀ i, IsBit (a_shares i) (x i)) {start_index : ℕ} (h : start_index ≤ m) (i : Fin l) :
    IsBit (subPadding0 a_shares start_index h i) (padded x start_index h i) := by
  unfold subPadding0 padded
  by_cases hi : i.val < start_index
  · rw [dif_pos hi, dif_pos hi]
    exact hx _
  · rw [dif_neg hi, dif_neg hi]
    exact secret_zero

/-- The disjunction over a padded vector is the one over its prefix. -/
theorem exists_padded {x : Fin m → Bool} {start_index : ℕ} (h : start_index ≤ m) (hl : m ≤ l) :
    (∃ i, padded x start_index h i = true) ↔ ∃ j : Fin m, j.val < start_index ∧ x j = true := by
  unfold padded
  constructor
  · intro h'
    obtain ⟨i, hi⟩ := h'
    by_cases hlt : i.val < start_index
    · rw [dif_pos hlt] at hi
      exact ⟨_, hlt, hi⟩
    · rw [dif_neg hlt] at hi
      exact absurd hi Bool.false_ne_true
  · intro h'
    obtain ⟨j, hj, hxj⟩ := h'
    refine ⟨⟨j, j.isLt.trans_le hl⟩, ?_⟩
    rw [dif_pos hj]
    exact hxj

/-- The steps of a prefix disjunction mark the first set index. -/
theorem steps_bit {head : Share n PrimeField} {d_shares : Fin m → Share n PrimeField}
    {c : Fin m → Bool} (hhead : ∀ i : Fin m, i.val = 0 → IsBit head (c i))
    (hd : ∀ i, IsBit (d_shares i) (prefixOr c i)) (i : Fin m) :
    IsBit (steps head d_shares i) (isFirst c i) := by
  unfold steps
  by_cases hi : i.val = 0
  · rw [if_pos hi, isFirst_of_val_eq_zero c hi]
    exact hhead i hi
  · have hpred : i.val - 1 + 1 = i.val := by omega
    rw [if_neg hi, IsBit, secret_sub, hd, hd]
    exact (bit_isFirst_of_pred c hpred).symm

/-! ### `subPrefixOr` -/

theorem lambda_le_l : lambda ≤ l := by norm_num [lambda, l]

/-- The index of the `j`-th element of the `i`-th block. -/
def index (i j : Fin lambda) : Fin l :=
  ⟨lambda * i + j, by
    have hi := i.isLt
    have hj := j.isLt
    simp only [lambda, l] at *
    omega⟩

/-- The block of an index, and its place there. -/
def row (k : Fin l) : Fin lambda := ⟨k.val / lambda, by
  have hk := k.isLt
  simp only [lambda, l] at *
  omega⟩

def col (k : Fin l) : Fin lambda := ⟨k.val % lambda, Nat.mod_lt _ (by norm_num [lambda])⟩

theorem index_row_col (k : Fin l) : index (row k) (col k) = k :=
  Fin.ext (Nat.div_add_mod k.val lambda)

theorem index_le_iff {i i' j j' : Fin lambda} :
    index i' j' ≤ index i j ↔ i' < i ∨ i' = i ∧ j' ≤ j := by
  have hj := j.isLt
  have hj' := j'.isLt
  simp only [index, Fin.le_def, lambda] at *
  omega

/-- The prefix disjunction, read block by block. -/
theorem prefixOr_eq_lexOr (x : Fin l → Bool) (k : Fin l) :
    prefixOr x k = lexOr (fun i j => x (index i j)) (row k) (col k) := by
  rw [Bool.eq_iff_iff, prefixOr_iff, lexOr_iff]
  constructor
  · intro h
    obtain ⟨k', hle, hx⟩ := h
    rw [← index_row_col k, ← index_row_col k'] at hle
    exact ⟨row k', col k', index_le_iff.mp hle, by rwa [index_row_col]⟩
  · intro h
    obtain ⟨i', j', hle, hx⟩ := h
    refine ⟨index i' j', ?_, hx⟩
    rw [← index_row_col k]
    exact index_le_iff.mpr hle

/-- What `subPrefixOr` draws: its three rounds of fan-in gates, and the triples
of its two rounds of single multiplications. -/
structure PrefixOrDraws (n : ℕ) where
  x : Fin lambda → FanInDraws n
  y : Fin lambda → FanInDraws n
  bi0 : Fin lambda → FanInDraws n
  tripleAi0 : Fin lambda → Fin lambda → PrimeFieldTriple n
  tripleRet : Fin lambda → Fin lambda → PrimeFieldTriple n

variable [Config n]

/-- Step 4 of `subPrefixOr`: the block selected by `f_shares`. -/
def ai0_shares (draws : PrefixOrDraws n) (f_shares : Fin lambda → Share n PrimeField)
    (a_shares : Fin l → Share n PrimeField) : Fin lambda → Share n PrimeField :=
  fun j => (List.finRange lambda).foldl
    (fun ret i => ret + mul (draws.tripleAi0 i j).toTriple (f_shares i) (a_shares (index i j)))
    (ofValue (ofNat 0))

/-- `subPrefixOr`. -/
def subPrefixOr (draws : PrefixOrDraws n) (a_shares : Fin l → Share n PrimeField) :
    Run (Fin l → Share n PrimeField) := do
  -- step 1: a block, resized to `l` elements
  let x_shares ← collect fun i =>
    subUnboundedFanInOr (draws.x i) (subPadding0 (fun j => a_shares (index i j)) lambda le_rfl)
  -- step 2
  let y_shares ← collect fun i =>
    subUnboundedFanInOr (draws.y i) (subPadding0 x_shares (i + 1) i.isLt)
  -- steps 3 and 4
  let f_shares := steps (x_shares 0) y_shares
  let ai0_shares := ai0_shares draws f_shares a_shares
  -- step 5
  let bi0_shares ← collect fun j =>
    subUnboundedFanInOr (draws.bi0 j) (subPadding0 ai0_shares (j + 1) j.isLt)
  -- steps 6 and 7
  let s_shares := fun i => y_shares i - f_shares i
  return fun k =>
    mul (draws.tripleRet (row k) (col k)).toTriple (f_shares (row k)) (bi0_shares (col k))
      + s_shares (row k)

/-- A round of gates, each over the first `start_index i` elements of its own vector. -/
theorem collect_padded_spec (hn : n < p) (draws : Fin lambda → FanInDraws n)
    {a_shares : Fin lambda → Fin lambda → Share n PrimeField} {x : Fin lambda → Fin lambda → Bool}
    (hx : ∀ i j, IsBit (a_shares i j) (x i j)) {start_index : Fin lambda → ℕ}
    (hle : ∀ i, start_index i ≤ lambda) {out : Fin lambda → Bool}
    (hout : ∀ i, out i = true ↔ ∃ j : Fin lambda, j.val < start_index i ∧ x i j = true) :
    ∃ ans, (collect fun i => subUnboundedFanInOr (draws i)
        (subPadding0 (a_shares i) (start_index i) (hle i))) = .ok ans ∧
      ∀ i, IsBit (ans i) (out i) := by
  have hgate : ∀ i : Fin lambda, ∃ ans,
      subUnboundedFanInOr (draws i) (subPadding0 (a_shares i) (start_index i) (hle i)) = .ok ans ∧
        IsBit ans (out i) := by
    intro i
    obtain ⟨ans, hok, hans⟩ :=
      subUnboundedFanInOr_spec hn (draws i) (subPadding0_bit (hx i) (hle i))
    have hany : decide (∃ k, padded (x i) (start_index i) (hle i) k = true) = out i := by
      rw [Bool.eq_iff_iff, decide_eq_true_iff, hout, exists_padded _ lambda_le_l]
    exact ⟨ans, hok, hany ▸ hans⟩
  choose ans hok hans using hgate
  exact ⟨ans, collect_eq_ok.mpr hok, hans⟩

/-- A round of gates over growing prefixes is a prefix disjunction. -/
theorem collect_prefix_spec (hn : n < p) (draws : Fin lambda → FanInDraws n)
    {a_shares : Fin lambda → Share n PrimeField} {x : Fin lambda → Bool}
    (hx : ∀ i, IsBit (a_shares i) (x i)) :
    ∃ ans, (collect fun i => subUnboundedFanInOr (draws i)
        (subPadding0 a_shares (i + 1) i.isLt)) = .ok ans ∧
      ∀ i, IsBit (ans i) (prefixOr x i) := by
  refine collect_padded_spec hn draws (fun _ => hx) (fun i => i.isLt) fun i => ?_
  rw [prefixOr_iff]
  simp only [Nat.lt_succ_iff, Fin.le_def]

/-- The first round of gates yields the disjunction of every block. -/
theorem collect_block_spec (hn : n < p) (draws : Fin lambda → FanInDraws n)
    {a_shares : Fin l → Share n PrimeField} {x : Fin l → Bool}
    (hx : ∀ i, IsBit (a_shares i) (x i)) :
    ∃ ans, (collect fun i => subUnboundedFanInOr (draws i)
        (subPadding0 (fun j => a_shares (index i j)) lambda le_rfl)) = .ok ans ∧
      ∀ i, IsBit (ans i) (blockOr (fun i j => x (index i j)) i) := by
  refine collect_padded_spec hn draws (fun i j => hx (index i j)) (fun _ => le_rfl) fun i => ?_
  rw [blockOr_iff]
  simp only [Fin.is_lt, true_and]

/-- Step 4 selects the first block that is not empty. -/
theorem ai0_shares_bit (draws : PrefixOrDraws n) {f_shares : Fin lambda → Share n PrimeField}
    {a_shares : Fin l → Share n PrimeField} {c : Fin lambda → Fin lambda → Bool}
    (hf : ∀ i, IsBit (f_shares i) (isFirst (blockOr c) i))
    (ha : ∀ i j, IsBit (a_shares (index i j)) (c i j)) (j : Fin lambda) :
    IsBit (ai0_shares draws f_shares a_shares j) (firstBlock c j) := by
  rw [IsBit, ai0_shares, secret_foldl_finRange, ← sum_bit_firstBlock]
  refine Finset.sum_congr rfl fun i _ => ?_
  rw [secret_mul, hf i, ha i j]

/-- **`subPrefixOr`** computes the prefix disjunction of its bits. -/
theorem subPrefixOr_spec (hn : n < p) (draws : PrefixOrDraws n)
    {a_shares : Fin l → Share n PrimeField} {x : Fin l → Bool} (hx : ∀ i, IsBit (a_shares i) (x i)) :
    ∃ ret, subPrefixOr draws a_shares = .ok ret ∧ ∀ k, IsBit (ret k) (prefixOr x k) := by
  set c : Fin lambda → Fin lambda → Bool := fun i j => x (index i j) with hc
  obtain ⟨x_shares, hxok, hxs⟩ := collect_block_spec hn draws.x hx
  obtain ⟨y_shares, hyok, hys⟩ := collect_prefix_spec hn draws.y hxs
  have hhead : ∀ i : Fin lambda, i.val = 0 → IsBit (x_shares 0) (blockOr c i) := by
    intro i hi
    rw [show i = 0 from Fin.ext hi]
    exact hxs 0
  have hf : ∀ i, IsBit (steps (x_shares 0) y_shares i) (isFirst (blockOr c) i) :=
    steps_bit hhead hys
  have hai0 := ai0_shares_bit draws hf fun i j => hx (index i j)
  obtain ⟨bi0_shares, hbok, hbs⟩ := collect_prefix_spec hn draws.bi0 hai0
  refine ⟨_, by simp only [subPrefixOr, hxok, hyok, hbok, bind, Except.bind]; rfl, fun k => ?_⟩
  rw [IsBit, secret_add, secret_mul, secret_sub, hf, hbs, hys, prefixOr_eq_lexOr, bit_lexOr]

/-! ### `subBitwiseLessThan` -/

/-- What `subBitwiseLessThan` draws. -/
structure BitwiseLessThanDraws (n : ℕ) where
  tripleAb : Fin l → PrimeFieldTriple n
  prefixOr : PrefixOrDraws n
  tripleEb : Fin l → PrimeFieldTriple n

/-- `subBitwiseLessThan`. -/
def subBitwiseLessThan (draws : BitwiseLessThanDraws n)
    (a_shares b_shares : Fin l → Share n PrimeField) : Run (Share n PrimeField) := do
  let ab_shares := bulkMul (fun i => (draws.tripleAb i).toTriple) a_shares b_shares
  let c_shares := fun i => a_shares i + b_shares i - ofNat 2 * ab_shares i
  let d_shares ← subPrefixOr draws.prefixOr c_shares
  let e_shares := steps (d_shares 0) d_shares
  let eb := bulkMul (fun i => (draws.tripleEb i).toTriple) e_shares b_shares
  return (List.finRange l).foldl (fun ret i => ret + eb i) (ofValue (ofNat 0))

/-- **`subBitwiseLessThan`** compares the numbers spelled by two vectors of
bits. -/
theorem subBitwiseLessThan_spec (hn : n < p) (draws : BitwiseLessThanDraws n)
    {a_shares b_shares : Fin l → Share n PrimeField} {x y : Fin l → Bool}
    (hx : ∀ i, IsBit (a_shares i) (x i)) (hy : ∀ i, IsBit (b_shares i) (y i)) :
    ∃ ret, subBitwiseLessThan draws a_shares b_shares = .ok ret ∧
      IsBit ret (decide (MsbBits.value x < MsbBits.value y)) := by
  set c_shares : Fin l → Share n PrimeField := fun i => a_shares i + b_shares i
    - ofNat 2 * bulkMul (fun i => (draws.tripleAb i).toTriple) a_shares b_shares i with hc
  have hxor : ∀ i, IsBit (c_shares i) (x i ^^ y i) := by
    intro i
    rw [IsBit, hc, secret_sub, secret_add, secret_value_mul, secret_bulkMul, hx i, hy i,
      toZMod_ofNat, bit_xor]
    rfl
  obtain ⟨d_shares, hok, hd⟩ := subPrefixOr_spec hn draws.prefixOr hxor
  have hhead : ∀ i : Fin l, i.val = 0 → IsBit (d_shares 0) (x i ^^ y i) := by
    intro i hi
    rw [show i = 0 from Fin.ext hi]
    exact (prefixOr_of_val_eq_zero (fun i => x i ^^ y i) (i := (0 : Fin l)) rfl) ▸ hd 0
  have he : ∀ i, IsBit (steps (d_shares 0) d_shares i) (isFirst (fun i => x i ^^ y i) i) :=
    steps_bit hhead hd
  refine ⟨_, by simp only [subBitwiseLessThan, ← hc, hok, bind, Except.bind]; rfl, ?_⟩
  rw [IsBit, secret_foldl_finRange, ← sum_bit_isFirst_xor]
  refine Finset.sum_congr rfl fun i _ => ?_
  rw [secret_bulkMul, he i, hy i]

end QuickMpc.Share
