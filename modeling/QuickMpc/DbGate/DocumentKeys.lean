import Mathlib.Data.Nat.ModEq
import Mathlib.Order.Monotone.Defs

/-!
# QuickMpc.DbGate.DocumentKeys

The keys of registered documents.

`createCas` puts a 16-bit counter into the low bits of a time stamp, and `getCas` creates
keys until one is not below the last one. The counter comes round after `2 ^ 16` creations;
the key it then makes in the same tick of the upper 48 bits is the last one again, and is
not refused (`getCas_increasing_iff`).
-/

namespace QuickMpc.DbGate.DocumentKeys

/-! ### Model -/

/-- The static variables; `reads` counts the readings of the clock. -/
structure Statics where
  counter : BitVec 16
  precas : BitVec 64
  reads : ℕ
  deriving DecidableEq, Repr

def Statics.initial : Statics := ⟨0, 0, 0⟩

/-- The readings of the clock, in nanoseconds. -/
abbrev Clock := ℕ → BitVec 64

variable (clock : Clock)

def getTimeStamp (s : Statics) : BitVec 64 × Statics :=
  (clock s.reads, { s with reads := s.reads + 1 })

def getLogicalCounter (s : Statics) : BitVec 16 × Statics :=
  (s.counter, { s with counter := s.counter + 1 })

/-- Clears the low 16 bits of a time stamp. -/
def MASK : BitVec 64 := 0xffffffffffff0000

def createCas (s : Statics) : BitVec 64 × Statics :=
  let (timestamp, s) := getTimeStamp clock s
  let (logicalcounter, s) := getLogicalCounter s
  ((MASK &&& timestamp) ||| logicalcounter.setWidth 64, s)

/-- The creations of one call, at most `fuel` of them. -/
def getCasLoop : ℕ → Statics → Option (BitVec 64 × Statics)
  | 0, _ => none
  | fuel + 1, s =>
    let (cas, s) := createCas clock s
    if s.precas ≠ 0 ∧ cas < s.precas then getCasLoop fuel s
    else some (cas, { s with precas := cas })

/-- `getCas`: after `2 ^ 16` creations the counter has come round. -/
def getCas (s : Statics) : Option (BitVec 64 × Statics) := getCasLoop clock 65536 s

/-- Successive calls, with the keys they have returned. -/
inductive Calls : List (BitVec 64) → Statics → Prop
  | start : Calls [] .initial
  | call {keys : List (BitVec 64)} {s s' : Statics} {cas : BitVec 64} :
      Calls keys s → getCas clock s = some (cas, s') → Calls (keys ++ [cas]) s'

/-- The upper 48 bits of a reading. -/
def tick (timestamp : BitVec 64) : ℕ := timestamp.toNat / 65536

/-- What the `j`-th creation makes. -/
def casAt (j : ℕ) : ℕ := tick (clock j) * 65536 + j % 65536

/-! ### One creation -/

theorem MASK_getElem : ∀ i : Fin 64, MASK[i] = decide (16 ≤ i.val) := by decide

theorem MASK_and (timestamp : BitVec 64) : MASK &&& timestamp = timestamp >>> 16 <<< 16 := by
  ext i hi
  have hbit : MASK[i] = decide (16 ≤ i) := MASK_getElem ⟨i, hi⟩
  rw [BitVec.getElem_and, hbit, BitVec.getElem_shiftLeft]
  by_cases h : 16 ≤ i
  · simp [h, BitVec.getLsbD_eq_getElem hi]
  · simp [h]

/-- The upper 48 bits of the time stamp and the counter side by side. -/
theorem toNat_cas (timestamp : BitVec 64) (logicalcounter : BitVec 16) :
    ((MASK &&& timestamp) ||| logicalcounter.setWidth 64).toNat
      = tick timestamp * 65536 + logicalcounter.toNat := by
  have htimestamp := timestamp.isLt
  have hcounter := logicalcounter.isLt
  have hhigh : (timestamp >>> 16 <<< 16).toNat = tick timestamp <<< 16 := by
    rw [BitVec.toNat_shiftLeft, BitVec.toNat_ushiftRight, Nat.shiftRight_eq_div_pow]
    refine Nat.mod_eq_of_lt ?_
    rw [Nat.shiftLeft_eq]
    omega
  have hlow : (logicalcounter.setWidth 64).toNat = logicalcounter.toNat := by
    rw [BitVec.toNat_setWidth]
    omega
  rw [MASK_and, BitVec.toNat_or, hhigh, hlow, ← Nat.shiftLeft_add_eq_or_of_lt hcounter,
    Nat.shiftLeft_eq]

/-! ### One call -/

/-- What a call from `s` has made: the creations before `j` are refused, and `j` is
returned. -/
structure Made (s : Statics) (j : ℕ) (cas : BitVec 64) (s' : Statics) : Prop where
  ge : s.reads ≤ j
  cas_eq : cas.toNat = casAt clock j
  precas : s'.precas = cas
  reads : s'.reads = j + 1
  counter : s'.counter.toNat = (j + 1) % 65536
  accepted : s.precas.toNat ≤ casAt clock j
  refused : ∀ i, s.reads ≤ i → i < j → casAt clock i < s.precas.toNat

variable {clock}

section Call

variable {s s' : Statics} {cas : BitVec 64}

theorem counter_succ (h : s.counter.toNat = s.reads % 65536) :
    (s.counter + 1).toNat = (s.reads + 1) % 65536 := by
  rw [BitVec.toNat_add, h]
  simp

theorem createCas_toNat (h : s.counter.toNat = s.reads % 65536) :
    (createCas clock s).1.toNat = casAt clock s.reads := by
  show ((MASK &&& clock s.reads) ||| s.counter.setWidth 64).toNat = _
  rw [toNat_cas, h, casAt]

theorem getCasLoop_made : ∀ {fuel : ℕ} {s : Statics},
    s.counter.toNat = s.reads % 65536 → getCasLoop clock fuel s = some (cas, s') →
      ∃ j, Made clock s j cas s' := by
  intro fuel
  induction fuel with
  | zero =>
      intro s _ h
      cases h
  | succ fuel ih =>
      intro s hcounter h
      have hcas : (createCas clock s).1.toNat = casAt clock s.reads := createCas_toNat hcounter
      simp only [getCasLoop] at h
      split at h
      next hlt =>
        obtain ⟨j, hmade⟩ := ih (s := (createCas clock s).2) (counter_succ hcounter) h
        refine ⟨j, Nat.le_of_succ_le hmade.ge, hmade.cas_eq, hmade.precas, hmade.reads,
          hmade.counter, hmade.accepted, fun i hi hij => ?_⟩
        rcases hi.eq_or_lt with rfl | hi
        · rw [← hcas]
          exact hlt.2
        · exact hmade.refused i hi hij
      next hge =>
        obtain ⟨rfl, rfl⟩ : (createCas clock s).1 = cas
            ∧ { (createCas clock s).2 with precas := (createCas clock s).1 } = s' := by
          simpa using h
        refine ⟨s.reads, le_rfl, hcas, rfl, rfl, counter_succ hcounter, ?_, fun i hi hij => ?_⟩
        · rw [← hcas]
          by_contra hlt
          refine hge ⟨fun hzero => hlt ?_, BitVec.lt_def.mpr (Nat.lt_of_not_le hlt)⟩
          rw [show s.precas = 0 from hzero]
          exact Nat.zero_le _
        · omega

/-- A call that does not return has refused all creations. -/
theorem getCasLoop_eq_none : ∀ {fuel : ℕ} {s : Statics},
    s.counter.toNat = s.reads % 65536 → getCasLoop clock fuel s = none →
      ∀ i, s.reads ≤ i → i < s.reads + fuel → casAt clock i < s.precas.toNat := by
  intro fuel
  induction fuel with
  | zero =>
      intro s _ _ i hi hlt
      omega
  | succ fuel ih =>
      intro s hcounter h i hi hlt
      have hcas : (createCas clock s).1.toNat = casAt clock s.reads := createCas_toNat hcounter
      simp only [getCasLoop] at h
      split at h
      next hrefused =>
        rcases hi.eq_or_lt with rfl | hi
        · rw [← hcas]
          exact hrefused.2
        · refine ih (s := (createCas clock s).2) (counter_succ hcounter) h i hi ?_
          show i < s.reads + 1 + fuel
          omega
      next => cases h

end Call

/-! ### Successive calls -/

/-- The clock does not go back. -/
def Forward (clock : Clock) : Prop := ∀ i j, i ≤ j → clock i ≤ clock j

/-- No two readings `2 ^ 16` apart, the first of them with the counter at its end, are in
the same tick. -/
def TicksEachRound (clock : Clock) (reads : ℕ) : Prop :=
  ∀ i, i % 65536 = 65535 → i + 65536 < reads → tick (clock i) < tick (clock (i + 65536))

section Calls

variable {keys : List (BitVec 64)} {s s' : Statics} {cas : BitVec 64}

theorem tick_mono (hclock : Forward clock) {i j : ℕ} (h : i ≤ j) :
    tick (clock i) ≤ tick (clock j) := Nat.div_le_div_right (hclock i j h)

/-- A creation with the counter at its end is above all before. -/
theorem casAt_le_of_full (hclock : Forward clock) {i j : ℕ} (h : i ≤ j)
    (hfull : j % 65536 = 65535) : casAt clock i ≤ casAt clock j := by
  have htick := tick_mono hclock h
  unfold casAt
  omega

/-- What holds after some calls: the last key is the last creation, and the largest one. -/
structure Inv (clock : Clock) (keys : List (BitVec 64)) (s : Statics) : Prop where
  counter : s.counter.toNat = s.reads % 65536
  start : keys = [] → s = .initial
  last : keys ≠ [] → ∃ j, j + 1 = s.reads ∧ s.precas.toNat = casAt clock j
  mem : keys ≠ [] → s.precas ∈ keys
  keys_le : ∀ key ∈ keys, key ≤ s.precas
  casAt_le : ∀ i, i < s.reads → casAt clock i ≤ s.precas.toNat

theorem Inv.made (h : Inv clock keys s) {j : ℕ} (hmade : Made clock s j cas s') :
    Inv clock (keys ++ [cas]) s' := by
  have hle : s.precas ≤ cas := by
    rw [BitVec.le_def, hmade.cas_eq]
    exact hmade.accepted
  refine ⟨by rw [hmade.reads, hmade.counter], by simp, fun _ => ⟨j, hmade.reads.symm, ?_⟩,
    fun _ => by simp [hmade.precas], fun key hkey => ?_, fun i hi => ?_⟩
  · rw [hmade.precas, hmade.cas_eq]
  · rw [hmade.precas]
    rcases List.mem_append.mp hkey with hkey | hkey
    · exact BitVec.le_trans (h.keys_le key hkey) hle
    · rw [List.mem_singleton.mp hkey]
      exact BitVec.le_refl _
  · rw [hmade.precas, hmade.cas_eq]
    rw [hmade.reads] at hi
    by_cases hlt : i < s.reads
    · exact (h.casAt_le i hlt).trans hmade.accepted
    · rcases Nat.eq_or_lt_of_le (Nat.le_of_lt_succ hi) with rfl | hij
      · exact le_rfl
      · exact (hmade.refused i (by omega) hij).le.trans hmade.accepted

theorem inv_calls (h : Calls clock keys s) : Inv clock keys s := by
  induction h with
  | start =>
      refine ⟨rfl, fun _ => rfl, by simp, by simp, by simp, fun i hi => ?_⟩
      exact absurd hi (Nat.not_lt_zero i)
  | call _ hcas ih =>
      obtain ⟨j, hmade⟩ := getCasLoop_made ih.counter hcas
      exact ih.made hmade

/-- The next creation with the counter at its end is accepted at the latest. -/
theorem Inv.getCas_returns (h : Inv clock keys s) (hclock : Forward clock) :
    ∃ cas s', getCas clock s = some (cas, s') := by
  cases hcas : getCas clock s with
  | some r => exact ⟨r.1, r.2, rfl⟩
  | none =>
      have hrefused := getCasLoop_eq_none h.counter hcas
      obtain ⟨i, hge, hfull⟩ : ∃ i, s.reads ≤ i ∧ i < s.reads + 65536 ∧ i % 65536 = 65535 :=
        ⟨s.reads + (65535 - s.reads % 65536), by omega, by omega, by omega⟩
      have hlt := hrefused i hge hfull.1
      by_cases hkeys : keys = []
      · rw [h.start hkeys] at hlt
        exact absurd hlt (Nat.not_lt_zero _)
      · obtain ⟨j, hj, hlast⟩ := h.last hkeys
        have hji : j ≤ i := by omega
        have hle := casAt_le_of_full hclock hji hfull.2
        omega

/-- A key is above the last one unless the counter has come round in the same tick. -/
theorem Made.new_iff (h : Inv clock keys s) (hclock : Forward clock) (hkeys : keys ≠ []) {j : ℕ}
    (hmade : Made clock s j cas s') (hround : TicksEachRound clock s.reads) :
    s.precas < cas ↔ TicksEachRound clock (j + 1) := by
  obtain ⟨r, hr, hlast⟩ := h.last hkeys
  have hge := hmade.ge
  have haccepted := hmade.accepted
  rw [BitVec.lt_def, hmade.cas_eq]
  constructor
  · intro hlt i hi hreads
    by_cases hold : i + 65536 < s.reads
    · exact hround i hi hold
    · have hfull : (i + 65536) % 65536 = 65535 := by omega
      have hri : r ≤ i + 65536 := by omega
      have hle := casAt_le_of_full hclock hri hfull
      -- `i + 65536` would have been accepted before `j`
      obtain rfl : i + 65536 = j := by
        by_contra hne
        have hrefused := hmade.refused (i + 65536) (by omega) (by omega)
        omega
      refine (tick_mono hclock (Nat.le_add_right i 65536)).lt_of_ne fun heq => ?_
      have hsame : casAt clock i = casAt clock (i + 65536) := by
        unfold casAt
        omega
      by_cases hread : i < s.reads
      · have hbefore := h.casAt_le i hread
        omega
      · have hrefused := hmade.refused i (by omega) (by omega)
        omega
  · intro hticks
    refine haccepted.lt_of_ne fun heq => ?_
    have hrj : r ≤ j := by omega
    have hsame : casAt clock r = casAt clock j := hlast.symm.trans heq
    have htick := tick_mono hclock hrj
    have hround' : tick (clock r) = tick (clock j) ∧ r % 65536 = j % 65536 := by
      unfold casAt at hsame
      omega
    by_cases hfull : r % 65536 = 65535
    · have hnext := hticks r hfull (by omega)
      have hle : tick (clock (r + 65536)) ≤ tick (clock j) := tick_mono hclock (by omega)
      omega
    · -- the creation after the last one is above it
      have hrefused := hmade.refused (r + 1) (by omega) (by omega)
      have hle : tick (clock r) ≤ tick (clock (r + 1)) := tick_mono hclock (Nat.le_succ r)
      rw [hlast] at hrefused
      unfold casAt at hrefused
      omega

theorem TicksEachRound.mono {reads reads' : ℕ} (h : TicksEachRound clock reads')
    (hle : reads ≤ reads') : TicksEachRound clock reads :=
  fun i hi hlt => h i hi (Nat.lt_of_lt_of_le hlt hle)

theorem keys_pairwise_iff (hclock : Forward clock) (h : Calls clock keys s) :
    keys.Pairwise (· < ·) ↔ TicksEachRound clock s.reads := by
  induction h with
  | start =>
      refine iff_of_true .nil fun i _ hlt => absurd hlt ?_
      show ¬i + 65536 < 0
      omega
  | @call keys s s' cas h hcas ih =>
      have hinv := inv_calls h
      obtain ⟨j, hmade⟩ := getCasLoop_made hinv.counter hcas
      rw [List.pairwise_append, ih, hmade.reads]
      by_cases hkeys : keys = []
      · -- nothing is refused before the first key
        have hj : j = 0 := by
          by_contra hne
          have hrefused := hmade.refused 0 (by rw [hinv.start hkeys]; exact le_rfl) (by omega)
          rw [hinv.start hkeys] at hrefused
          exact absurd hrefused (Nat.not_lt_zero _)
        have hreads := hmade.ge
        subst hkeys
        refine iff_of_true ⟨fun i _ hlt => ?_, List.pairwise_singleton _ _, by simp⟩
          fun i _ hlt => ?_ <;> omega
      · constructor
        · intro hkeep
          refine (hmade.new_iff hinv hclock hkeys hkeep.1).mp ?_
          exact hkeep.2.2 _ (hinv.mem hkeys) _ (List.mem_singleton_self _)
        · intro hticks
          have hround : TicksEachRound clock s.reads := hticks.mono (Nat.le_succ_of_le hmade.ge)
          have hnew := (hmade.new_iff hinv hclock hkeys hround).mpr hticks
          refine ⟨hround, List.pairwise_singleton _ _, fun key hkey cas' hcas' => ?_⟩
          obtain rfl := List.mem_singleton.mp hcas'
          exact Nat.lt_of_le_of_lt (hinv.keys_le key hkey) hnew

theorem exists_calls (hclock : Forward clock) (n : ℕ) :
    ∃ keys s, keys.length = n ∧ Calls clock keys s := by
  induction n with
  | zero => exact ⟨[], .initial, rfl, .start⟩
  | succ n ih =>
      obtain ⟨keys, s, hlength, hcalls⟩ := ih
      obtain ⟨cas, s', hcas⟩ := (inv_calls hcalls).getCas_returns hclock
      exact ⟨keys ++ [cas], s', by simp [hlength], hcalls.call hcas⟩

/-- Every call reads the clock. -/
theorem length_le_reads (h : Calls clock keys s) : keys.length ≤ s.reads := by
  induction h with
  | start => exact Nat.zero_le _
  | @call keys s s' cas h hcas ih =>
      obtain ⟨j, hmade⟩ := getCasLoop_made (inv_calls h).counter hcas
      have hge := hmade.ge
      rw [List.length_append, List.length_singleton, hmade.reads]
      omega

/-- **When the keys increase.** With a clock that does not go back any number of calls
return, and their keys increase exactly when every round of the counter takes the clock to
another tick of `2 ^ 16` nanoseconds. -/
theorem getCas_increasing_iff (hclock : Forward clock) :
    (∀ n, ∃ keys s, keys.length = n ∧ Calls clock keys s)
      ∧ ∀ keys s, Calls clock keys s →
        (keys.Pairwise (· < ·) ↔ TicksEachRound clock s.reads) :=
  ⟨exists_calls hclock, fun _ _ => keys_pairwise_iff hclock⟩

end Calls

/-- A clock that reads the same time three times. -/
theorem getCas_increasing_iff_late :
    let clock : Clock := fun i => if i < 3 then 65536 else 131072
    ∃ keys s, keys.length = 5 ∧ Calls clock keys s
      ∧ (keys.Pairwise (· < ·) ↔ TicksEachRound clock s.reads) := by
  intro clock
  have hclock : Forward clock := by
    intro i j hij
    by_cases hi : i < 3
    · by_cases hj : j < 3
      · simp [clock, hi, hj]
      · simp [clock, hi, hj]
    · have hj : ¬j < 3 := by omega
      simp [clock, hi, hj]
  obtain ⟨hcalls, hkeys⟩ := getCas_increasing_iff hclock
  obtain ⟨keys, s, hlength, h⟩ := hcalls 5
  exact ⟨keys, s, hlength, h, hkeys keys s h⟩

/-- More calls than the counter has values, in one tick. -/
theorem getCas_repeats_key :
    Forward (fun _ => 0) ∧ ∃ keys s, keys.length = 131072 ∧ Calls (fun _ => 0) keys s
      ∧ ¬keys.Pairwise (· < ·) := by
  have hclock : Forward (fun _ => 0) := fun _ _ _ => BitVec.le_refl _
  obtain ⟨keys, s, hlength, hcalls⟩ := exists_calls hclock 131072
  refine ⟨hclock, keys, s, hlength, hcalls, fun hkeys => ?_⟩
  have hticks := (keys_pairwise_iff hclock hcalls).mp hkeys
  have hreads := length_le_reads hcalls
  exact absurd (hticks 65535 rfl (by omega)) (Nat.lt_irrefl _)

end QuickMpc.DbGate.DocumentKeys
