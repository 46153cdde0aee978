import Mathlib.Data.List.Nodup
import Mathlib.Data.List.Range
import QuickMpc.Multiplication

/-!
# QuickMpc.TripleHandler

`TripleHandler`: the queues of multiplication triples of a job thread, and their
refills from the triple service.

Both value types draw on the one stream of `GetTriples` answers of the job, each
through its own queue. A queue with fewer than `threshold` triples is refilled,
before a triple is taken out, with the next answer of the service: as it stands
for `FixedPoint`, and turned into the constants `(1, 1, n)` for `PrimeField`,
which discards it.

The handler never looks at a triple. A run on the shares of a party is therefore
the image of one run on the *positions* `(k, j)`, the `j`-th triple of the `k`-th
answer (`getTriples_map`), and what holds of positions holds at all parties at
once.
-/

namespace QuickMpc.TripleHandler

/-- One triple of a `GetTriples` response: the party's `int64` shares. -/
abbrev Answer := ℤ × ℤ × ℤ

abbrev TripleFp := FixedPoint × FixedPoint × FixedPoint
abbrev TriplePf := PrimeField × PrimeField × PrimeField

/-- `convertStr2Triple<TripleFp>`. -/
def convertFp (buf : Answer) : TripleFp := (.ofInt buf.1, .ofInt buf.2.1, .ofInt buf.2.2)

/-- `convertStr2Triple<TriplePf>` does not read the answer. -/
def convertPf (n_parties : ℕ) (_buf : Answer) : TriplePf := (.ofNat 1, .ofNat 1, .ofNat n_parties)

/-- A queue is refilled when it holds fewer triples, with that many. -/
def threshold : ℕ := 100000

theorem threshold_pos : 0 < threshold := by decide

/-- The value type of a queue. -/
inductive ValueType
  | fixedPoint
  | primeField
  deriving DecidableEq

variable {ι α TV TFp TPf : Type}

/-! ### The code

`refills` is the history of the service calls of the job: the value type whose
queue was refilled by the `k`-th call. -/

/-- `takeOutTriple`; `none` where `front` is called on an empty queue. -/
def takeOutTriple (type : ValueType) (convert : α → TV) (readTriples : ℕ → List α)
    (refills : List ValueType) (triple_queue : List TV) :
    Option (TV × List ValueType × List TV) :=
  let (refills, triple_queue) :=
    if triple_queue.length < threshold then
      (refills ++ [type], triple_queue ++ (readTriples refills.length).map convert)
    else (refills, triple_queue)
  match triple_queue with
  | [] => none
  | triple :: rest => some (triple, refills, rest)

/-- The loop of `getTriple`, on the queue of one value type. -/
def getTriple (type : ValueType) (convert : α → TV) (readTriples : ℕ → List α) :
    ℕ → List ValueType → List TV → Option (List TV × List ValueType × List TV)
  | 0, refills, triple_queue => some ([], refills, triple_queue)
  | needCount + 1, refills, triple_queue => do
    let (triple, refills, triple_queue) ←
      takeOutTriple type convert readTriples refills triple_queue
    let (ret, refills, triple_queue) ←
      getTriple type convert readTriples needCount refills triple_queue
    return (triple :: ret, refills, triple_queue)

/-- The handler of a job thread, and the triples it has handed out. -/
structure State (TFp TPf : Type) where
  refills : List ValueType
  triple_fp_queue : List TFp
  triple_pf_queue : List TPf
  handedFp : List TFp
  handedPf : List TPf

/-- The queues are thread-local: a job starts with empty ones. -/
def initial (TFp TPf : Type) : State TFp TPf := ⟨[], [], [], [], []⟩

/-- A call of `getTriple<SV>(needCount)`. -/
structure Call where
  type : ValueType
  needCount : ℕ

/-- One call by the job thread. -/
def call (convertFp : α → TFp) (convertPf : α → TPf) (readTriples : ℕ → List α)
    (s : State TFp TPf) (c : Call) : Option (State TFp TPf) :=
  match c.type with
  | .fixedPoint => do
    let (ret, refills, queue) ←
      getTriple .fixedPoint convertFp readTriples c.needCount s.refills s.triple_fp_queue
    return ⟨refills, queue, s.triple_pf_queue, s.handedFp ++ ret, s.handedPf⟩
  | .primeField => do
    let (ret, refills, queue) ←
      getTriple .primeField convertPf readTriples c.needCount s.refills s.triple_pf_queue
    return ⟨refills, s.triple_fp_queue, queue, s.handedFp, s.handedPf ++ ret⟩

/-- The calls of a job, in order. -/
def getTriples (convertFp : α → TFp) (convertPf : α → TPf) (readTriples : ℕ → List α)
    (calls : List Call) (s : State TFp TPf) : Option (State TFp TPf) :=
  calls.foldlM (call convertFp convertPf readTriples) s

/-! ### The handler does not look at its triples -/

section Naturality

variable (f : ι → α)

theorem takeOutTriple_map (type : ValueType) (convert : α → TV) (answers : ℕ → List ι)
    (refills : List ValueType) (queue : List ι) :
    takeOutTriple type convert (fun k => (answers k).map f) refills (queue.map (convert ∘ f))
      = (takeOutTriple type id answers refills queue).map
          fun (t, r, q) => (convert (f t), r, q.map (convert ∘ f)) := by
  unfold takeOutTriple
  by_cases hlow : queue.length < threshold
  · simp only [List.length_map, if_pos hlow, List.map_map, ← List.map_append, List.map_id]
    cases queue ++ answers refills.length <;> rfl
  · simp only [List.length_map, if_neg hlow]
    cases queue <;> rfl

theorem getTriple_map (type : ValueType) (convert : α → TV) (answers : ℕ → List ι)
    (needCount : ℕ) (refills : List ValueType) (queue : List ι) :
    getTriple type convert (fun k => (answers k).map f) needCount refills (queue.map (convert ∘ f))
      = (getTriple type id answers needCount refills queue).map
          fun (ret, r, q) => (ret.map (convert ∘ f), r, q.map (convert ∘ f)) := by
  induction needCount generalizing refills queue with
  | zero => rfl
  | succ needCount ih =>
      rw [getTriple, getTriple, takeOutTriple_map]
      cases takeOutTriple type id answers refills queue with
      | none => rfl
      | some taken =>
          obtain ⟨t, r, q⟩ := taken
          simp only [Option.map_some, Option.bind_eq_bind, Option.bind_some, ih]
          cases getTriple type id answers needCount r q <;> rfl

/-- A state on positions, seen through the triples at these positions. -/
def State.map (convertFp : α → TFp) (convertPf : α → TPf) (s : State ι ι) : State TFp TPf where
  refills := s.refills
  triple_fp_queue := s.triple_fp_queue.map (convertFp ∘ f)
  triple_pf_queue := s.triple_pf_queue.map (convertPf ∘ f)
  handedFp := s.handedFp.map (convertFp ∘ f)
  handedPf := s.handedPf.map (convertPf ∘ f)

theorem call_map (convertFp : α → TFp) (convertPf : α → TPf) (answers : ℕ → List ι) (c : Call)
    (s : State ι ι) :
    call convertFp convertPf (fun k => (answers k).map f) (s.map f convertFp convertPf) c
      = (call id id answers s c).map (State.map f convertFp convertPf) := by
  unfold call
  cases c.type with
  | fixedPoint =>
      simp only [State.map, getTriple_map]
      cases getTriple .fixedPoint id answers c.needCount s.refills s.triple_fp_queue with
      | none => rfl
      | some given => simp [State.map]
  | primeField =>
      simp only [State.map, getTriple_map]
      cases getTriple .primeField id answers c.needCount s.refills s.triple_pf_queue with
      | none => rfl
      | some given => simp [State.map]

theorem getTriples_map (convertFp : α → TFp) (convertPf : α → TPf) (answers : ℕ → List ι)
    (calls : List Call) (s : State ι ι) :
    getTriples convertFp convertPf (fun k => (answers k).map f) calls (s.map f convertFp convertPf)
      = (getTriples id id answers calls s).map (State.map f convertFp convertPf) := by
  unfold getTriples
  induction calls generalizing s with
  | nil => rfl
  | cons c calls ih =>
      rw [List.foldlM_cons, List.foldlM_cons, call_map]
      cases call id id answers s c with
      | none => rfl
      | some s' => exact ih s'

end Naturality

/-! ### What is handed out

The triples fetched for one value type, in the order of the service calls, are
those handed out and then those in its queue. -/

section Fetched

variable {answers : ℕ → List α}

/-- The answers of the service calls that refilled the queue of a value type. -/
def fetched (type : ValueType) (answers : ℕ → List α) (refills : List ValueType) : List α :=
  refills.zipIdx.flatMap fun e => if e.1 = type then answers e.2 else []

theorem fetched_append (type t : ValueType) (refills : List ValueType) :
    fetched type answers (refills ++ [t])
      = fetched type answers refills ++ if t = type then answers refills.length else [] := by
  simp [fetched, List.zipIdx_append]

/-- A triple is always there; the queue is refilled behind its triples. -/
theorem takeOutTriple_spec (hlen : ∀ k, (answers k).length = threshold) (type : ValueType)
    (refills : List ValueType) (queue : List α) :
    ∃ triple r q ext, takeOutTriple type id answers refills queue = some (triple, r, q) ∧
      triple :: q = queue ++ ext ∧ fetched type answers r = fetched type answers refills ++ ext ∧
      ∀ other ≠ type, fetched other answers r = fetched other answers refills := by
  have hpos := threshold_pos
  unfold takeOutTriple
  by_cases hlow : queue.length < threshold
  · simp only [if_pos hlow, List.map_id]
    cases hqueue : queue ++ answers refills.length with
    | nil =>
        have hnil := congrArg List.length hqueue
        simp only [List.length_append, hlen, List.length_nil] at hnil
        omega
    | cons triple q =>
        refine ⟨triple, _, q, answers refills.length, rfl, hqueue.symm, ?_, fun other hne => ?_⟩
        · rw [fetched_append, if_pos rfl]
        · rw [fetched_append, if_neg (Ne.symm hne), List.append_nil]
  · simp only [if_neg hlow]
    cases queue with
    | nil => exact absurd hpos hlow
    | cons triple q =>
        exact ⟨triple, _, q, [], rfl, (List.append_nil _).symm, (List.append_nil _).symm,
          fun _ _ => rfl⟩

theorem getTriple_spec (hlen : ∀ k, (answers k).length = threshold) (type : ValueType)
    (needCount : ℕ) (refills : List ValueType) (queue : List α) :
    ∃ ret r q ext, getTriple type id answers needCount refills queue = some (ret, r, q) ∧
      ret.length = needCount ∧ ret ++ q = queue ++ ext ∧
      fetched type answers r = fetched type answers refills ++ ext ∧
      ∀ other ≠ type, fetched other answers r = fetched other answers refills := by
  induction needCount generalizing refills queue with
  | zero => exact ⟨[], refills, queue, [], rfl, rfl, by simp, by simp, fun _ _ => rfl⟩
  | succ needCount ih =>
      obtain ⟨triple, r, q, ext, htake, hqueue, htype, hother⟩ :=
        takeOutTriple_spec hlen type refills queue
      obtain ⟨ret, r', q', ext', hloop, hret, hqueue', htype', hother'⟩ := ih r q
      refine ⟨triple :: ret, r', q', ext ++ ext', ?_, congrArg (· + 1) hret, ?_, ?_, ?_⟩
      · simp [getTriple, htake, hloop]
      · rw [List.cons_append, hqueue', ← List.cons_append, hqueue, List.append_assoc]
      · rw [htype', htype, List.append_assoc]
      · intro other hne
        rw [hother' other hne, hother other hne]

/-- What was fetched was handed out or waits in its queue. -/
structure Stocked (answers : ℕ → List α) (s : State α α) : Prop where
  fp : s.handedFp ++ s.triple_fp_queue = fetched .fixedPoint answers s.refills
  pf : s.handedPf ++ s.triple_pf_queue = fetched .primeField answers s.refills

/-- The triples that the calls ask for. -/
def requested (type : ValueType) (calls : List Call) : ℕ :=
  (calls.map fun c => if c.type = type then c.needCount else 0).sum

theorem call_spec (hlen : ∀ k, (answers k).length = threshold) {s : State α α}
    (hs : Stocked answers s) (c : Call) :
    ∃ s', call id id answers s c = some s' ∧ Stocked answers s' ∧
      s'.handedFp.length = s.handedFp.length + requested .fixedPoint [c] := by
  cases htype : c.type with
  | fixedPoint =>
      obtain ⟨ret, r, q, ext, hget, hret, hqueue, hfetched, hother⟩ :=
        getTriple_spec hlen .fixedPoint c.needCount s.refills s.triple_fp_queue
      refine ⟨⟨r, q, s.triple_pf_queue, s.handedFp ++ ret, s.handedPf⟩, ?_, ⟨?_, ?_⟩, ?_⟩
      · simp [call, htype, hget]
      · rw [List.append_assoc, hqueue, ← List.append_assoc, hs.fp, hfetched]
      · rw [hs.pf, hother _ (by decide)]
      · simp [requested, htype, hret]
  | primeField =>
      obtain ⟨ret, r, q, ext, hget, hret, hqueue, hfetched, hother⟩ :=
        getTriple_spec hlen .primeField c.needCount s.refills s.triple_pf_queue
      refine ⟨⟨r, s.triple_fp_queue, q, s.handedFp, s.handedPf ++ ret⟩, ?_, ⟨?_, ?_⟩, ?_⟩
      · simp [call, htype, hget]
      · rw [hs.fp, hother _ (by decide)]
      · rw [List.append_assoc, hqueue, ← List.append_assoc, hs.pf, hfetched]
      · simp [requested, htype]

/-- Every sequence of calls is served. -/
theorem getTriples_spec (hlen : ∀ k, (answers k).length = threshold) (calls : List Call)
    {s : State α α} (hs : Stocked answers s) :
    ∃ s', getTriples id id answers calls s = some s' ∧ Stocked answers s' ∧
      s'.handedFp.length = s.handedFp.length + requested .fixedPoint calls := by
  induction calls generalizing s with
  | nil => exact ⟨s, rfl, hs, rfl⟩
  | cons c calls ih =>
      obtain ⟨s₁, hcall, hs₁, hlength₁⟩ := call_spec hlen hs c
      obtain ⟨s₂, hrun, hs₂, hlength₂⟩ := ih hs₁
      refine ⟨s₂, ?_, hs₂, ?_⟩
      · rw [getTriples, List.foldlM_cons, hcall]
        exact hrun
      · rw [hlength₂, hlength₁]
        simp [requested, Nat.add_assoc]

end Fetched

/-! ### Alignment -/

/-- The positions of the `k`-th answer. -/
def positions (k : ℕ) : List (ℕ × ℕ) := (List.range threshold).map (Prod.mk k)

theorem length_positions (k : ℕ) : (positions k).length = threshold := by
  rw [positions, List.length_map, List.length_range]

/-- No position is fetched twice. -/
theorem nodup_fetched_positions (type : ValueType) (refills : List ValueType) :
    (fetched type positions refills).Nodup := by
  rw [fetched, List.nodup_flatMap]
  refine ⟨fun e _ => ?_, ?_⟩
  · split
    · exact List.nodup_range.map (Prod.mk_right_injective e.2)
    · exact List.nodup_nil
  · have hcalls : refills.zipIdx.Pairwise fun e e' => e.2 ≠ e'.2 := by
      rw [← List.pairwise_map (f := Prod.snd) (R := (· ≠ ·)), List.zipIdx_map_snd]
      exact List.nodup_range'
    refine hcalls.imp fun {e e'} hne => ?_
    intro x hx hx'
    simp only [positions, List.mem_ite_nil_right, List.mem_map] at hx hx'
    obtain ⟨-, j, -, rfl⟩ := hx
    obtain ⟨-, j', -, hj'⟩ := hx'
    exact hne (congrArg Prod.fst hj').symm

/-- The shares of a triple at one party. -/
def answerAt {n : ℕ} (i : Fin n) (t : BtsTriple n) : Answer := (t.a i, t.b i, t.c i)

/-- They are what multiplication works with. -/
theorem convertFp_answerAt {n : ℕ} (i : Fin n) (t : BtsTriple n) :
    convertFp (answerAt i t)
      = (t.convertStr2Triple.a.value i, t.convertStr2Triple.b.value i,
          t.convertStr2Triple.c.value i) := rfl

/-- The triple at a position. -/
def tripleAt {n : ℕ} (triples : ℕ → List (BtsTriple n)) (kj : ℕ × ℕ) : BtsTriple n :=
  (triples kj.1)[kj.2]?.getD ⟨fun _ => 0, fun _ => 0, fun _ => 0, by simp⟩

theorem getElem?_eq_tripleAt {n : ℕ} {triples : ℕ → List (BtsTriple n)}
    (hlen : ∀ k, (triples k).length = threshold) (kj : ℕ × ℕ) (h : kj.2 < threshold) :
    (triples kj.1)[kj.2]? = some (tripleAt triples kj) := by
  rw [tripleAt, List.getElem?_eq_getElem (by rw [hlen]; exact h), Option.getD_some]

theorem getElem_positions {k j : ℕ} (hj : j < (positions k).length) :
    (positions k)[j] = (k, j) := by
  simp only [positions, List.getElem_map, List.getElem_range]

/-- An answer, read off its positions. -/
theorem map_tripleAt_positions {n : ℕ} {triples : ℕ → List (BtsTriple n)}
    (hlen : ∀ k, (triples k).length = threshold) (k : ℕ) :
    (positions k).map (tripleAt triples) = triples k := by
  refine List.ext_getElem (by rw [List.length_map, length_positions, hlen]) fun j hj hj' => ?_
  have hlow : j < threshold := by rwa [hlen] at hj'
  have hat : some (triples k)[j] = some (tripleAt triples (k, j)) := by
    rw [← List.getElem?_eq_getElem hj']
    exact getElem?_eq_tripleAt hlen (k, j) hlow
  rw [List.getElem_map, getElem_positions, Option.some.inj hat]

/-- A fetched position lies in its answer. -/
theorem snd_lt_of_mem_fetched {type : ValueType} {refills : List ValueType} {kj : ℕ × ℕ}
    (h : kj ∈ fetched type positions refills) : kj.2 < threshold := by
  simp only [fetched, List.mem_flatMap, List.mem_ite_nil_right, positions, List.mem_map,
    List.mem_range] at h
  obtain ⟨_, -, -, j, hj, rfl⟩ := h
  exact hj

/-- **The triples stay aligned.** Whatever the calls of a job are, every party is
served and hands out the shares of the same triples in the same order. Their
positions are an initial piece of the answers that were fetched for `FixedPoint`,
none of them is repeated or left out, and each call gets as many as it asks for. -/
theorem getTriple_aligned {n : ℕ} (triples : ℕ → List (BtsTriple n))
    (hlen : ∀ k, (triples k).length = 100000) (calls : List Call) :
    ∃ (refills : List ValueType) (order : List (ℕ × ℕ)) (handed : List (BtsTriple n)),
      order.Nodup ∧ order <+: fetched .fixedPoint positions refills ∧
      order.length = requested .fixedPoint calls ∧
      (order.map fun kj => (triples kj.1)[kj.2]?) = handed.map some ∧
      ∀ i : Fin n, ∃ s,
        getTriples convertFp (convertPf n) (fun k => (triples k).map (answerAt i)) calls
          (initial TripleFp TriplePf) = some s ∧
        s.refills = refills ∧ s.handedFp = handed.map fun t => convertFp (answerAt i t) := by
  obtain ⟨s, hrun, hs, hlength⟩ := getTriples_spec length_positions calls
    (s := initial (ℕ × ℕ) (ℕ × ℕ)) ⟨rfl, rfl⟩
  have horder : s.handedFp <+: fetched .fixedPoint positions s.refills := ⟨_, hs.fp⟩
  refine ⟨s.refills, s.handedFp, s.handedFp.map (tripleAt triples),
    (nodup_fetched_positions _ _).sublist horder.sublist, horder, ?_, ?_, fun i => ?_⟩
  · rw [hlength]
    exact Nat.zero_add _
  · rw [List.map_map]
    refine List.map_congr_left fun kj hkj => ?_
    exact getElem?_eq_tripleAt hlen kj (snd_lt_of_mem_fetched (horder.subset hkj))
  · have hanswers : (fun k => (triples k).map (answerAt i))
        = fun k => (positions k).map (answerAt i ∘ tripleAt triples) := by
      funext k
      rw [← List.map_map, map_tripleAt_positions hlen k]
    have hmap := getTriples_map (answerAt i ∘ tripleAt triples) convertFp (convertPf n) positions
      calls (initial _ _)
    rw [hrun] at hmap
    rw [hanswers]
    refine ⟨_, hmap, rfl, ?_⟩
    simp [State.map, Function.comp_def]

/-- Two parties; the `j`-th triple of the `k`-th answer is `(k, j, k * j)`, held by
the first of them. -/
theorem getTriple_aligned_two :
    let triples : ℕ → List (BtsTriple 2) := fun k => (List.range 100000).map fun j : ℕ =>
      ⟨![k, 0], ![j, 0], ![k * j, 0], by simp⟩
    ∃ (refills : List ValueType) (order : List (ℕ × ℕ)) (handed : List (BtsTriple 2)),
      order.Nodup ∧ order <+: fetched .fixedPoint positions refills ∧
      order.length = requested .fixedPoint [⟨.primeField, 3⟩, ⟨.fixedPoint, 250000⟩] ∧
      (order.map fun kj => (triples kj.1)[kj.2]?) = handed.map some ∧
      ∀ i : Fin 2, ∃ s,
        getTriples convertFp (convertPf 2) (fun k => (triples k).map (answerAt i))
          [⟨.primeField, 3⟩, ⟨.fixedPoint, 250000⟩] (initial TripleFp TriplePf) = some s ∧
        s.refills = refills ∧ s.handedFp = handed.map fun t => convertFp (answerAt i t) := by
  intro triples
  exact getTriple_aligned triples (fun k => by simp [triples]) _

end QuickMpc.TripleHandler
