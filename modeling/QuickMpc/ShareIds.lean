import QuickMpc.LessThanZero
import QuickMpc.Lib.Spmd

/-!
# QuickMpc.ShareIds

The share ids of a job thread, and the messages sent under them.

Default, value and copy construction of a `Share` draw the next id
(`share_id_generator++`); so does the construction of an `AddressId`, of which
`recons` builds one for each element and each party when it opens a vector. Move
construction, assignment and compound assignment draw nothing, so a value
computed into an existing share keeps the id of that share. An operator that
Boost derives from a compound assignment copies its left operand once. The
threads in which `open` sends have counters of their own.

Only what decides about ids is modelled: a share is its id, and an operation that
does not send a share does not take it. What is read from a message is left to
the list of opened values, as stored integers; it decides how long the rejection
loops run and which branch is taken after an opening. Ids drawn in a row are
drawn by one `times`, in the order of the source.

Each operation comes with its triple `Lockstep [] op post`: the parties draw the
same ids and every message is waited for, and `post` are ids under which nothing
was sent yet, so that the caller may open them. One operation may end at one
party alone: when `getInv` of fixed-point shares opens 0, the division throws at
`sp_id`, which has not yet dealt the inverse that the others wait for.
-/

namespace QuickMpc.ShareIds

open Spmd PrimeField

variable {n : ℕ}

/-- The thread of one party. -/
abbrev Thread (n : ℕ) (α : Type) := Spmd.Program n ℤ Abort α

/-! ### Constructions, `open` and `recons` -/

/-- `Share()` and `Share(const SV &)`. -/
def construct : Thread n ℕ := fresh

/-- `Share(const Share &)`. -/
def copy : Thread n ℕ := fresh

/-- An operator derived from a compound assignment that draws nothing, of two
shares or of a share and a public value: `Share nrv(lhs); nrv OP= rhs; return
nrv;`. Unary minus copies likewise. -/
def operator : Thread n ℕ := fresh

theorem lockstep_fresh : Lockstep [] (fresh : Thread n ℕ) fun id => [id] := Lockstep.fresh

/-- A construction whose share is not sent. -/
theorem lockstep_temporary : Lockstep [] (fresh : Thread n ℕ) fun _ => [] := Lockstep.fresh.drop

/-- Constructions whose shares are not sent. -/
theorem lockstep_temporaries (k : ℕ) : Lockstep [] (times k fresh : Thread n (List ℕ)) fun _ => [] :=
  (Lockstep.times Lockstep.fresh k).drop

/-- `open(x)` and `recons(x)`, for one share. -/
def openRecons (id : ℕ) : Thread n ℤ := do
  exchange [id] 0
  input .outOfDraws

/-- `open(x)` and `recons(x)`, for a vector: `ids_list` is constructed once for
each party. -/
def openReconsVec (ids : List ℕ) : Thread n (List ℤ) := do
  exchange ids (n * ids.length)
  each ids fun _ => input .outOfDraws

theorem lockstep_openRecons (id : ℕ) :
    Lockstep [id] (openRecons id : Thread n ℤ) fun _ => [] :=
  (Lockstep.exchange [id] 0).bind fun _ => Lockstep.input _

theorem lockstep_openReconsVec (ids : List ℕ) :
    Lockstep ids (openReconsVec ids : Thread n (List ℤ)) fun _ => [] :=
  (Lockstep.exchange ids _).bind fun _ => Lockstep.loop fun _ => Lockstep.input _

/-! ### Multiplication -/

/-- `operator*=(const Share &)`. -/
def mulAssign : Thread n Unit := do
  -- `a`, `b`, `c`, then `d`, `(*this) - a`, `e`, `obj - b`
  let _ ← times 7 fresh
  -- the elements of the initializer list, and their copies in `de`
  let _ ← times 2 operator
  let de ← times 2 copy
  let _ ← openReconsVec de
  -- `v`, and the five operators of `c + de_rec[0] * b + de_rec[1] * a + …`
  let _ ← times 6 fresh
  return ()

/-- `operator*` of two shares. -/
def mul : Thread n ℕ := do
  let nrv ← copy
  mulAssign
  return nrv

theorem lockstep_mulAssign : Lockstep [] (mulAssign : Thread n Unit) fun _ => [] :=
  (lockstep_temporaries 7).bind fun _ => (lockstep_temporaries 2).bind fun _ =>
    (Lockstep.times Lockstep.fresh 2).bind fun de => (lockstep_openReconsVec de).bind fun _ =>
      (lockstep_temporaries 6).bind fun _ => Lockstep.pure List.nil_subperm

theorem lockstep_mul : Lockstep [] (mul : Thread n ℕ) fun id => [id] :=
  Lockstep.fresh.bind fun nrv => (lockstep_mulAssign.hold [nrv]).bind fun _ =>
    Lockstep.pure (List.Subperm.refl _)

/-- The bulk `operator*`, on vectors of `len` shares. -/
def bulkMul (len : ℕ) : Thread n (List ℕ) := do
  -- `a`, `b`, `c`
  let _ ← times (3 * len) construct
  let de ← times (2 * len) construct
  -- `obj1[i] - a[i]` and `obj2[i] - b[i]`
  let _ ← times (2 * len) operator
  let _ ← openReconsVec de
  let v ← times len construct
  -- the five operators of each `v[i]`
  let _ ← times (5 * len) operator
  return v

/-- `operator*(const std::vector<Share> &, const std::vector<Share> &)`. -/
def mulVec (size1 size2 : ℕ) : Thread n (List ℕ) :=
  if size1 = size2 then bulkMul size1
  else abort (.runtimeError "Not Equal Length operator vector<Share> !!")

theorem lockstep_bulkMul (len : ℕ) :
    Lockstep [] (bulkMul len : Thread n (List ℕ)) fun ids => ids :=
  (lockstep_temporaries (3 * len)).bind fun _ =>
    (Lockstep.times Lockstep.fresh (2 * len)).bind fun de =>
      ((lockstep_temporaries (2 * len)).hold de).bind fun _ =>
        (lockstep_openReconsVec de).bind fun _ =>
          (Lockstep.times Lockstep.fresh len).bind fun v =>
            ((lockstep_temporaries (5 * len)).hold v).bind fun _ =>
              Lockstep.pure (List.Subperm.refl _)

theorem lockstep_mulVec (size1 size2 : ℕ) :
    Lockstep [] (mulVec size1 size2 : Thread n (List ℕ)) fun ids => ids := by
  unfold mulVec
  split
  · exact lockstep_bulkMul size1
  · exact Lockstep.abort _ _

/-! ### The operations that treat the party `sp_id` apart -/

section Sp

variable [Config n]

/-- `operator+=(const SV &)` and `operator-=(const SV &)`: only the party `sp_id`
changes its value, and no id is drawn. -/
def plusAssignValue : Thread n Unit := onParty fun party_id =>
  if party_id = Config.sp_id then pure () else pure ()

/-- `operator+` and `operator-` of a share and a public value, in this order. -/
def plusValue : Thread n ℕ := do
  let nrv ← copy
  plusAssignValue
  return nrv

/-- `operator-(const SV &, const Share &)`. -/
def minusFromValue : Thread n ℕ := do
  let ret ← operator
  plusAssignValue
  return ret

/-- `getConstantShare`. -/
def getConstantShare : Thread n ℕ := do
  let s ← construct
  plusAssignValue
  return s

theorem lockstep_plusAssignValue :
    Lockstep [] (plusAssignValue : Thread n Unit) fun _ => [] := by
  have hboth : (plusAssignValue : Thread n Unit) = pure () := by
    funext i s
    show (if i = Config.sp_id then pure () else pure () : Thread n Unit) i s = _
    rw [ite_self]
  rw [hboth]
  exact Lockstep.pure List.nil_subperm

theorem lockstep_fresh_plusAssignValue :
    Lockstep [] (do
      let s ← fresh
      plusAssignValue
      return s : Thread n ℕ) fun id => [id] :=
  Lockstep.fresh.bind fun s => (lockstep_plusAssignValue.hold [s]).bind fun _ =>
    Lockstep.pure (List.Subperm.refl _)

theorem lockstep_plusValue : Lockstep [] (plusValue : Thread n ℕ) fun id => [id] :=
  lockstep_fresh_plusAssignValue

theorem lockstep_minusFromValue : Lockstep [] (minusFromValue : Thread n ℕ) fun id => [id] :=
  lockstep_fresh_plusAssignValue

theorem lockstep_getConstantShare : Lockstep [] (getConstantShare : Thread n ℕ) fun id => [id] :=
  lockstep_fresh_plusAssignValue

/-- `sharize`: the party `sp_id` sends a value to each of the others under the id
of `s`, the others receive it under theirs. -/
def sharize : Thread n ℕ := do
  let s ← construct
  onParty fun party_id =>
    if party_id = Config.sp_id then sendAll [s] else emit [.wait Config.sp_id s]
  return s

/-- The id of a dealt share has been used. -/
theorem lockstep_sharize : Lockstep [] (sharize : Thread n ℕ) fun _ => [] :=
  Lockstep.fresh.bind fun s => (Lockstep.scatter Config.sp_id s).bind fun _ =>
    Lockstep.pure List.nil_subperm

/-- The types of shares. -/
inductive ValueType
  | fixedPoint
  | primeField
  deriving DecidableEq

/-- `u_rec.getInv()`: a power in the field, where 0 has one too; a quotient for a
fixed-point number. -/
def inverseOf (type : ValueType) (u_rec : ℤ) : Thread n Unit :=
  if type = .fixedPoint ∧ u_rec = 0 then failAlone .divisionByZero else pure ()

/-- `getInv`: the party `sp_id` reconstructs `u`, whose values the others send
to it, and deals the inverse. -/
def getInv (type : ValueType) : Thread n ℕ := do
  let _r ← construct
  let u ← mul
  let s_inv ← construct
  -- opened at `sp_id` only; the others do not look at it
  let u_rec ← input .outOfDraws
  let _ ← onParty fun party_id =>
    if party_id = Config.sp_id then do
      waitAll [u]
      inverseOf type u_rec
      sharize
    else do
      emit [.send Config.sp_id u]
      sharize
  let _ ← mul
  return s_inv

/-- The party `sp_id` collects the values and deals the inverse. -/
theorem lockstep_dealInverse (type : ValueType) (u : ℕ) (u_rec : ℤ) :
    Lockstep [u] (onParty fun party_id =>
      if party_id = Config.sp_id then do
        waitAll [u]
        inverseOf type u_rec
        sharize
      else do
        emit [.send Config.sp_id u]
        sharize : Thread n ℕ) fun _ => [] := by
  by_cases hzero : type = .fixedPoint ∧ u_rec = 0
  · refine Lockstep.of_failsAlone fun a inputs => ⟨Config.sp_id, fun trace => ?_⟩
    have hthrow : (inverseOf type u_rec : Thread n Unit) = failAlone .divisionByZero := if_pos hzero
    refine ⟨.divisionByZero, (waitAll [u] Config.sp_id ⟨a, inputs, trace⟩ :
      Except (Failure Abort) Unit × Local n ℤ).2, ?_⟩
    simp only [onParty, if_true, hthrow]
    rfl
  · have hreturn : (inverseOf type u_rec : Thread n Unit) = pure () := if_neg hzero
    rw [hreturn]
    show Lockstep [u] (onParty fun party_id =>
      if party_id = Config.sp_id then waitAll [u] >>= fun _ => sharize
      else emit [.send Config.sp_id u] >>= fun _ => sharize) _
    rw [onParty_ite_bind]
    exact (Lockstep.gather Config.sp_id u).bind fun _ => lockstep_sharize

theorem lockstep_getInv (type : ValueType) :
    Lockstep [] (getInv type : Thread n ℕ) fun id => [id] := by
  refine lockstep_temporary.bind fun _ => lockstep_mul.bind fun u => ?_
  refine (Lockstep.fresh.frame [u]).bind fun s_inv => ?_
  have hswap : ([u] ++ [s_inv]).Perm [s_inv, u] := List.perm_append_comm
  refine ((Lockstep.input _).hold [s_inv, u]).bind fun u_rec => ?_
  refine (((lockstep_dealInverse type u u_rec).frame [s_inv]).perm hswap).bind fun _ => ?_
  exact (lockstep_mul.drop.hold [s_inv]).bind fun _ => Lockstep.pure (List.Subperm.refl _)

/-- `operator/=(const Share &)`. -/
def divAssign (type : ValueType) : Thread n Unit := do
  let _ ← getInv type
  mulAssign

/-- `operator/` of two shares. -/
def div (type : ValueType) : Thread n ℕ := do
  let nrv ← copy
  divAssign type
  return nrv

/-- `operator/` of a share and a public value, which throws at every party alike. -/
def divValue (type : ValueType) (right : ℤ) : Thread n ℕ := do
  let nrv ← copy
  if type = .fixedPoint ∧ right = 0 then abort .divisionByZero
  else return nrv

/-- `operator/(const SV &, const Share &)`: `ret *= left` draws nothing. -/
def divFromValue (type : ValueType) : Thread n ℕ := getInv type

theorem lockstep_divAssign (type : ValueType) :
    Lockstep [] (divAssign type : Thread n Unit) fun _ => [] :=
  (lockstep_getInv type).seq fun _ => lockstep_mulAssign

theorem lockstep_div (type : ValueType) : Lockstep [] (div type : Thread n ℕ) fun id => [id] :=
  Lockstep.fresh.bind fun nrv => ((lockstep_divAssign type).hold [nrv]).bind fun _ =>
    Lockstep.pure (List.Subperm.refl _)

omit [Config n] in
theorem lockstep_divValue (type : ValueType) (right : ℤ) :
    Lockstep [] (divValue type right : Thread n ℕ) fun id => [id] := by
  refine Lockstep.fresh.bind fun nrv => ?_
  split
  · exact Lockstep.abort _ _
  · exact Lockstep.pure (List.Subperm.refl _)

/-- `getMultiplicativeInvVec`, on `size` shares. -/
def getMultiplicativeInvVec (type : ValueType) (size : ℕ) : Thread n (List ℕ) :=
  times size (divFromValue type)

/-- `operator/(const SV &, const std::vector<Share> &)`. -/
def divVecFromValue (type : ValueType) (size : ℕ) : Thread n (List ℕ) := do
  let _ ← getMultiplicativeInvVec type size
  times size operator

theorem lockstep_divVecFromValue (type : ValueType) (size : ℕ) :
    Lockstep [] (divVecFromValue type size : Thread n (List ℕ)) fun ids => ids :=
  (Lockstep.times (lockstep_getInv type) size).seq fun _ => Lockstep.times Lockstep.fresh size

/-- `sqrt`, of a fixed-point share. -/
def sqrt : Thread n ℕ := do
  -- `x` is `(share + FixedPoint(1)) / FixedPoint(2)`
  let _ ← plusValue
  let x ← operator
  let _ ← times 50 do
    let _ ← div .fixedPoint
    times 2 operator
  return x

theorem lockstep_sqrt : Lockstep [] (sqrt : Thread n ℕ) fun id => [id] := by
  refine lockstep_plusValue.seq fun _ => Lockstep.fresh.bind fun x => ?_
  have hround : Lockstep [] (do
      let _ ← div .fixedPoint
      times 2 operator : Thread n (List ℕ)) fun _ => [] :=
    (lockstep_div .fixedPoint).seq fun _ => lockstep_temporaries 2
  refine Lockstep.bind ((Lockstep.rounds hround 50).hold [x]) fun _ => ?_
  exact Lockstep.pure (List.Subperm.refl _)

end Sp

/-! ### Bits, floors and comparisons of fixed-point shares -/

/-- `getRandShares`, and other vectors filled by one operator each. -/
def getRandShares (size : ℕ) : Thread n (List ℕ) := times size construct

/-- `T(0.5) * (inv_r_dash * r + T(1.0))`. -/
def halfOfRoot : Thread n ℕ := do
  let _ ← times 2 operator
  operator

theorem lockstep_halfOfRoot : Lockstep [] (halfOfRoot : Thread n ℕ) fun id => [id] :=
  (lockstep_temporaries 2).bind fun _ => Lockstep.fresh

/-- `getRandBitShare`: a turn whose square opens to zero is repeated. -/
def getRandBitShare : Thread n ℕ := untilSome .outOfDraws do
  let _r ← construct
  let square_r ← mul
  let square_r_rec ← openRecons square_r
  if square_r_rec ≠ 0 then
    let r0 ← halfOfRoot
    return some r0
  else return none

theorem lockstep_getRandBitShare :
    Lockstep [] (getRandBitShare : Thread n ℕ) fun id => [id] := by
  refine Lockstep.untilSome ?_
  refine lockstep_temporary.bind fun _ => lockstep_mul.bind fun square_r => ?_
  refine (lockstep_openRecons square_r).bind fun square_r_rec => ?_
  split
  · exact lockstep_halfOfRoot.bind fun r0 => Lockstep.pure (List.Subperm.refl _)
  · exact Lockstep.pure List.nil_subperm

/-- `getRandBitShare(n)`: where a square opens to zero, a new bit is drawn. -/
def getRandBitShareVec (size : ℕ) : Thread n (List ℕ) := do
  let _r ← getRandShares size
  let square_r ← bulkMul size
  let square_r_rec ← openReconsVec square_r
  each square_r_rec fun v =>
    if v ≠ 0 then do
      let _r0 ← halfOfRoot
      copy
    else getRandBitShare

theorem lockstep_getRandBitShareVec (size : ℕ) :
    Lockstep [] (getRandBitShareVec size : Thread n (List ℕ)) fun ids => ids := by
  refine (lockstep_temporaries size).bind fun _ => (lockstep_bulkMul size).bind fun square_r => ?_
  refine (lockstep_openReconsVec square_r).bind fun _ => Lockstep.eachId fun v => ?_
  split
  · exact lockstep_halfOfRoot.seq fun _ => Lockstep.fresh
  · exact lockstep_getRandBitShare

/-- `getLSBShare`. -/
def getLSBShare : Thread n ℕ := do
  let _r0 ← getRandBitShare
  let _r_dash ← construct
  -- `t` is `y + r0 + T(2) * r_dash`
  let _ ← times 2 operator
  let t ← operator
  let _c ← openRecons t
  -- `b` is `c + r0 - T(2) * c * r0`
  let _ ← times 2 operator
  operator

theorem lockstep_getLSBShare : Lockstep [] (getLSBShare : Thread n ℕ) fun id => [id] :=
  lockstep_getRandBitShare.seq fun _ => lockstep_temporary.bind fun _ =>
    (lockstep_temporaries 2).bind fun _ => Lockstep.fresh.bind fun t =>
      (lockstep_openRecons t).bind fun _ => (lockstep_temporaries 2).bind fun _ => Lockstep.fresh

/-- `getLSBShare`, on a vector of `size` shares. -/
def getLSBShareVec (size : ℕ) : Thread n (List ℕ) := do
  let _r0 ← getRandBitShareVec size
  let _r_dash ← getRandShares size
  let _ ← times (2 * size) operator
  let t ← times size operator
  let c ← openReconsVec t
  each c fun _ => do
    let _ ← times 2 operator
    operator

theorem lockstep_getLSBShareVec (size : ℕ) :
    Lockstep [] (getLSBShareVec size : Thread n (List ℕ)) fun ids => ids :=
  (lockstep_getRandBitShareVec size).seq fun _ => (lockstep_temporaries size).bind fun _ =>
    (lockstep_temporaries (2 * size)).bind fun _ =>
      (Lockstep.times Lockstep.fresh size).bind fun t =>
        (lockstep_openReconsVec t).bind fun _ => Lockstep.eachId fun _ =>
          (lockstep_temporaries 2).bind fun _ => Lockstep.fresh

/-- `getFloor`. -/
def getFloor : Thread n ℕ := do
  -- `x` and `y`
  let _ ← times 2 operator
  let _ ← times 16 do
    let _b ← getLSBShare
    times 2 operator
  operator

theorem lockstep_getFloor : Lockstep [] (getFloor : Thread n ℕ) fun id => [id] := by
  have hround : Lockstep [] (do let _ ← getLSBShare; times 2 operator : Thread n (List ℕ))
      fun _ => [] := lockstep_getLSBShare.seq fun _ => lockstep_temporaries 2
  refine (lockstep_temporaries 2).bind fun _ => ?_
  refine Lockstep.bind (Lockstep.rounds hround 16) fun _ => ?_
  exact Lockstep.fresh

/-- `getFloor`, on a vector of `size` shares. -/
def getFloorVec (size : ℕ) : Thread n (List ℕ) := do
  let _ ← times (2 * size) operator
  let _ ← times 16 do
    let _b ← getLSBShareVec size
    times (2 * size) operator
  times size operator

theorem lockstep_getFloorVec (size : ℕ) :
    Lockstep [] (getFloorVec size : Thread n (List ℕ)) fun ids => ids := by
  have hround : Lockstep [] (do
      let _ ← getLSBShareVec size
      times (2 * size) operator : Thread n (List ℕ)) fun _ => [] :=
    (lockstep_getLSBShareVec size).seq fun _ => lockstep_temporaries (2 * size)
  refine (lockstep_temporaries (2 * size)).bind fun _ => ?_
  refine Lockstep.bind (Lockstep.rounds hround 16) fun _ => ?_
  exact Lockstep.times Lockstep.fresh size

/-- `LTZ`. -/
def LTZ : Thread n ℕ := do
  -- `x` and `y`
  let _ ← times 2 operator
  let _z ← getLSBShare
  let _ ← times 2 operator
  let _ ← times 31 do
    let _b ← getLSBShare
    times 3 operator
  -- `(z - x) / FixedPoint(std::pow(2, k))`
  let _ ← operator
  operator

theorem lockstep_LTZ : Lockstep [] (LTZ : Thread n ℕ) fun id => [id] := by
  have hround : Lockstep [] (do let _ ← getLSBShare; times 3 operator : Thread n (List ℕ))
      fun _ => [] := lockstep_getLSBShare.seq fun _ => lockstep_temporaries 3
  refine (lockstep_temporaries 2).bind fun _ => lockstep_getLSBShare.seq fun _ => ?_
  refine (lockstep_temporaries 2).bind fun _ => ?_
  refine Lockstep.bind (Lockstep.rounds hround 31) fun _ => ?_
  exact lockstep_temporary.bind fun _ => Lockstep.fresh

/-- `operator%`. -/
def modValue : Thread n Unit := do
  let _k ← construct
  -- `r_share` is `k * right - left`
  let _ ← operator
  let r_share ← operator
  let _r_recons ← openRecons r_share
  return ()

theorem lockstep_modValue : Lockstep [] (modValue : Thread n Unit) fun _ => [] :=
  lockstep_temporary.bind fun _ => lockstep_temporary.bind fun _ => Lockstep.fresh.bind fun r =>
    (lockstep_openRecons r).bind fun _ => Lockstep.pure List.nil_subperm

/-- A result that all parties compute alike. -/
def lift {α : Type} (r : Run α) : Thread n α :=
  match r with
  | .ok x => pure x
  | .error e => abort e

theorem lockstep_lift {α : Type} (r : Run α) : Lockstep [] (lift r : Thread n α) fun _ => [] := by
  cases r with
  | ok x => exact Lockstep.pure List.nil_subperm
  | error e => exact Lockstep.abort e _

/-- `operator<` of two shares, or of a share and a public value. -/
def less : Thread n Bool := do
  let _s ← operator
  let s_ltz ← LTZ
  let ret ← openRecons s_ltz
  lift (Share.decideOpened ⟨ret⟩)

/-- `x > c` of a share and a public value: `c` is converted to a share. -/
def greaterValue : Thread n Bool := do
  let _c ← construct
  less

/-- `operator==` of two shares. -/
def equals : Thread n Bool := do
  let x_ret ← less
  let y_ret ← less
  lift (Share.decideOpened
    ((FixedPoint.ofInt 1 - .ofInt x_ret.toNat) * (FixedPoint.ofInt 1 - .ofInt y_ret.toNat)))

/-- `operator==` of a share and a public value. -/
def equalsValue : Thread n Bool := do
  let x_ret ← less
  let y_ret ← greaterValue
  lift (Share.decideOpened
    ((FixedPoint.ofInt 1 - .ofInt x_ret.toNat) * (FixedPoint.ofInt 1 - .ofInt y_ret.toNat)))

theorem lockstep_less : Lockstep [] (less : Thread n Bool) fun _ => [] :=
  lockstep_temporary.bind fun _ => lockstep_LTZ.bind fun s_ltz =>
    (lockstep_openRecons s_ltz).bind fun _ => lockstep_lift _

theorem lockstep_greaterValue : Lockstep [] (greaterValue : Thread n Bool) fun _ => [] :=
  lockstep_temporary.bind fun _ => lockstep_less

theorem lockstep_equals : Lockstep [] (equals : Thread n Bool) fun _ => [] :=
  lockstep_less.bind fun _ => lockstep_less.bind fun _ => lockstep_lift _

theorem lockstep_equalsValue : Lockstep [] (equalsValue : Thread n Bool) fun _ => [] :=
  lockstep_less.bind fun _ => lockstep_greaterValue.bind fun _ => lockstep_lift _

/-! ### Comparison protocols in the field -/

/-- `subRBS`: a turn whose square opens to zero is repeated. -/
def subRBS : Thread n ℕ := untilSome .outOfDraws do
  let _r ← construct
  let square_r ← mul
  let square_r_rec ← openRecons square_r
  if square_r_rec ≠ 0 then
    let ret ← halfOfRoot
    return some ret
  else return none

theorem lockstep_subRBS : Lockstep [] (subRBS : Thread n ℕ) fun id => [id] :=
  lockstep_getRandBitShare

/-- `subRBVS`. -/
def subRBVS : Thread n Unit := do
  let _r_shares ← times l construct
  let _ ← times l subRBS
  return ()

theorem lockstep_subRBVS : Lockstep [] (subRBVS : Thread n Unit) fun _ => [] :=
  (lockstep_temporaries l).bind fun _ =>
    Lockstep.bind (Lockstep.rounds lockstep_subRBS.drop l) fun _ =>
      Lockstep.pure List.nil_subperm

/-- `BStoSC`: `ret`, and one product for each index. -/
def BStoSC : Thread n ℕ := do
  let ret ← construct
  let _ ← times l operator
  return ret

theorem lockstep_BStoSC : Lockstep [] (BStoSC : Thread n ℕ) fun id => [id] :=
  Lockstep.fresh.bind fun ret => ((lockstep_temporaries l).hold [ret]).bind fun _ =>
    Lockstep.pure (List.Subperm.refl _)

/-- `f65Or` and `f65And`. -/
def f65 : Thread n Unit := do
  let _ans ← construct
  let _ ← times l operator
  let _ ← operator
  return ()

/-- `subUnboundedFanInOr` and `subUnboundedFanInAnd`. -/
def subUnboundedFanIn : Thread n Unit := do
  -- `A_share` and `A_share + PrimeField(1)`
  let _ ← construct
  let _ ← operator
  -- `b_shares`, `b_dash_shares` and `b_inverse_shares`, then the masks
  let _ ← times (3 * l) construct
  let _ ← times (2 * l) construct
  let B_shares ← bulkMul l
  let _ ← openReconsVec B_shares
  let _ ← times l operator
  -- `tmp_A_shares`
  let _ ← times l copy
  let _c_shares ← bulkMul l
  -- `tmp_b_shares`, and the share moved to its front
  let _ ← times l copy
  let _ ← construct
  let c_shares ← bulkMul l
  let _ ← openReconsVec c_shares
  -- `A_shares`
  let _ ← times l construct
  let _ ← times l operator
  f65

theorem lockstep_f65 : Lockstep [] (f65 : Thread n Unit) fun _ => [] :=
  lockstep_temporary.bind fun _ => (lockstep_temporaries l).bind fun _ =>
    lockstep_temporary.bind fun _ => Lockstep.pure List.nil_subperm

theorem lockstep_subUnboundedFanIn :
    Lockstep [] (subUnboundedFanIn : Thread n Unit) fun _ => [] :=
  lockstep_temporary.bind fun _ => lockstep_temporary.bind fun _ =>
    (lockstep_temporaries (3 * l)).bind fun _ => (lockstep_temporaries (2 * l)).bind fun _ =>
      (lockstep_bulkMul l).bind fun B_shares => (lockstep_openReconsVec B_shares).bind fun _ =>
        (lockstep_temporaries l).bind fun _ => (lockstep_temporaries l).bind fun _ =>
          (lockstep_bulkMul l).seq fun _ => (lockstep_temporaries l).bind fun _ =>
            lockstep_temporary.bind fun _ => (lockstep_bulkMul l).bind fun c_shares =>
              (lockstep_openReconsVec c_shares).bind fun _ => (lockstep_temporaries l).bind fun _ =>
                (lockstep_temporaries l).bind fun _ => lockstep_f65

/-- `subPadding0`, and the gate applied to its result. -/
def subPadding0FanIn : Thread n Unit := do
  let _ret ← times l construct
  subUnboundedFanIn

theorem lockstep_subPadding0FanIn :
    Lockstep [] (subPadding0FanIn : Thread n Unit) fun _ => [] :=
  (lockstep_temporaries l).bind fun _ => lockstep_subUnboundedFanIn

/-- `subPrefixOr`. -/
def subPrefixOr : Thread n Unit := do
  let _ret ← times l construct
  -- step 1: a copy of each block, resized to `l`
  let _x_shares ← times lambda construct
  let _ ← times lambda do
    let _ ← times lambda copy
    let _ ← times (l - lambda) construct
    subUnboundedFanIn
  -- step 2
  let _y_shares ← times lambda construct
  let _ ← times lambda subPadding0FanIn
  -- step 3
  let _f_shares ← times lambda construct
  let _ ← times (lambda - 1) operator
  -- step 4
  let _ai0_shares ← times lambda construct
  let _ ← times lambda do
    let _ ← construct
    times lambda mul
  -- step 5
  let _bi0_shares ← times lambda construct
  let _ ← times lambda subPadding0FanIn
  -- step 6
  let _s_shares ← times lambda construct
  let _ ← times lambda operator
  -- step 7
  let _ ← times (lambda * lambda) do
    let _ ← mul
    operator
  return ()

theorem lockstep_subPrefixOr : Lockstep [] (subPrefixOr : Thread n Unit) fun _ => [] := by
  have hstep1 : Lockstep [] (do
      let _ ← times lambda copy
      let _ ← times (l - lambda) construct
      subUnboundedFanIn : Thread n Unit) fun _ => [] :=
    (lockstep_temporaries lambda).bind fun _ => (lockstep_temporaries (l - lambda)).bind fun _ =>
      lockstep_subUnboundedFanIn
  have hstep4 : Lockstep [] (do let _ ← construct; times lambda mul : Thread n (List ℕ))
      fun _ => [] :=
    lockstep_temporary.bind fun _ => Lockstep.rounds lockstep_mul.drop lambda
  have hstep7 : Lockstep [] (do let _ ← mul; operator : Thread n ℕ) fun _ => [] :=
    lockstep_mul.seq fun _ => lockstep_temporary
  refine (lockstep_temporaries l).bind fun _ => (lockstep_temporaries lambda).bind fun _ => ?_
  refine Lockstep.bind (Lockstep.rounds hstep1 lambda) fun _ => ?_
  refine (lockstep_temporaries lambda).bind fun _ => ?_
  refine Lockstep.bind (Lockstep.rounds lockstep_subPadding0FanIn lambda) fun _ => ?_
  refine (lockstep_temporaries lambda).bind fun _ => ?_
  refine (lockstep_temporaries (lambda - 1)).bind fun _ => ?_
  refine (lockstep_temporaries lambda).bind fun _ => ?_
  refine Lockstep.bind (Lockstep.rounds hstep4 lambda) fun _ => ?_
  refine (lockstep_temporaries lambda).bind fun _ => ?_
  refine Lockstep.bind (Lockstep.rounds lockstep_subPadding0FanIn lambda) fun _ => ?_
  refine (lockstep_temporaries lambda).bind fun _ => (lockstep_temporaries lambda).bind fun _ => ?_
  refine Lockstep.bind (Lockstep.rounds hstep7 (lambda * lambda)) fun _ => ?_
  exact Lockstep.pure List.nil_subperm

/-- `subBitwiseLessThan`. -/
def subBitwiseLessThan : Thread n Unit := do
  -- step 1
  let _c_shares ← times l construct
  let _ab_shares ← bulkMul l
  let _ ← times (3 * l) operator
  -- step 2
  subPrefixOr
  -- step 3
  let _e_shares ← times l construct
  let _ ← times (l - 1) operator
  -- step 4
  let _eb ← bulkMul l
  let _ret ← construct
  return ()

theorem lockstep_subBitwiseLessThan :
    Lockstep [] (subBitwiseLessThan : Thread n Unit) fun _ => [] :=
  (lockstep_temporaries l).bind fun _ => (lockstep_bulkMul l).seq fun _ =>
    (lockstep_temporaries (3 * l)).bind fun _ => lockstep_subPrefixOr.bind fun _ =>
      (lockstep_temporaries l).bind fun _ => (lockstep_temporaries (l - 1)).bind fun _ =>
        (lockstep_bulkMul l).seq fun _ => lockstep_temporary.bind fun _ =>
          Lockstep.pure List.nil_subperm

/-- Step 3 of `subHalfLessThan` after the comparison: the two products, with the
complements in another place for an odd `c`. -/
def halfLessThanRet (c : ℤ) : Thread n Unit :=
  if c % 2 = 0 then do
    let _ ← operator
    let _ ← mul
    let _ ← operator
    let _ ← mul
    let _ ← operator
    return ()
  else do
    let _ ← mul
    let _ ← times 2 operator
    let _ ← mul
    let _ ← operator
    return ()

theorem lockstep_halfLessThanRet (c : ℤ) :
    Lockstep [] (halfLessThanRet c : Thread n Unit) fun _ => [] := by
  unfold halfLessThanRet
  split
  · exact lockstep_temporary.bind fun _ => lockstep_mul.seq fun _ => lockstep_temporary.bind fun _ =>
      lockstep_mul.seq fun _ => lockstep_temporary.bind fun _ => Lockstep.pure List.nil_subperm
  · exact lockstep_mul.seq fun _ => (lockstep_temporaries 2).bind fun _ =>
      lockstep_mul.seq fun _ => lockstep_temporary.bind fun _ => Lockstep.pure List.nil_subperm

section Sp

variable [Config n]

/-- `PFtoBS`: the party `sp_id` constructs a share of its own value, the others
copy theirs. -/
def PFtoBS : Thread n Unit := do
  let _bit_shares ← times l construct
  let _ ← times l do
    let _s ← sharize
    onParty fun party_id => if party_id = Config.sp_id then construct else copy
  return ()

theorem lockstep_PFtoBS : Lockstep [] (PFtoBS : Thread n Unit) fun _ => [] := by
  have hbranch : (onParty fun party_id => if party_id = Config.sp_id then construct else copy)
      = (fresh : Thread n ℕ) := by
    funext i s
    show (if i = Config.sp_id then fresh else fresh : Thread n ℕ) i s = _
    rw [ite_self]
  have hround : Lockstep [] (do
      let _s ← sharize
      onParty fun party_id => if party_id = Config.sp_id then construct else copy : Thread n ℕ)
      fun _ => [] := by
    rw [hbranch]
    exact lockstep_sharize.bind fun _ => lockstep_temporary
  refine (lockstep_temporaries l).bind fun _ => ?_
  refine Lockstep.bind (Lockstep.rounds hround l) fun _ => ?_
  exact Lockstep.pure List.nil_subperm

/-- `subHalfLessThan`, on a share already in its parameter. -/
def subHalfLessThan : Thread n Unit := do
  subRBVS
  let _r_share ← BStoSC
  -- `c_share` is `(PrimeField(2) * a_share) + r_share`
  let _ ← operator
  let c_share ← operator
  let c ← openRecons c_share
  PFtoBS
  -- `cr` and `ret`
  let _ ← times 2 construct
  subBitwiseLessThan
  halfLessThanRet c
  let _ ← operator
  return ()

theorem lockstep_subHalfLessThan : Lockstep [] (subHalfLessThan : Thread n Unit) fun _ => [] :=
  lockstep_subRBVS.bind fun _ => lockstep_BStoSC.seq fun _ => lockstep_temporary.bind fun _ =>
    Lockstep.fresh.bind fun c_share => (lockstep_openRecons c_share).bind fun c =>
      lockstep_PFtoBS.bind fun _ => (lockstep_temporaries 2).bind fun _ =>
        lockstep_subBitwiseLessThan.bind fun _ => (lockstep_halfLessThanRet c).bind fun _ =>
          lockstep_temporary.bind fun _ => Lockstep.pure List.nil_subperm

/-- `intervalTest`, with its parameter and the public bounds. -/
def intervalTest (c1 c2 : PrimeField) : Thread n Unit := do
  let _a_share ← copy
  subRBVS
  let _r_share ← BStoSC
  let c_share ← operator
  let c ← openRecons c_share
  -- `r_lows` and `r_highs`, from two temporaries, and `ret`
  let _ ← times (2 * (l + 1)) construct
  let _ ← construct
  PFtoBS
  PFtoBS
  subBitwiseLessThan
  subBitwiseLessThan
  let _ ← mul
  -- the first branch subtracts the product from `1`
  if c1.value < c ∧ c < c2.value then do
    let _ ← operator
    return ()
  else return ()

theorem lockstep_intervalTest (c1 c2 : PrimeField) :
    Lockstep [] (intervalTest c1 c2 : Thread n Unit) fun _ => [] := by
  refine lockstep_temporary.bind fun _ => lockstep_subRBVS.bind fun _ => ?_
  refine lockstep_BStoSC.seq fun _ => Lockstep.fresh.bind fun c_share => ?_
  refine (lockstep_openRecons c_share).bind fun c => (lockstep_temporaries _).bind fun _ => ?_
  refine lockstep_temporary.bind fun _ => lockstep_PFtoBS.bind fun _ => ?_
  refine lockstep_PFtoBS.bind fun _ => lockstep_subBitwiseLessThan.bind fun _ => ?_
  refine lockstep_subBitwiseLessThan.bind fun _ => lockstep_mul.seq fun _ => ?_
  split
  · exact lockstep_temporary.bind fun _ => Lockstep.pure List.nil_subperm
  · exact Lockstep.pure List.nil_subperm

/-- `comparisonTest`, with its parameters. -/
def comparisonTest : Thread n Unit := do
  let _ ← times 2 copy
  -- `w`, `x`, `y`, `z`
  let _ ← times 4 construct
  let _ ← copy
  subHalfLessThan
  let _ ← copy
  subHalfLessThan
  let _ ← operator
  subHalfLessThan
  let _xy ← mul
  -- `w * (x + y - PrimeField(2) * xy) + PrimeField(1) - y - x + xy`
  let _ ← times 3 operator
  let _ ← mul
  let _ ← times 4 operator
  return ()

theorem lockstep_comparisonTest : Lockstep [] (comparisonTest : Thread n Unit) fun _ => [] := by
  refine (lockstep_temporaries 2).bind fun _ => (lockstep_temporaries 4).bind fun _ => ?_
  refine lockstep_temporary.bind fun _ => lockstep_subHalfLessThan.bind fun _ => ?_
  refine lockstep_temporary.bind fun _ => lockstep_subHalfLessThan.bind fun _ => ?_
  refine lockstep_temporary.bind fun _ => lockstep_subHalfLessThan.bind fun _ => ?_
  refine lockstep_mul.seq fun _ => (lockstep_temporaries 3).bind fun _ => ?_
  exact lockstep_mul.seq fun _ => (lockstep_temporaries 4).bind fun _ =>
    Lockstep.pure List.nil_subperm

end Sp

/-- `equalityTest`, with its parameters. -/
def equalityTest : Thread n Unit := do
  let _ ← times 2 copy
  subRBVS
  let _r_share ← BStoSC
  -- `c_share` is `a_share - b_share + r_share`
  let _ ← operator
  let c_share ← operator
  let c ← openRecons c_share
  let _c_dash_shares ← times l construct
  -- a clear bit of `c` complements the bit of `r_shares`
  let _ ← each (List.range l) fun i =>
    if c / 2 ^ i % 2 = 1 then return ()
    else do
      let _ ← operator
      return ()
  subUnboundedFanIn

theorem lockstep_equalityTest : Lockstep [] (equalityTest : Thread n Unit) fun _ => [] := by
  have hbit : ∀ (c : ℤ) (i : ℕ), Lockstep [] (if c / 2 ^ i % 2 = 1 then return ()
      else do
        let _ ← operator
        return () : Thread n Unit) fun _ => [] := by
    intro c i
    split
    · exact Lockstep.pure List.nil_subperm
    · exact lockstep_temporary.bind fun _ => Lockstep.pure List.nil_subperm
  refine (lockstep_temporaries 2).bind fun _ => lockstep_subRBVS.bind fun _ => ?_
  refine lockstep_BStoSC.seq fun _ => lockstep_temporary.bind fun _ => ?_
  refine Lockstep.fresh.bind fun c_share => (lockstep_openRecons c_share).bind fun c => ?_
  refine (lockstep_temporaries l).bind fun _ => (Lockstep.loop (hbit c)).bind fun _ => ?_
  exact lockstep_subUnboundedFanIn

/-! ### Sequences of operations -/

/-- The operations, with what their ids depend on: the lengths of vectors, the bounds of
`intervalTest`, and for the divisions the type and a public divisor. -/
inductive Operation
  | sharize
  | getConstantShare
  | plusAssignValue
  | plusValue
  | minusFromValue
  | operator
  | getInv (type : ValueType)
  | divAssign (type : ValueType)
  | div (type : ValueType)
  | divValue (type : ValueType) (right : ℤ)
  | divFromValue (type : ValueType)
  | divVecFromValue (type : ValueType) (size : ℕ)
  | sqrt
  | modValue
  | mulAssign
  | mul
  | mulVec (size1 size2 : ℕ)
  | getRandBitShare
  | getRandBitShareVec (size : ℕ)
  | getLSBShare
  | getLSBShareVec (size : ℕ)
  | getFloor
  | getFloorVec (size : ℕ)
  | LTZ
  | less
  | greaterValue
  | equals
  | equalsValue
  | subRBS
  | subRBVS
  | BStoSC
  | PFtoBS
  | subUnboundedFanIn
  | subPrefixOr
  | subBitwiseLessThan
  | subHalfLessThan
  | intervalTest (c1 c2 : PrimeField)
  | comparisonTest
  | equalityTest

/-- An operation whose result stays in a variable of the caller. -/
def void {α : Type} (m : Thread n α) : Thread n Unit := do
  let _ ← m
  return ()

theorem lockstep_void {α : Type} {m : Thread n α} {post : α → List ℕ} (h : Lockstep [] m post) :
    Lockstep [] (void m) fun _ => [] :=
  h.seq fun _ => Lockstep.pure List.nil_subperm

variable [Config n]

/-- The thread executes an operation. -/
def Operation.run : Operation → Thread n Unit
  | .sharize => void ShareIds.sharize
  | .getConstantShare => void ShareIds.getConstantShare
  | .plusAssignValue => ShareIds.plusAssignValue
  | .plusValue => void ShareIds.plusValue
  | .minusFromValue => void ShareIds.minusFromValue
  | .operator => void ShareIds.operator
  | .getInv type => void (ShareIds.getInv type)
  | .divAssign type => ShareIds.divAssign type
  | .div type => void (ShareIds.div type)
  | .divValue type right => void (ShareIds.divValue type right)
  | .divFromValue type => void (ShareIds.divFromValue type)
  | .divVecFromValue type size => void (ShareIds.divVecFromValue type size)
  | .sqrt => void ShareIds.sqrt
  | .modValue => ShareIds.modValue
  | .mulAssign => ShareIds.mulAssign
  | .mul => void ShareIds.mul
  | .mulVec size1 size2 => void (ShareIds.mulVec size1 size2)
  | .getRandBitShare => void ShareIds.getRandBitShare
  | .getRandBitShareVec size => void (ShareIds.getRandBitShareVec size)
  | .getLSBShare => void ShareIds.getLSBShare
  | .getLSBShareVec size => void (ShareIds.getLSBShareVec size)
  | .getFloor => void ShareIds.getFloor
  | .getFloorVec size => void (ShareIds.getFloorVec size)
  | .LTZ => void ShareIds.LTZ
  | .less => void ShareIds.less
  | .greaterValue => void ShareIds.greaterValue
  | .equals => void ShareIds.equals
  | .equalsValue => void ShareIds.equalsValue
  | .subRBS => void ShareIds.subRBS
  | .subRBVS => ShareIds.subRBVS
  | .BStoSC => void ShareIds.BStoSC
  | .PFtoBS => ShareIds.PFtoBS
  | .subUnboundedFanIn => ShareIds.subUnboundedFanIn
  | .subPrefixOr => ShareIds.subPrefixOr
  | .subBitwiseLessThan => ShareIds.subBitwiseLessThan
  | .subHalfLessThan => ShareIds.subHalfLessThan
  | .intervalTest c1 c2 => ShareIds.intervalTest c1 c2
  | .comparisonTest => ShareIds.comparisonTest
  | .equalityTest => ShareIds.equalityTest

theorem Operation.lockstep_run (op : Operation) :
    Lockstep [] (op.run : Thread n Unit) fun _ => [] := by
  cases op with
  | sharize => exact lockstep_void lockstep_sharize
  | getConstantShare => exact lockstep_void lockstep_getConstantShare
  | plusAssignValue => exact lockstep_plusAssignValue
  | plusValue => exact lockstep_void lockstep_plusValue
  | minusFromValue => exact lockstep_void lockstep_minusFromValue
  | operator => exact lockstep_void lockstep_fresh
  | getInv type => exact lockstep_void (lockstep_getInv type)
  | divAssign type => exact lockstep_divAssign type
  | div type => exact lockstep_void (lockstep_div type)
  | divValue type right => exact lockstep_void (lockstep_divValue type right)
  | divFromValue type => exact lockstep_void (lockstep_getInv type)
  | divVecFromValue type size => exact lockstep_void (lockstep_divVecFromValue type size)
  | sqrt => exact lockstep_void lockstep_sqrt
  | modValue => exact lockstep_modValue
  | mulAssign => exact lockstep_mulAssign
  | mul => exact lockstep_void lockstep_mul
  | mulVec size1 size2 => exact lockstep_void (lockstep_mulVec size1 size2)
  | getRandBitShare => exact lockstep_void lockstep_getRandBitShare
  | getRandBitShareVec size => exact lockstep_void (lockstep_getRandBitShareVec size)
  | getLSBShare => exact lockstep_void lockstep_getLSBShare
  | getLSBShareVec size => exact lockstep_void (lockstep_getLSBShareVec size)
  | getFloor => exact lockstep_void lockstep_getFloor
  | getFloorVec size => exact lockstep_void (lockstep_getFloorVec size)
  | LTZ => exact lockstep_void lockstep_LTZ
  | less => exact lockstep_void lockstep_less
  | greaterValue => exact lockstep_void lockstep_greaterValue
  | equals => exact lockstep_void lockstep_equals
  | equalsValue => exact lockstep_void lockstep_equalsValue
  | subRBS => exact lockstep_void lockstep_subRBS
  | subRBVS => exact lockstep_subRBVS
  | BStoSC => exact lockstep_void lockstep_BStoSC
  | PFtoBS => exact lockstep_PFtoBS
  | subUnboundedFanIn => exact lockstep_subUnboundedFanIn
  | subPrefixOr => exact lockstep_subPrefixOr
  | subBitwiseLessThan => exact lockstep_subBitwiseLessThan
  | subHalfLessThan => exact lockstep_subHalfLessThan
  | intervalTest c1 c2 => exact lockstep_intervalTest c1 c2
  | comparisonTest => exact lockstep_comparisonTest
  | equalityTest => exact lockstep_equalityTest

/-- The operations of a job, in order. -/
def runAll (ops : List Operation) : Thread n Unit := void (each ops Operation.run)

theorem lockstep_runAll (ops : List Operation) :
    Lockstep [] (runAll ops : Thread n Unit) fun _ => [] :=
  lockstep_void (Lockstep.loop fun op => op.lockstep_run)

/-- The run of a party. -/
def runAt (ops : List Operation) (share_id_generator : ℕ) (opened : List ℤ) (i : Fin n) :
    Except (Failure Abort) Unit :=
  (runAll ops i ⟨share_id_generator, opened, []⟩).1

/-- All parties draw the same ids, and under each id that a party waits for from another,
that party sends it one value. -/
def InLockstep (ops : List Operation) (share_id_generator : ℕ) (opened : List ℤ) : Prop :=
  ∀ i j : Fin n, constructed (events (runAll ops) share_id_generator opened i)
        = constructed (events (runAll ops) share_id_generator opened j) ∧
      ∀ id ∈ waitedFrom j (events (runAll ops) share_id_generator opened i),
        (sentTo i (events (runAll ops) share_id_generator opened j)).count id = 1

/-- **The parties stay in lockstep.** In every sequence of operations, run by every
party from the same counter on with the same opened values, all parties draw the
same ids, and under each id that a party waits for from another, that party sends
it one value, unless a party divides by an opened 0, the one failure that the others
do not share. -/
theorem share_ids_lockstep (ops : List Operation) (share_id_generator : ℕ) (opened : List ℤ)
    (hdiv : ∀ (i : Fin n) (e : Abort), runAt ops share_id_generator opened i ≠ .error (.alone e)) :
    InLockstep (n := n) ops share_id_generator opened := by
  refine fun i j => (lockstep_runAll ops).matched (fun halone => ?_) i j
  obtain ⟨i, hi⟩ := halone
  obtain ⟨e, s, hrun⟩ := hi []
  exact hdiv i e (congrArg Prod.fst hrun)

/-- A quotient of shares and a product of vectors. Every party draws 94 ids; the third
opened value is that of `getInv`. -/
theorem share_ids_lockstep_three :
    letI := threeParties
    let ops : List Operation := [.div .fixedPoint, .mulVec 1 1]
    let opened : List ℤ := [1, 2, 3, 4, 5, 6, 7, 8, 9]
    (∀ i : Fin 3, (constructed (events (runAll ops) 0 opened i)).length = 94) ∧
      InLockstep (n := 3) ops 0 opened := by
  let _ := threeParties
  intro ops opened
  have hok : ∀ i : Fin 3, (runAt ops 0 opened i).toBool = true := by decide +kernel
  refine ⟨by decide +kernel, share_ids_lockstep ops 0 opened fun i e halone => ?_⟩
  have hreturned := hok i
  rw [halone] at hreturned
  cases hreturned

/-- The division opens 0: the party `sp_id` throws, and the others wait for the inverse. -/
theorem share_ids_division_by_zero :
    letI := threeParties
    ¬ InLockstep (n := 3) [.getInv .fixedPoint] 0 [0, 0, 0] := by
  let _ := threeParties
  intro h
  have hsame := (h 0 1).1
  exact absurd hsame (by decide +kernel)

end QuickMpc.ShareIds
