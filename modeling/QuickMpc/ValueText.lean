import QuickMpc.Lib.Decimal
import QuickMpc.Share

/-!
# QuickMpc.ValueText

The texts of the two value types, in which shares travel and are stored.

A `FixedPoint` is printed with twenty places, more than its eight, and comes back as it
was, as long as it has fifty digits or less. A `PrimeField` is printed as it is stored, and a
stored `p` comes back as `0`. So the texts that `open` sends to the other parties carry what
`Share` says a message carries (`received`), and every party reconstructs the same value from
them.
-/

namespace QuickMpc

namespace FixedPoint

/-- The constructor, for the texts that are read where none is refused. -/
def ofText [Multiprecision] (str : String) : FixedPoint := (ofString str).getD 0

theorem ofText_getStrVal [Multiprecision] {v : FixedPoint} (hv : |v.value| < 10 ^ 50) :
    ofText v.getStrVal = v := by
  rw [ofText, ofString_getStrVal hv, Option.getD_some]

end FixedPoint

namespace PrimeField

/-- `getStrVal`. -/
def getStrVal (v : PrimeField) : String := toString v.value

/-- The constructor from a text, for texts of the radix `10`; without a result where it
throws. -/
def ofString (str : String) : Option PrimeField :=
  (Decimal.natural? str.toList).bind fun k => (construct k).toOption

theorem ofString_getStrVal (v : PrimeField) : ofString v.getStrVal = some (ofNat v.value) := by
  rw [ofString, getStrVal, Nat.toString_eq_ofList_toDigits, String.toList_ofList,
    Decimal.natural?_toDigits, Option.bind_some, construct_natCast v.le_p]
  rfl

end PrimeField

/-! ### Opening through texts -/

namespace Share

variable {n : ℕ} {SV : Type}

/-- `recons` at the party `party_id`, from the texts that the other parties have sent. -/
def reconsText [ShareValue SV] (getStrVal : SV → String) (ofString : String → Option SV)
    (party_id : Fin n) (share : Share n SV) : Option SV :=
  (List.finRange n).foldlM (fun ret pt_id =>
    if pt_id = party_id then return ret + share.value pt_id
    else do
      let received_value ← ofString (getStrVal (share.value pt_id))
      return ret + received_value) 0

/-- The texts carry what a message carries. -/
theorem reconsText_eq [ShareValue SV] {getStrVal : SV → String} {ofString : String → Option SV}
    {share : Share n SV}
    (h : ∀ i, ofString (getStrVal (share.value i)) = some (ShareValue.received (share.value i)))
    (party_id : Fin n) :
    reconsText getStrVal ofString party_id share = some (reconsAt party_id share) := by
  have hround : (fun ret pt_id =>
      if pt_id = party_id then return ret + share.value pt_id
      else do
        let received_value ← ofString (getStrVal (share.value pt_id))
        return ret + received_value)
      = fun ret pt_id => (pure (ret + if pt_id = party_id then share.value pt_id
          else ShareValue.received (share.value pt_id)) : Option SV) := by
    funext ret pt_id
    split
    · rfl
    · rw [h, Option.bind_eq_bind, Option.bind_some]
  rw [reconsText, hround, List.foldlM_pure]
  rfl

/-- **Opening through texts**: every party reads the texts of all the others, and all parties
reconstruct the value that is shared, whatever element of the field it is, and whatever number,
when no piece of it has more than fifty digits. -/
theorem open_texts [Multiprecision] (party_id : Fin n) :
    (∀ share : Share n FixedPoint, (∀ i, |(share.value i).value| < 10 ^ 50) →
      reconsText FixedPoint.getStrVal FixedPoint.ofString party_id share = some (recons share)) ∧
    ∀ share : Share n PrimeField,
      reconsText PrimeField.getStrVal PrimeField.ofString party_id share = some (recons share) := by
  constructor
  · intro share hdigits
    rw [reconsText_eq fun i => FixedPoint.ofString_getStrVal (hdigits i), reconsAt_eq_recons]
  · intro share
    rw [reconsText_eq fun i => PrimeField.ofString_getStrVal (share.value i), reconsAt_eq_recons]

/-- A negative piece of less than a unit, one with a fraction and one of fifty digits. -/
def exampleShare : Share 3 FixedPoint := ⟨![⟨-1⟩, ⟨314159265⟩, ⟨10 ^ 49⟩]⟩

theorem open_texts_three :
    letI := Multiprecision.plain
    ∀ party_id : Fin 3, reconsText FixedPoint.getStrVal FixedPoint.ofString party_id exampleShare
      = some ⟨10 ^ 49 + 314159264⟩ := by
  let _ := Multiprecision.plain
  intro party_id
  exact (open_texts party_id).1 exampleShare (by decide)

end Share

end QuickMpc
