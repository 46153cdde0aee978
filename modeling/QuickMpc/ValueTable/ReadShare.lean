import QuickMpc.DbGate.Client
import QuickMpc.JobRun
import QuickMpc.Lib.KeyedMap
import QuickMpc.ValueTable.ReadDb

/-!
# QuickMpc.ValueTable.ReadShare

How a party reads a stored table: the pieces of a data id, in whatever order the database
returns them, in the order of their numbers.

The schema is that of the first document of the answer. Of two documents with the same
number the first one counts, and a number that is missing is passed over: what comes out is
the table that was sent as long as every document of a number holds the same rows and all
of them have one schema (`readShare_eq`).
-/

namespace QuickMpc.ValueTable

open KeyedMap (emplaceAll entries)

variable {n : ℕ}

/-- The table of one party. -/
structure OwnTable where
  table : List (List String)
  schemas : List String
  deriving DecidableEq, Repr

/-- What party `i` has of a table. -/
def RawTable.own (t : RawTable n) (i : Fin n) : OwnTable :=
  ⟨t.table.map fun row => row.map fun cell => cell i, t.schemas⟩

/-- A document whose shares are a table. -/
abbrev StoredPiece := DbGate.Share (List (List String))

/-- `readShare`, from the answer of the database. -/
def readShare (response_json : List StoredPiece) : Except JobRun.Thrown OwnTable :=
  let pieces := emplaceAll (response_json.map fun json => (json.info.piece_id, json.value))
  let table := pieces.flatMap fun piece => piece.2
  match response_json with
  | json :: _ => .ok ⟨table, json.info.schema⟩
  | [] =>
    -- `response_json[0]` is created here, and the schema of nothing is no array
    .error ⟨.exception, "[json.exception.type_error.302] type must be array, but is null", none⟩

/-- The tables that `readTable` hands to `parseRead`. -/
def readTables (answer : String → List StoredPiece) (dataIds : List String) :
    Except JobRun.Thrown (List OwnTable) :=
  dataIds.mapM fun dataId => readShare (answer dataId)

/-- The rows in the order of the pieces. -/
theorem readShare_eq {response_json : List StoredPiece} {pieces : Finset ℤ} {schema : List String}
    {value : ℤ → List (List String)} (hsome : pieces.Nonempty)
    (hpieces : ∀ k, k ∈ pieces ↔ k ∈ response_json.map fun json => json.info.piece_id)
    (hdocs : ∀ json ∈ response_json, json.info.schema = schema ∧
      json.value = value json.info.piece_id) :
    readShare response_json
      = .ok ⟨(entries value pieces).flatMap fun piece => piece.2, schema⟩ := by
  have harrived : (response_json.map fun json => (json.info.piece_id, json.value))
      = (response_json.map fun json => json.info.piece_id).map fun k => (k, value k) := by
    rw [List.map_map]
    exact List.map_congr_left fun json hjson => Prod.ext rfl (hdocs json hjson).2
  have hmap : emplaceAll (response_json.map fun json => (json.info.piece_id, json.value))
      = entries value pieces := by
    rw [harrived, KeyedMap.emplaceAll_map]
    refine congrArg _ (Finset.ext fun k => ?_)
    rw [List.mem_toFinset, hpieces]
  cases response_json with
  | nil =>
      obtain ⟨k, hk⟩ := hsome
      exact absurd ((hpieces k).mp hk) List.not_mem_nil
  | cons json rest =>
      rw [readShare, hmap, (hdocs json List.mem_cons_self).1]

end QuickMpc.ValueTable
