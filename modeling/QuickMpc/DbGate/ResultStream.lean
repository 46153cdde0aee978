import Mathlib.Algebra.Order.Ring.Int
import QuickMpc.Lib.KeyedMap

/-!
# QuickMpc.DbGate.ResultStream

The way of a query result through the stream of `AnyToDbGate.ExecuteQuery`.

The gate cuts the result into pieces of a million characters (runes, so no character is
cut in two) and numbers them with an `int32`. The two clients collect the pieces in a map
and join them in the order of their numbers: the Go client in a map that keeps the last
piece with a number, the C++ client in a `std::map` that keeps the first one.

Up to `2 ^ 31` pieces the numbers increase, and every arrival order gives the result back
(`executeQuery_round_trip`). The next number is negative, so the piece after these is
put in front of the others (`executeQuery_wraps`).
-/

namespace QuickMpc.DbGate.ResultStream

open KeyedMap

/-- `ExecuteQueryResponse`. -/
structure ExecuteQueryResponse where
  result : String
  piece_id : Int32
  deriving DecidableEq

def piece_size : ℕ := 1000000

theorem piece_size_pos : 0 < piece_size := by decide

/-- The loop of the server from the index `i` and the number `piece_id`. -/
def sendFrom (runes : List Char) (i : ℕ) (piece_id : Int32) : List ExecuteQueryResponse :=
  if i < runes.length then
    let piece := if i + piece_size < runes.length then (runes.drop i).take piece_size
      else runes.drop i
    ⟨String.ofList piece, piece_id⟩ :: sendFrom runes (i + piece_size) (piece_id + 1)
  else []
termination_by runes.length - i
decreasing_by
  have hpos := piece_size_pos
  omega

/-- `server.ExecuteQuery`: the responses for the result of a query. -/
def executeQuery (result : String) : List ExecuteQueryResponse := sendFrom result.toList 0 0

/-- A response as an entry of a client's map. -/
def entry (r : ExecuteQueryResponse) : ℤ × String := (r.piece_id.toInt, r.result)

/-- The `piece_list` of the management container, after all replies. -/
def piece_list (replies : List ExecuteQueryResponse) : List (ℤ × String) :=
  assignAll (replies.map entry)

/-- `ExecuteQuery` of the management container, for the replies until `io.EOF`, when
`range piece_list` yields the keys in the order `range`. -/
def mcExecuteQuery (range : List ℤ) (replies : List ExecuteQueryResponse) : String :=
  let keys := range.mergeSort
  keys.foldl (fun res key => res ++ get (piece_list replies) key "") ""

/-- `Client::executeQuery` of the computation container, for the responses read before the
stream ends with OK. -/
def ccExecuteQuery (responses : List ExecuteQueryResponse) : String :=
  let pieces := emplaceAll (responses.map entry)
  pieces.foldl (fun res e => res ++ e.2) ""

/-! ### The pieces -/

theorem sendFrom_of_lt {runes : List Char} {i : ℕ} (h : i < runes.length) (piece_id : Int32) :
    sendFrom runes i piece_id = ⟨String.ofList ((runes.drop i).take piece_size), piece_id⟩
      :: sendFrom runes (i + piece_size) (piece_id + 1) := by
  rw [sendFrom, if_pos h]
  dsimp only
  split
  · rfl
  · rw [List.take_of_length_le]
    rw [List.length_drop]
    omega

theorem sendFrom_of_le {runes : List Char} {i : ℕ} (h : runes.length ≤ i) (piece_id : Int32) :
    sendFrom runes i piece_id = [] := by
  rw [sendFrom, if_neg (by omega)]

/-- The pieces put together are the runes, whatever the numbers are. -/
theorem flatMap_sendFrom (runes : List Char) (i : ℕ) (piece_id : Int32) :
    (sendFrom runes i piece_id).flatMap (fun r => r.result.toList) = runes.drop i := by
  induction i, piece_id using sendFrom.induct runes with
  | case1 i piece_id h ih =>
      rw [sendFrom_of_lt h, List.flatMap_cons, ih, String.toList_ofList, ← List.drop_drop,
        List.take_append_drop]
  | case2 i piece_id h =>
      rw [sendFrom_of_le (not_lt.mp h), List.drop_eq_nil_of_le (not_lt.mp h), List.flatMap_nil]

/-- No piece is empty. -/
theorem result_ne_nil (runes : List Char) (i : ℕ) (piece_id : Int32) :
    ∀ r ∈ sendFrom runes i piece_id, r.result.toList ≠ [] := by
  induction i, piece_id using sendFrom.induct runes with
  | case1 i piece_id h ih =>
      rw [sendFrom_of_lt h]
      intro r hr
      rcases List.mem_cons.mp hr with rfl | hmem
      · rw [String.toList_ofList]
        intro hnil
        have hlen := congrArg List.length hnil
        have hpos := piece_size_pos
        rw [List.length_take, List.length_drop, List.length_nil] at hlen
        omega
      · exact ih r hmem
  | case2 i piece_id h =>
      rw [sendFrom_of_le (not_lt.mp h)]
      exact fun r hr => absurd hr List.not_mem_nil

/-- The numbers count up from the first one, modulo `2 ^ 32`. -/
theorem piece_id_sendFrom (runes : List Char) (i k : ℕ) :
    (sendFrom runes i (Int32.ofNat k)).map ExecuteQueryResponse.piece_id
      = (List.range' k (sendFrom runes i (Int32.ofNat k)).length).map Int32.ofNat := by
  by_cases h : i < runes.length
  · have hnext : Int32.ofNat k + 1 = Int32.ofNat (k + 1) := (Int32.ofNat_add k 1).symm
    rw [sendFrom_of_lt h, hnext, List.map_cons, piece_id_sendFrom runes (i + piece_size) (k + 1),
      List.length_cons, List.range'_succ, List.map_cons]
  · rw [sendFrom_of_le (not_lt.mp h)]
    rfl
termination_by runes.length - i
decreasing_by
  have hpos := piece_size_pos
  omega

/-- `m` pieces are enough for `m` million characters, and for no more. -/
theorem length_sendFrom_le_iff (runes : List Char) (i : ℕ) (piece_id : Int32) (m : ℕ) :
    (sendFrom runes i piece_id).length ≤ m ↔ runes.length ≤ i + piece_size * m := by
  induction i, piece_id using sendFrom.induct runes generalizing m with
  | case1 i piece_id h ih =>
      rw [sendFrom_of_lt h, List.length_cons]
      cases m with
      | zero => omega
      | succ m =>
          rw [Nat.add_le_add_iff_right, ih, Nat.mul_succ, add_assoc, add_comm piece_size]
  | case2 i piece_id h =>
      rw [sendFrom_of_le (not_lt.mp h), List.length_nil]
      exact iff_of_true m.zero_le (by omega)

/-! ### The clients -/

/-- The characters of a sum of strings. -/
theorem toList_foldl_append {β : Type} (f : β → String) (l : List β) (res : String) :
    (l.foldl (fun res e => res ++ f e) res).toList
      = res.toList ++ l.flatMap fun e => (f e).toList := by
  induction l generalizing res with
  | nil => simp
  | cons e l ih =>
      rw [List.foldl_cons, ih, String.toList_append, List.flatMap_cons, List.append_assoc]

/-- The C++ client joins the pieces in the order of their numbers. -/
theorem toList_ccExecuteQuery {responses sorted : List ExecuteQueryResponse}
    (hperm : responses.Perm sorted)
    (hsorted : sorted.Pairwise fun r r' => r.piece_id.toInt < r'.piece_id.toInt) :
    (ccExecuteQuery responses).toList = sorted.flatMap fun r => r.result.toList := by
  rw [ccExecuteQuery, emplaceAll_eq (hperm.map entry) (List.pairwise_map.mpr hsorted),
    toList_foldl_append, List.flatMap_map]
  rfl

/-- So does the Go client, in whatever order it lists the keys. -/
theorem toList_mcExecuteQuery {replies sorted : List ExecuteQueryResponse} {range : List ℤ}
    (hperm : replies.Perm sorted)
    (hsorted : sorted.Pairwise fun r r' => r.piece_id.toInt < r'.piece_id.toInt)
    (hrange : range.Perm ((piece_list replies).map Prod.fst)) :
    (mcExecuteQuery range replies).toList = sorted.flatMap fun r => r.result.toList := by
  have hentries : (replies.map entry).Perm (sorted.map entry) := hperm.map entry
  have hnodup : ((replies.map entry).map Prod.fst).Nodup := by
    rw [(hentries.map Prod.fst).nodup_iff]
    exact nodup_of_sorted (List.pairwise_map.mpr hsorted)
  have hassign : piece_list replies = replies.map entry := assignAll_eq hnodup
  have hkeys : range.mergeSort = (sorted.map entry).map Prod.fst := by
    have hmerge : (range.mergeSort).Perm ((sorted.map entry).map Prod.fst) := by
      rw [hassign] at hrange
      exact (List.mergeSort_perm range _).trans (hrange.trans (hentries.map Prod.fst))
    have hle : ((sorted.map entry).map Prod.fst).Pairwise (· ≤ ·) := by
      rw [List.map_map]
      exact List.pairwise_map.mpr (hsorted.imp le_of_lt)
    exact hmerge.eq_of_pairwise (fun _ _ _ _ => le_antisymm)
      (List.pairwise_mergeSort' (· ≤ ·) range) hle
  rw [mcExecuteQuery, hkeys, hassign, toList_foldl_append, String.toList_empty, List.nil_append,
    List.map_map, List.flatMap_map]
  refine List.flatMap_congr fun r hr => ?_
  have hmem : entry r ∈ replies.map entry := hentries.mem_iff.mpr (List.mem_map_of_mem hr)
  show (get (replies.map entry) (entry r).1 "").toList = _
  rw [get_of_mem hnodup hmem]
  rfl

/-! ### The numbers -/

/-- The first `2 ^ 31` numbers are not negative. -/
theorem piece_id_nonneg {sent : List ExecuteQueryResponse} {m : ℕ} (hm : m ≤ 2 ^ 31)
    (h : sent.map ExecuteQueryResponse.piece_id = (List.range' 0 m).map Int32.ofNat) :
    ∀ r ∈ sent, 0 ≤ r.piece_id.toInt := by
  intro r hr
  have hid : r.piece_id ∈ (List.range' 0 m).map Int32.ofNat := h ▸ List.mem_map_of_mem hr
  obtain ⟨j, hj, hjr⟩ := List.mem_map.mp hid
  rw [List.mem_range'_1] at hj
  rw [← hjr, Int32.toInt_ofNat_of_lt (by omega)]
  exact Int.natCast_nonneg j

/-- The first `2 ^ 31` numbers increase. -/
theorem sorted_of_piece_id {sent : List ExecuteQueryResponse} {m : ℕ} (hm : m ≤ 2 ^ 31)
    (h : sent.map ExecuteQueryResponse.piece_id = (List.range' 0 m).map Int32.ofNat) :
    sent.Pairwise fun r r' => r.piece_id.toInt < r'.piece_id.toInt := by
  have hids : ((List.range' 0 m).map Int32.ofNat).Pairwise fun x y => x.toInt < y.toInt := by
    refine List.pairwise_map.mpr (List.Pairwise.imp_of_mem ?_ List.pairwise_lt_range')
    intro j j' hj hj' hlt
    rw [List.mem_range'_1] at hj hj'
    rw [Int32.toInt_ofNat_of_lt (by omega), Int32.toInt_ofNat_of_lt (by omega)]
    exact_mod_cast hlt
  rwa [← h, List.pairwise_map] at hids

theorem executeQuery_piece_id (result : String) :
    (executeQuery result).map ExecuteQueryResponse.piece_id
      = (List.range' 0 (executeQuery result).length).map Int32.ofNat :=
  piece_id_sendFrom result.toList 0 0

theorem flatMap_executeQuery (result : String) :
    (executeQuery result).flatMap (fun r => r.result.toList) = result.toList :=
  flatMap_sendFrom result.toList 0 0

/-- **A result of at most `2 ^ 31` pieces** is given back by both clients, in whatever order
its pieces arrive: by the Go client for every order in which it may list its keys, and by the
C++ client from its sorted map. -/
theorem executeQuery_round_trip (result : String) (hlen : result.length ≤ piece_size * 2 ^ 31)
    {arrived : List ExecuteQueryResponse} (harrived : arrived.Perm (executeQuery result)) :
    (∀ range : List ℤ, range.Perm ((piece_list arrived).map Prod.fst) →
      mcExecuteQuery range arrived = result) ∧
    ccExecuteQuery arrived = result := by
  have hm : (executeQuery result).length ≤ 2 ^ 31 := by
    rw [executeQuery, length_sendFrom_le_iff, zero_add, String.length_toList]
    exact hlen
  have hsorted := sorted_of_piece_id hm (executeQuery_piece_id result)
  refine ⟨fun range hrange => String.toList_inj.mp ?_, String.toList_inj.mp ?_⟩
  · rw [toList_mcExecuteQuery harrived hsorted hrange, flatMap_executeQuery]
  · rw [toList_ccExecuteQuery harrived hsorted, flatMap_executeQuery]

/-- A result of two pieces. -/
theorem executeQuery_two {init last : List Char} (hinit : init.length = piece_size)
    (hlast : last ≠ []) (hle : last.length ≤ piece_size) :
    executeQuery (String.ofList (init ++ last))
      = [⟨String.ofList init, 0⟩, ⟨String.ofList last, 1⟩] := by
  have hpos := piece_size_pos
  have hlen : (init ++ last).length = piece_size + last.length := by
    rw [List.length_append, hinit]
  have hlt : 0 < last.length := List.length_pos_iff.mpr hlast
  rw [executeQuery, String.toList_ofList, sendFrom_of_lt (by omega), sendFrom_of_lt (by omega),
    sendFrom_of_le (by omega), List.drop_zero, List.take_left' hinit, zero_add,
    List.drop_left' hinit, List.take_of_length_le hle]
  rfl

/-- A million characters and one more, of three and four bytes on both sides of the cut; the
second piece arrives first. -/
theorem executeQuery_round_trip_sample :
    let init := List.replicate (piece_size - 1) 'a' ++ ['漢']
    let result := String.ofList (init ++ ['😀'])
    let arrived : List ExecuteQueryResponse := [⟨String.ofList ['😀'], 1⟩, ⟨String.ofList init, 0⟩]
    executeQuery result = arrived.reverse ∧
      (∀ range : List ℤ, range.Perm ((piece_list arrived).map Prod.fst) →
        mcExecuteQuery range arrived = result) ∧
      ccExecuteQuery arrived = result := by
  intro init result arrived
  have hinit : init.length = piece_size := by
    rw [List.length_append, List.length_replicate]
    rfl
  have hsent : executeQuery result = arrived.reverse :=
    executeQuery_two hinit (List.cons_ne_nil _ _) (by decide)
  have hlen : result.length ≤ piece_size * 2 ^ 31 := by
    rw [← String.length_toList, String.toList_ofList, List.length_append, hinit]
    decide
  exact ⟨hsent, executeQuery_round_trip result hlen (hsent ▸ List.Perm.swap _ _ _)⟩

/-! ### Beyond -/

/-- The piece after the first `m` ones. -/
theorem exists_last {result : String} {m : ℕ} (hlo : piece_size * m < result.length)
    (hhi : result.length ≤ piece_size * (m + 1)) :
    ∃ sent last, executeQuery result = sent ++ [last] ∧
      sent.map ExecuteQueryResponse.piece_id = (List.range' 0 m).map Int32.ofNat ∧
      last.piece_id = Int32.ofNat m ∧ sent.length = m := by
  have hids := executeQuery_piece_id result
  have hlen : (executeQuery result).length = m + 1 := by
    have hle : (executeQuery result).length ≤ m + 1 := by
      rw [executeQuery, length_sendFrom_le_iff, zero_add, String.length_toList]
      exact hhi
    have hgt : ¬(executeQuery result).length ≤ m := by
      rw [executeQuery, length_sendFrom_le_iff, zero_add, String.length_toList]
      omega
    omega
  rcases List.eq_nil_or_concat' (executeQuery result) with hnil | hconcat
  · rw [hnil, List.length_nil] at hlen
    omega
  · obtain ⟨sent, last, hsplit⟩ := hconcat
    have hsent : sent.length = m := by
      rw [hsplit, List.length_append, List.length_singleton] at hlen
      omega
    rw [hlen, hsplit, List.map_append, List.range'_concat, List.map_append] at hids
    obtain ⟨hinit, hlast⟩ := List.append_inj' hids rfl
    refine ⟨sent, last, hsplit, hinit, ?_, hsent⟩
    have hid := List.head_eq_of_cons_eq hlast
    rwa [zero_add, one_mul] at hid

/-- With one piece more than `2 ^ 31` the last piece comes first. -/
theorem executeQuery_last_first {result : String} (hlo : piece_size * 2 ^ 31 < result.length)
    (hhi : result.length ≤ piece_size * (2 ^ 31 + 1)) :
    ∃ init last : List Char, init ≠ [] ∧ last ≠ [] ∧ result.toList = init ++ last ∧
      ∀ arrived : List ExecuteQueryResponse, arrived.Perm (executeQuery result) →
        (∀ range : List ℤ, range.Perm ((piece_list arrived).map Prod.fst) →
          (mcExecuteQuery range arrived).toList = last ++ init) ∧
        (ccExecuteQuery arrived).toList = last ++ init := by
  obtain ⟨sent, last, hsplit, hids, hlast, hlen⟩ := exists_last hlo hhi
  have hne : ∀ r ∈ sent ++ [last], r.result.toList ≠ [] := by
    rw [← hsplit]
    exact result_ne_nil result.toList 0 0
  have hneg : last.piece_id.toInt < 0 := by
    rw [hlast]
    decide
  have hsorted : (last :: sent).Pairwise fun r r' => r.piece_id.toInt < r'.piece_id.toInt :=
    List.pairwise_cons.mpr ⟨fun r hr => hneg.trans_le (piece_id_nonneg le_rfl hids r hr),
      sorted_of_piece_id le_rfl hids⟩
  have hperm : (executeQuery result).Perm (last :: sent) := by
    rw [hsplit]
    exact List.perm_append_singleton last sent
  have hresult := flatMap_executeQuery result
  rw [hsplit, List.flatMap_append, List.flatMap_singleton] at hresult
  refine ⟨sent.flatMap fun r => r.result.toList, last.result.toList, ?_,
    hne last (List.mem_append_right _ List.mem_cons_self), hresult.symm, fun arrived harrived => ?_⟩
  · intro hnil
    cases sent with
    | nil => cases hlen
    | cons r sent =>
        rw [List.flatMap_cons] at hnil
        exact hne r List.mem_cons_self (List.append_eq_nil_iff.mp hnil).1
  · have harr := harrived.trans hperm
    refine ⟨fun range hrange => ?_, ?_⟩
    · rw [toList_mcExecuteQuery harr hsorted hrange, List.flatMap_cons]
    · rw [toList_ccExecuteQuery harr hsorted, List.flatMap_cons]

/-- A list with one `'b'`, at its end, is not turned around into itself. -/
theorem rotate_ne {k : ℕ} {init last : List Char} (hinit : init ≠ []) (hlast : last ≠ [])
    (h : List.replicate k 'a' ++ ['b'] = init ++ last) :
    last ++ init ≠ List.replicate k 'a' ++ ['b'] := by
  intro heq
  have hend : ∀ {l l' : List Char}, l' ≠ [] → l ++ l' = List.replicate k 'a' ++ ['b'] →
      'b' ∈ l' := by
    intro l l' hne happ
    have hlast? := congrArg List.getLast? happ
    rw [List.getLast?_append_of_ne_nil _ hne, List.getLast?_concat] at hlast?
    exact List.mem_of_getLast? hlast?
  have hcount := congrArg (List.count 'b') h
  rw [List.count_append, List.count_append, List.count_replicate, if_neg (by decide),
    List.count_singleton_self] at hcount
  have hone := List.count_pos_iff.mpr (hend hlast h.symm)
  have htwo := List.count_pos_iff.mpr (hend hinit heq)
  omega

/-- A result of this form is not given back. -/
theorem executeQuery_ne {result : String} {k : ℕ} (hk : k = piece_size * 2 ^ 31)
    (htoList : result.toList = List.replicate k 'a' ++ ['b']) :
    mcExecuteQuery ((piece_list (executeQuery result)).map Prod.fst) (executeQuery result) ≠ result ∧
      ccExecuteQuery (executeQuery result) ≠ result := by
  have hlen : result.length = k + 1 := by
    rw [← String.length_toList, htoList, List.length_append, List.length_replicate,
      List.length_singleton]
  have hlo : piece_size * 2 ^ 31 < result.length := by
    rw [hlen, ← hk]
    exact Nat.lt_succ_self k
  have hhi : result.length ≤ piece_size * (2 ^ 31 + 1) := by
    rw [hlen, hk, Nat.mul_succ]
    exact Nat.add_le_add_left piece_size_pos _
  obtain ⟨init, last, hinit, hlast, hsplit, hclients⟩ := executeQuery_last_first hlo hhi
  obtain ⟨hmc, hcc⟩ := hclients _ (List.Perm.refl _)
  have hne := rotate_ne hinit hlast (htoList.symm.trans hsplit)
  rw [← htoList] at hne
  refine ⟨fun heq => hne ?_, fun heq => hne ?_⟩
  · rw [← hmc _ (List.Perm.refl _), heq]
  · rw [← hcc, heq]

/-- `2 ^ 31` million characters and one more: the last one comes out first. -/
theorem executeQuery_wraps :
    let result := String.ofList (List.replicate (piece_size * 2 ^ 31) 'a' ++ ['b'])
    mcExecuteQuery ((piece_list (executeQuery result)).map Prod.fst) (executeQuery result) ≠ result ∧
      ccExecuteQuery (executeQuery result) ≠ result :=
  executeQuery_ne rfl String.toList_ofList

end QuickMpc.DbGate.ResultStream
