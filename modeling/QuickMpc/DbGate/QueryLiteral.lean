import QuickMpc.DbGate.Client
import QuickMpc.Lib.QuotedLiteral

/-!
# QuickMpc.DbGate.QueryLiteral

The texts of the queries that embed a data id or a job uuid, and what the database reads
there.

`EscapeInjection` (Go, between single quotes) and `escape_injection` (C++, between double
quotes) double both kinds of quotes. `getSchema`, `getComputationResult` and the C++
`where` embed the escaped id; `count` and `existPieceID` embed the id as it is, and so
does `deleteShares`, whose loop over the ids drops what it has escaped.

`denotesExactly_iff` says for which ids all of these literals denote the id.
-/

namespace QuickMpc.DbGate

open QuotedLiteral (decode quote LoneBackslashes)

/-! ### The texts -/

/-- `N1QLClause::escape_injection` with `N1QL_WHERE_PARAM`. -/
def escape_injection (target : String) : String :=
  (target.replace "'" "''").replace "\"" "\"\""

/-- `N1QLClause::where`. -/
def whereClause (key data : String) : String :=
  "WHERE x." ++ escape_injection key ++ " = \"" ++ escape_injection data ++ "\" "

def countQuery (key id bucket : String) : String :=
  "SELECT x.meta, meta().id FROM `" ++ bucket ++ "` x WHERE x." ++ key ++ "= '" ++ id ++ "'"

def existPieceIDQuery (dataID : String) : String :=
  "SELECT x.meta, meta().id FROM `share` x WHERE x.data_id = '" ++ dataID ++ "';"

def str_dataIDs (dataIDs : List String) : String := "['" ++ "', '".intercalate dataIDs ++ "']"

/-- The first query of `deleteShares`. -/
def squery (dataIDs : List String) : String :=
  "SELECT x.data_id FROM `share` x WHERE x.data_id IN " ++ str_dataIDs dataIDs ++ ";"

/-- The second query of `deleteShares`. -/
def dquery (dataIDs : List String) : String :=
  "DELETE FROM `share` x WHERE x.data_id IN " ++ str_dataIDs dataIDs ++ ";"

def getSchemaQuery (dataID : String) : String :=
  "SELECT x.meta, meta().id FROM `share` x WHERE x.data_id = '" ++ escapeInjection dataID
    ++ "' ORDER BY meta(s).id LIMIT 1;"

def getComputationResultQuery (jobUUID : String) : String :=
  "SELECT x.*, meta().id FROM `result` x WHERE x.job_uuid = '" ++ escapeInjection jobUUID ++ "';"

/-! ### What is read -/

/-- The literal that opens with `q` after `head` denotes `id`, and the quote before
`tail` closes it. -/
def Reads (q : Char) (query head id tail : String) : Prop :=
  ∃ text, query.toList = head.toList ++ q :: text ∧ decode q text = some (id.toList, tail.toList)

/-- What stands before and after the literal of an id in `str_dataIDs`. -/
def inHead (before : List String) : String :=
  "[" ++ String.join (before.map fun v => "'" ++ v ++ "', ")

def inTail (after : List String) : String :=
  String.join (after.map fun v => ", '" ++ v ++ "'") ++ "]"

/-- A database that reads the text between the quotes of a literal with `decode`. -/
def reading {J : Type} (unmarshal : String → Except String J) : Externals J where
  unmarshal := unmarshal
  eq := fun text value => decode '\'' (text.toList ++ ['\'']) = some (value.toList, [])
  isIn := fun texts value => texts.any fun text =>
    decode '\'' (text.toList ++ ['\'']) = some (value.toList, [])

/-- The literals of an id denote it, and its documents are found. -/
structure DenotesExactly (id : String) : Prop where
  escapeInjection : ∀ tail : List Char, tail.head? ≠ some '\'' →
    decode '\'' ((escapeInjection id).toList ++ '\'' :: tail) = some (id.toList, tail)
  escape_injection : ∀ tail : List Char, tail.head? ≠ some '"' →
    decode '"' ((escape_injection id).toList ++ '"' :: tail) = some (id.toList, tail)
  whereClause : ∀ key, Reads '"' (whereClause key id)
    ("WHERE x." ++ DbGate.escape_injection key ++ " = ") id " "
  count : ∀ key bucket, Reads '\'' (countQuery key id bucket)
    ("SELECT x.meta, meta().id FROM `" ++ bucket ++ "` x WHERE x." ++ key ++ "= ") id ""
  existPieceID : Reads '\'' (existPieceIDQuery id)
    "SELECT x.meta, meta().id FROM `share` x WHERE x.data_id = " id ";"
  squery : ∀ before after, Reads '\'' (squery (before ++ id :: after))
    ("SELECT x.data_id FROM `share` x WHERE x.data_id IN " ++ inHead before) id
    (inTail after ++ ";")
  dquery : ∀ before after, Reads '\'' (dquery (before ++ id :: after))
    ("DELETE FROM `share` x WHERE x.data_id IN " ++ inHead before) id (inTail after ++ ";")
  getSchema : Reads '\'' (getSchemaQuery id)
    "SELECT x.meta, meta().id FROM `share` x WHERE x.data_id = " id
    " ORDER BY meta(s).id LIMIT 1;"
  getComputationResult : Reads '\'' (getComputationResultQuery id)
    "SELECT x.*, meta().id FROM `result` x WHERE x.job_uuid = " id ";"
  found : ∀ {J : Type} (unmarshal : String → Except String J) (db : Db J),
    ∀ x ∈ db.share, x.data_id = id →
      DbGate.existPieceID (reading unmarshal) db .ok id x.info.piece_id = .ok true
      ∧ DbGate.count (reading unmarshal) db .ok .data_id id
        = .ok (int32 (db.share.filter fun x => x.data_id = id).length)
      ∧ (∃ y ∈ db.share, y.data_id = id
        ∧ DbGate.getSchema (reading unmarshal) db .ok id = .schema y.info.schema)
      ∧ checkShares (reading unmarshal) db .ok [id] = .ok ()
      ∧ (deleteShares (reading unmarshal) db .ok [id]).1.share
        = db.share.filter fun x => x.data_id ≠ id
  found_result : ∀ {J : Type} (unmarshal : String → Except String J) (db : Db J),
    DbGate.count (reading unmarshal) db .ok .job_uuid id
      = .ok (int32 (db.result.filter fun x => x.job_uuid = id).length)
    ∧ ∀ x, (db.result.filter fun x => x.job_uuid = id) = [x] →
      DbGate.getComputationResult (reading unmarshal) db .ok id = .computationResult x

/-- Without quotes, and with each backslash before a character that is none. -/
def Plain (id : String) : Prop :=
  (∀ c ∈ id.toList, c ≠ '\'' ∧ c ≠ '"')
    ∧ id.toList.IsChain (fun c d => c = '\\' → d ≠ '\\') ∧ id.toList.getLast? ≠ some '\\'

instance (id : String) : Decidable (Plain id) := inferInstanceAs (Decidable (_ ∧ _ ∧ _))

/-! ### The literals -/

/-- The characters that the escapers double. -/
def isQuote (c : Char) : Bool := c = '\'' ∨ c = '"'

theorem toList_escapeInjection (text : String) :
    (escapeInjection text).toList = quote isQuote text.toList := by
  unfold escapeInjection quote
  rw [show "'" = String.singleton '\'' from rfl, show "\"" = String.singleton '"' from rfl,
    QuotedLiteral.toList_replace_singleton, QuotedLiteral.toList_replace_singleton,
    List.flatMap_assoc]
  refine List.flatMap_congr fun c _ => ?_
  by_cases hc : c = '\''
  · subst hc
    rfl
  · by_cases hc' : c = '"'
    · subst hc'
      rfl
    · simp [isQuote, hc, hc']

theorem toList_escape_injection (text : String) :
    (escape_injection text).toList = quote isQuote text.toList :=
  toList_escapeInjection text

/-- An id that is embedded as it is. -/
theorem toList_eq_quote (text : String) : text.toList = quote (fun _ => false) text.toList := by
  simp [quote]

/-- Where the literal of an id is read. -/
theorem reads_iff {q : Char} {query head body id tail : String}
    (h : query = head ++ String.singleton q ++ body ++ (String.singleton q ++ tail)) :
    Reads q query head id tail ↔
      decode q (body.toList ++ q :: tail.toList) = some (id.toList, tail.toList) := by
  have htext : query.toList = head.toList ++ q :: (body.toList ++ q :: tail.toList) := by
    simp [h]
  unfold Reads
  rw [htext]
  constructor
  · intro h'
    obtain ⟨text, htext, hread⟩ := h'
    obtain rfl := (List.cons.inj (List.append_cancel_left htext)).2
    exact hread
  · exact fun hread => ⟨_, rfl, hread⟩

/-- The literal of an escaped id between the quotes that the query puts around it. -/
theorem decode_escaped_iff {q : Char} (hq : q ≠ '\\') {tail : List Char}
    (htail : tail.head? ≠ some q) (id : String) :
    decode q (quote isQuote id.toList ++ q :: tail) = some (id.toList, tail) ↔
      (∀ c ∈ id.toList, isQuote c = decide (c = q)) ∧ LoneBackslashes q id.toList :=
  QuotedLiteral.decode_quote_iff hq rfl htail id.toList

/-- The literal of an id that is embedded as it is. -/
theorem decode_raw_iff {q : Char} (hq : q ≠ '\\') {tail : List Char}
    (htail : tail.head? ≠ some q) (id : String) :
    decode q (id.toList ++ q :: tail) = some (id.toList, tail) ↔
      (∀ c ∈ id.toList, c ≠ q) ∧ LoneBackslashes q id.toList := by
  have h : decode q (quote (fun _ => false) id.toList ++ q :: tail) = some (id.toList, tail) ↔ _ :=
    QuotedLiteral.decode_quote_iff hq rfl htail id.toList
  rw [← toList_eq_quote] at h
  simpa using h

namespace Plain

variable {id : String} (hid : Plain id)

include hid

theorem loneBackslashes {q : Char} (hq : isQuote q) : LoneBackslashes q id.toList := by
  have hne : q ≠ '\\' := by
    intro heq
    subst heq
    exact absurd hq (by decide)
  have hno : ∀ c ∈ id.toList, c ≠ q := by
    rintro c hc rfl
    obtain ⟨h, h'⟩ := hid.1 c hc
    simp [isQuote, h, h'] at hq
  exact (QuotedLiteral.loneBackslashes_iff hne hno).mpr hid.2

theorem isQuote_eq {q : Char} (hq : isQuote q) : ∀ c ∈ id.toList, isQuote c = decide (c = q) := by
  intro c hc
  obtain ⟨h, h'⟩ := hid.1 c hc
  have hne : c ≠ q := by
    intro heq
    subst heq
    simp [isQuote, h, h'] at hq
  simp [isQuote, h, h', hne]

/-- Between quotes of either kind, escaped or not. -/
theorem decode_escaped {q : Char} (hq : isQuote q) {tail : List Char}
    (htail : tail.head? ≠ some q) :
    decode q (quote isQuote id.toList ++ q :: tail) = some (id.toList, tail) := by
  have hne : q ≠ '\\' := by
    intro h
    subst h
    exact absurd hq (by decide)
  exact (decode_escaped_iff hne htail id).mpr ⟨hid.isQuote_eq hq, hid.loneBackslashes hq⟩

theorem decode_raw {tail : List Char} (htail : tail.head? ≠ some '\'') :
    decode '\'' (id.toList ++ '\'' :: tail) = some (id.toList, tail) :=
  (decode_raw_iff (by decide) htail id).mpr
    ⟨fun c hc => (hid.1 c hc).1, hid.loneBackslashes rfl⟩

end Plain

/-- The place of an id in the list of an `IN`. -/
theorem str_dataIDs_append (before after : List String) (id : String) :
    str_dataIDs (before ++ id :: after)
      = inHead before ++ ("'" ++ (id ++ ("'" ++ inTail after))) := by
  have hafter : ∀ (after : List String) (id : String),
      "', '".intercalate (id :: after) ++ "']" = id ++ ("'" ++ inTail after) := by
    intro after
    induction after with
    | nil =>
        intro id
        simp [inTail]
    | cons v after ih =>
        intro id
        rw [String.intercalate_cons_cons, String.append_assoc, ih v]
        simp only [inTail, List.map_cons, String.join_cons, String.append_assoc]
        exact congrArg (id ++ ·) (@String.append_assoc "'" ", '" _)
  have hbefore : "'" ++ "', '".intercalate (before ++ id :: after)
      = String.join (before.map fun v => "'" ++ v ++ "', ")
        ++ ("'" ++ "', '".intercalate (id :: after)) := by
    induction before with
    | nil => simp
    | cons v before ih =>
        rw [List.cons_append, String.intercalate_cons_of_ne_nil (by simp), List.map_cons,
          String.join_cons, @String.append_assoc _ (String.join _) _, ← ih]
        simp only [String.append_assoc]
        exact congrArg (fun s => "'" ++ (v ++ s)) (@String.append_assoc "', " "'" _)
  calc str_dataIDs (before ++ id :: after)
      = "[" ++ ("'" ++ "', '".intercalate (before ++ id :: after)) ++ "']" := by
        rw [str_dataIDs, ← String.append_assoc]
        rfl
    _ = inHead before ++ ("'" ++ ("', '".intercalate (id :: after) ++ "']")) := by
        rw [hbefore, inHead]
        simp [String.append_assoc]
    _ = inHead before ++ ("'" ++ (id ++ ("'" ++ inTail after))) := by
        rw [hafter]

theorem whereClause_eq (key data : String) : whereClause key data
    = "WHERE x." ++ escape_injection key ++ " = " ++ String.singleton '"' ++ escape_injection data
      ++ (String.singleton '"' ++ " ") := by
  rw [whereClause, @String.append_assoc _ " = " _]
  rfl

theorem countQuery_eq (key id bucket : String) : countQuery key id bucket
    = "SELECT x.meta, meta().id FROM `" ++ bucket ++ "` x WHERE x." ++ key ++ "= "
      ++ String.singleton '\'' ++ id ++ (String.singleton '\'' ++ "") := by
  unfold countQuery
  simp only [@String.append_assoc _ "= " _, String.reduceSingleton, String.reduceAppend,
    String.append_empty]

theorem existPieceIDQuery_eq (dataID : String) : existPieceIDQuery dataID
    = "SELECT x.meta, meta().id FROM `share` x WHERE x.data_id = " ++ String.singleton '\''
      ++ dataID ++ (String.singleton '\'' ++ ";") := by
  unfold existPieceIDQuery
  simp

/-- Both queries of `deleteShares`, which are the same from the list on. -/
theorem str_dataIDs_place (statement : String) (before after : List String) (id : String) :
    statement ++ str_dataIDs (before ++ id :: after) ++ ";"
      = statement ++ inHead before ++ String.singleton '\'' ++ id
        ++ (String.singleton '\'' ++ (inTail after ++ ";")) := by
  rw [str_dataIDs_append]
  simp only [String.append_assoc]
  rfl

theorem getSchemaQuery_eq (dataID : String) : getSchemaQuery dataID
    = "SELECT x.meta, meta().id FROM `share` x WHERE x.data_id = " ++ String.singleton '\''
      ++ escapeInjection dataID ++ (String.singleton '\'' ++ " ORDER BY meta(s).id LIMIT 1;") := by
  unfold getSchemaQuery
  simp

theorem getComputationResultQuery_eq (jobUUID : String) : getComputationResultQuery jobUUID
    = "SELECT x.*, meta().id FROM `result` x WHERE x.job_uuid = " ++ String.singleton '\''
      ++ escapeInjection jobUUID ++ (String.singleton '\'' ++ ";") := by
  unfold getComputationResultQuery
  simp

theorem head?_inTail (after : List String) :
    (inTail after ++ ";").toList.head? ≠ some '\'' := by
  cases after with
  | nil => decide
  | cons v after => simp [inTail]

/-! ### The documents of a plain id -/

namespace Plain

variable {J : Type} {id : String} (hid : Plain id) (unmarshal : String → Except String J)

include hid

theorem eq_raw (value : String) : (reading unmarshal).eq id value = decide (value = id) := by
  have h : decode '\'' (id.toList ++ ['\'']) = some (id.toList, []) := hid.decode_raw (by simp)
  simp [reading, h, String.toList_inj, eq_comm]

theorem eq_escaped (value : String) :
    (reading unmarshal).eq (escapeInjection id) value = decide (value = id) := by
  have h : decode '\'' (quote isQuote id.toList ++ ['\'']) = some (id.toList, []) :=
    hid.decode_escaped rfl (by simp)
  simp [reading, toList_escapeInjection, h, String.toList_inj, eq_comm]

theorem isIn_singleton (value : String) :
    (reading unmarshal).isIn [id] value = decide (value = id) := by
  have h := hid.eq_raw unmarshal value
  simpa [reading] using h

variable (db : Db J)

theorem existPieceID_ok {x : Share J} (hx : x ∈ db.share) (hdata : x.data_id = id) :
    existPieceID (reading unmarshal) db .ok id x.info.piece_id = .ok true := by
  simp only [existPieceID, hid.eq_raw, Except.ok.injEq, List.any_eq_true]
  exact ⟨x, List.mem_filter.mpr ⟨hx, by simp [hdata]⟩, by simp⟩

theorem count_data_id : count (reading unmarshal) db .ok .data_id id
    = .ok (int32 (db.share.filter fun x => x.data_id = id).length) := by
  simp only [count, select, hid.eq_raw]
  rfl

theorem count_job_uuid : count (reading unmarshal) db .ok .job_uuid id
    = .ok (int32 (db.result.filter fun x => x.job_uuid = id).length) := by
  simp only [count, select, hid.eq_raw]
  rfl

theorem getSchema_ok {x : Share J} (hx : x ∈ db.share) (hdata : x.data_id = id) :
    ∃ y ∈ db.share, y.data_id = id ∧
      getSchema (reading unmarshal) db .ok id = .schema y.info.schema := by
  have hmem : x ∈ db.share.filter fun x => decide (x.data_id = id) :=
    List.mem_filter.mpr ⟨hx, by simp [hdata]⟩
  simp only [getSchema, select, hid.eq_escaped, first]
  cases hrows : (db.share.filter fun x => decide (x.data_id = id)).mergeSort
      fun x y => x.id ≤ y.id with
  | nil =>
      have hsorted : x ∈ ([] : List (Share J)) := hrows ▸ List.mem_mergeSort.mpr hmem
      exact absurd hsorted List.not_mem_nil
  | cons y rows =>
      have hy : y ∈ db.share.filter fun x => decide (x.data_id = id) :=
        List.mem_mergeSort.mp (hrows ▸ List.mem_cons_self)
      obtain ⟨hy, hdata⟩ := List.mem_filter.mp hy
      exact ⟨y, hy, of_decide_eq_true hdata, rfl⟩

theorem checkShares_ok {x : Share J} (hx : x ∈ db.share) (hdata : x.data_id = id) :
    checkShares (reading unmarshal) db .ok [id] = .ok () := by
  have hany : ((db.share.filter fun x => decide (x.data_id = id)).any fun e =>
      decide (e.data_id = id)) = true :=
    List.any_eq_true.mpr ⟨x, List.mem_filter.mpr ⟨hx, by simp [hdata]⟩, by simp [hdata]⟩
  simp only [checkShares, select, hid.isIn_singleton, List.countP_singleton, hany]
  rfl

theorem deleteShares_share : (deleteShares (reading unmarshal) db .ok [id]).1.share
    = db.share.filter fun x => x.data_id ≠ id := by
  simp only [deleteShares, execute, hid.isIn_singleton]
  simp

theorem getComputationResult_ok {x : ComputationResult J}
    (hx : (db.result.filter fun x => x.job_uuid = id) = [x]) :
    getComputationResult (reading unmarshal) db .ok id = .computationResult x := by
  simp only [getComputationResult, select, hid.eq_escaped, hx]

end Plain

/-! ### The ids that are denoted -/

/-- **The ids that the queries read back.** Every literal of an id, escaped or not and in
either kind of quotes, denotes the id and ends at its own closing quote exactly when the id
has no quotes and each of its backslashes stands before a character that is none. -/
theorem denotesExactly_iff (id : String) : DenotesExactly id ↔ Plain id := by
  constructor
  · intro h
    have hgo := h.escapeInjection [] (by simp)
    have hcpp := h.escape_injection [] (by simp)
    rw [toList_escapeInjection, decode_escaped_iff (by decide) (by simp)] at hgo
    rw [toList_escape_injection, decode_escaped_iff (by decide) (by simp)] at hcpp
    -- each delimiter rules the other quote out
    have hquotes : ∀ c ∈ id.toList, c ≠ '\'' ∧ c ≠ '"' := by
      intro c hc
      constructor
      · intro heq
        subst heq
        exact absurd (hcpp.1 _ hc) (by decide)
      · intro heq
        subst heq
        exact absurd (hgo.1 _ hc) (by decide)
    have hno : ∀ c ∈ id.toList, c ≠ '\'' := fun c hc => (hquotes c hc).1
    exact ⟨hquotes, (QuotedLiteral.loneBackslashes_iff (by decide) hno).mp hgo.2⟩
  · intro hid
    have hplace : ∀ (statement : String) (before after : List String),
        Reads '\'' (statement ++ str_dataIDs (before ++ id :: after) ++ ";")
          (statement ++ inHead before) id (inTail after ++ ";") := by
      intro statement before after
      exact (reads_iff (str_dataIDs_place statement before after id)).mpr
        (hid.decode_raw (head?_inTail after))
    constructor
    · intro tail htail
      rw [toList_escapeInjection]
      exact hid.decode_escaped rfl htail
    · intro tail htail
      rw [toList_escape_injection]
      exact hid.decode_escaped rfl htail
    · intro key
      refine (reads_iff (whereClause_eq key id)).mpr ?_
      rw [toList_escape_injection]
      exact hid.decode_escaped rfl (by decide)
    · intro key bucket
      exact (reads_iff (countQuery_eq key id bucket)).mpr (hid.decode_raw (by decide))
    · exact (reads_iff (existPieceIDQuery_eq id)).mpr (hid.decode_raw (by decide))
    · exact hplace _
    · exact hplace _
    · refine (reads_iff (getSchemaQuery_eq id)).mpr ?_
      rw [toList_escapeInjection]
      exact hid.decode_escaped rfl (by decide)
    · refine (reads_iff (getComputationResultQuery_eq id)).mpr ?_
      rw [toList_escapeInjection]
      exact hid.decode_escaped rfl (by decide)
    · intro J unmarshal db x hx hdata
      exact ⟨hid.existPieceID_ok unmarshal db hx hdata, hid.count_data_id unmarshal db,
        hid.getSchema_ok unmarshal db hx hdata, hid.checkShares_ok unmarshal db hx hdata,
        hid.deleteShares_share unmarshal db⟩
    · intro J unmarshal db
      exact ⟨hid.count_job_uuid unmarshal db,
        fun x hx => hid.getComputationResult_ok unmarshal db hx⟩

/-- `existPieceID` reads `x' OR 'a'='a` as the id `x` and goes on after it. -/
theorem existPieceIDQuery_extended :
    Reads '\'' (existPieceIDQuery "x' OR 'a'='a")
        "SELECT x.meta, meta().id FROM `share` x WHERE x.data_id = " "x" " OR 'a'='a';"
      ∧ ¬ DenotesExactly "x' OR 'a'='a" := by
  have hread : decode '\'' ("x' OR 'a'='a".toList ++ '\'' :: ";".toList)
      = some ("x".toList, " OR 'a'='a';".toList) := by
    decide +kernel
  constructor
  · exact ⟨_, by rw [existPieceIDQuery_eq]; simp, hread⟩
  · intro h
    have hid := (reads_iff (existPieceIDQuery_eq _)).mp h.existPieceID
    rw [hread] at hid
    exact absurd hid (by decide +kernel)

end QuickMpc.DbGate
