import QuickMpc.Basic
import QuickMpc.Lib.Cursor

/-!
# QuickMpc.ConfigParse

`Url::Parse`, which reads the addresses of the other containers.

The parser works with iterators into the text. Behind the first `:` it moves three
characters on without looking at them, and that is the one place where it can pass the end.
`Shape` lists what it does with every text; the texts it accepts are those of `Layout`.
-/

namespace QuickMpc.ConfigParse

open Cursor

/-- `std::string`. -/
abbrev Bytes := List UInt8

def utf8 (s : String) : Bytes := s.toUTF8.data.toList

def colon : UInt8 := ':'.toUInt8

def slash : UInt8 := '/'.toUInt8

structure Url where
  url : Bytes
  path : Bytes
  protocol : Bytes
  host : Bytes
  port : Bytes
  deriving DecidableEq, Repr

namespace Url

/-! ### Model -/

/-- How the parser ends other than by returning. -/
inductive Stop
  /-- `std::runtime_error`, with a trace when it was raised through `throw_with_trace`. -/
  | thrown (what : Bytes) (traced : Bool)
  /-- An iterator has passed the end; what follows is undefined. -/
  | pastEnd
  deriving DecidableEq, Repr

def checked {α : Type} (x : Option α) : Except Stop α := x.elim (.error .pastEnd) .ok

/-- What is thrown for an empty text. -/
def emptyError : Stop := .thrown (utf8 "ParseError: urlが空文字です") true

/-- What is thrown for a text without a colon, and without a trace: the traced one that
follows in the source is never reached. -/
def formatError (url : Bytes) : Stop := .thrown (url ++ utf8 " は正しくないurl形式です") false

/-- What is thrown for any other protocol. -/
def protocolError (protocol : Bytes) : Stop :=
  .thrown (utf8 "ParseError: " ++ protocol
    ++ utf8 " は許可されているプロトコル(http/https)ではありません") true

/-- `(host_end != url_end) && ((&*(host_end))[0] == ':')`. -/
def hasPort (url : Bytes) (host_end : ℕ) : Except Stop Bool :=
  if host_end ≠ url.length then do
    let c ← checked url[host_end]?
    return c == colon
  else return false

/-- The port. -/
def parsePort (url : Bytes) (host_end path_start : ℕ) : Except Stop Bytes := do
  if ← hasPort url host_end then
    let host_end ← checked (advance url host_end 1)
    let port_end := path_start
    checked (slice url host_end port_end)
  else return []

/-- The path. -/
def parsePath (url : Bytes) (path_start : ℕ) : Except Stop Bytes :=
  if path_start ≠ url.length then checked (slice url path_start url.length) else return []

/-- All that comes after the protocol. -/
def parseRest (url protocol : Bytes) (protocol_end : ℕ) : Except Stop Url := do
  let url_end := url.length
  let protocol_end ← checked (advance url protocol_end 3)
  let host_start := protocol_end
  let path_start ← checked (find url host_start url_end slash)
  let host_end ← checked
    (find url protocol_end (if path_start ≠ url_end then path_start else url_end) colon)
  let host ← checked (slice url host_start host_end)
  let port ← parsePort url host_end path_start
  let path ← parsePath url path_start
  return { url, path, protocol, host, port }

/-- `Url::Parse`. -/
def Parse (url : Bytes) : Except Stop Url := do
  if url.length = 0 then throw emptyError
  let url_end := url.length
  let protocol_start := 0
  let protocol_end ← checked (find url protocol_start url_end colon)
  if protocol_end = url_end then throw (formatError url)
  let protocol ← checked (slice url protocol_start protocol_end)
  if protocol ≠ utf8 "http" ∧ protocol ≠ utf8 "https" then throw (protocolError protocol)
  parseRest url protocol protocol_end

/-- `getAddress`. -/
def getAddress (u : Url) : Bytes := u.host ++ colon :: u.port

/-! ### Well-formed texts -/

/-- The protocols that are allowed. -/
inductive Scheme
  | http
  | https
  deriving DecidableEq, Repr

def Scheme.text : Scheme → Bytes
  | http => utf8 "http"
  | https => utf8 "https"

theorem Scheme.colon_notMem (s : Scheme) : colon ∉ s.text := by
  cases s <;> decide

theorem Scheme.allowed (s : Scheme) : ¬(s.text ≠ utf8 "http" ∧ s.text ≠ utf8 "https") := by
  cases s <;> decide

/-- A text that is accepted, in parts. Two characters are skipped, whatever they are. -/
structure Layout where
  scheme : Scheme
  skipped : Bytes
  skipped_length : skipped.length = 2
  host : Bytes
  host_plain : colon ∉ host ∧ slash ∉ host
  port : Option Bytes
  port_plain : ∀ p ∈ port, slash ∉ p
  path : Bytes
  path_rooted : path = [] ∨ ∃ rest, path = slash :: rest

namespace Layout

variable (L : Layout)

/-- Up to the host. -/
def head : Bytes := L.scheme.text ++ colon :: L.skipped

/-- The port, with the colon before it. -/
def portText : Bytes := L.port.elim [] fun p => colon :: p

def text : Bytes := L.head ++ (L.host ++ (L.portText ++ L.path))

def hostEnd : ℕ := L.head.length + L.host.length

def pathStart : ℕ := L.hostEnd + L.portText.length

/-- The parts as they are returned. -/
def url : Url where
  url := L.text
  path := L.path
  protocol := L.scheme.text
  host := L.host
  port := L.port.getD []

@[simp] theorem length_head : L.head.length = L.scheme.text.length + 3 := by
  simp [head, L.skipped_length]

variable {L} in
theorem portText_of_none (h : L.port = none) : L.portText = [] := by
  simp [portText, h]

variable {L} in
theorem portText_of_some {p : Bytes} (h : L.port = some p) : L.portText = colon :: p := by
  simp [portText, h]

theorem hostEnd_eq : L.hostEnd = (L.head ++ L.host).length := List.length_append.symm

theorem pathStart_eq : L.pathStart = L.head.length + (L.host ++ L.portText).length := by
  simp [pathStart, hostEnd, Nat.add_assoc]

theorem length_text : L.text.length = L.pathStart + L.path.length := by
  simp [text, pathStart, hostEnd, Nat.add_assoc]

theorem slash_notMem_portText : slash ∉ L.portText := by
  have hne : slash ≠ colon := by decide
  cases hport : L.port with
  | none => simp [portText_of_none hport]
  | some p => simp [portText_of_some hport, hne, L.port_plain p hport]

end Layout

theorem checked_some {α : Type} {x : Option α} {a : α} (h : x = some a) : checked x = .ok a := by
  rw [h]
  rfl

/-! ### One stage after the other -/

theorem Parse_of_colon {protocol tail : Bytes} (hprotocol : colon ∉ protocol) :
    Parse (protocol ++ colon :: tail)
      = if protocol ≠ utf8 "http" ∧ protocol ≠ utf8 "https" then
          .error (protocolError protocol)
        else parseRest (protocol ++ colon :: tail) protocol protocol.length := by
  set url := protocol ++ colon :: tail with hurl
  have hlength : url.length = protocol.length + (tail.length + 1) := by simp [hurl]
  have hfind : find url 0 url.length colon = some protocol.length := by
    simpa using find_of_cons (u := []) hurl rfl (by simp [hlength]) hprotocol
  have hslice : slice url 0 protocol.length = some protocol :=
    slice_of_append (u := []) hurl rfl (by simp)
  have hempty : url.length ≠ 0 := by omega
  have hend : protocol.length ≠ url.length := by omega
  rw [Parse, if_neg hempty, Except.bind_ok (checked_some hfind), if_neg hend,
    Except.bind_ok (checked_some hslice)]
  split
  · rfl
  · rfl

theorem Layout.parsePath_text (L : Layout) : parsePath L.text L.pathStart = .ok L.path := by
  unfold parsePath
  rcases L.path_rooted with hpath | ⟨rest, hpath⟩
  · have hend : L.pathStart = L.text.length := by simp [L.length_text, hpath]
    rw [if_neg (not_not.mpr hend), hpath]
    rfl
  · have hend : L.pathStart ≠ L.text.length := by simp [L.length_text, hpath]
    rw [if_pos hend]
    refine checked_some (slice_of_append (u := L.head ++ (L.host ++ L.portText)) (w := [])
      ?_ ?_ ?_)
    · simp [text]
    · rw [L.pathStart_eq, ← List.length_append]
    · rw [L.length_text, L.pathStart_eq, ← List.length_append]

/-- Behind the host there is the end, a path or a port. -/
theorem Layout.hasPort_text (L : Layout) : hasPort L.text L.hostEnd = .ok L.port.isSome := by
  have hlength : L.text.length = L.hostEnd + L.portText.length + L.path.length := L.length_text
  unfold hasPort
  cases hport : L.port with
  | none =>
      have hportText := portText_of_none hport
      rcases L.path_rooted with hpath | ⟨rest, hpath⟩
      · rw [if_neg (by simp [hlength, hportText, hpath])]
        rfl
      · have hchar : L.text[L.hostEnd]? = some slash := by
          refine getElem?_of_append (w := rest) ?_ L.hostEnd_eq
          simp [text, hportText, hpath]
        rw [if_pos (by simp [hlength, hportText, hpath]), Except.bind_ok (checked_some hchar)]
        rfl
  | some port =>
      have hportText := portText_of_some hport
      have hchar : L.text[L.hostEnd]? = some colon := by
        refine getElem?_of_append (w := port ++ L.path) ?_ L.hostEnd_eq
        simp [text, hportText]
      rw [if_pos (by simp [hlength, hportText]; omega), Except.bind_ok (checked_some hchar)]
      rfl

theorem Layout.parsePort_text (L : Layout) :
    parsePort L.text L.hostEnd L.pathStart = .ok (L.port.getD []) := by
  rw [parsePort, Except.bind_ok L.hasPort_text]
  cases hport : L.port with
  | none => rfl
  | some port =>
      have hportText := portText_of_some hport
      have hstart : L.pathStart = L.hostEnd + 1 + port.length := by
        rw [pathStart, hportText, List.length_cons, Nat.add_assoc, Nat.add_comm 1]
      have hadvance : advance L.text L.hostEnd 1 = some (L.hostEnd + 1) :=
        advance_of_le (by rw [L.length_text, hstart, Nat.add_assoc]; exact Nat.le_add_right _ _)
      have hcolon : L.hostEnd + 1 = (L.head ++ (L.host ++ [colon])).length := by
        simp [hostEnd, Nat.add_assoc]
      have hslice : slice L.text (L.hostEnd + 1) L.pathStart = some port := by
        refine slice_of_append (w := L.path) ?_ hcolon ?_
        · simp [text, hportText]
        · rw [hstart, hcolon]
      rw [Option.isSome_some, if_pos rfl, Except.bind_ok (checked_some hadvance)]
      exact checked_some hslice

theorem Layout.find_path (L : Layout) :
    find L.text L.head.length L.text.length slash = some L.pathStart := by
  have hauthority : slash ∉ L.host ++ L.portText := by
    simp [L.host_plain.2, L.slash_notMem_portText]
  rw [L.length_text, L.pathStart_eq]
  rcases L.path_rooted with hpath | ⟨rest, hpath⟩
  · rw [hpath]
    refine find_of_notMem (w := []) ?_ rfl ?_ hauthority
    · simp [text, hpath]
    · rw [List.length_nil, Nat.add_zero]
  · refine find_of_cons (w := rest) ?_ rfl (Nat.le_add_right _ _) hauthority
    simp [text, hpath]

theorem Layout.find_host (L : Layout) :
    find L.text L.head.length L.pathStart colon = some L.hostEnd := by
  cases hport : L.port with
  | none =>
      have hstart : L.pathStart = L.hostEnd := by simp [pathStart, portText_of_none hport]
      rw [hstart]
      exact find_of_notMem rfl rfl rfl L.host_plain.1
  | some port =>
      refine find_of_cons (w := port ++ L.path) ?_ rfl (Nat.le_add_right _ _) L.host_plain.1
      simp [text, portText_of_some hport]

theorem Layout.parseRest_text (L : Layout) :
    parseRest L.text L.scheme.text L.scheme.text.length = .ok L.url := by
  have hadvance : advance L.text L.scheme.text.length 3 = some L.head.length := by
    rw [L.length_head]
    refine advance_of_le ?_
    rw [L.length_text, pathStart, hostEnd, L.length_head]
    omega
  have hlimit : (if L.pathStart ≠ L.text.length then L.pathStart else L.text.length)
      = L.pathStart := by
    split
    · rfl
    · omega
  have hhost : slice L.text L.head.length L.hostEnd = some L.host := slice_of_append rfl rfl rfl
  rw [parseRest, Except.bind_ok (checked_some hadvance)]
  dsimp only
  rw [Except.bind_ok (checked_some L.find_path), hlimit, Except.bind_ok (checked_some L.find_host),
    Except.bind_ok (checked_some hhost), Except.bind_ok L.parsePort_text,
    Except.bind_ok L.parsePath_text]
  rfl

/-- **`Url::Parse`** returns the parts of a well-formed text. -/
theorem Layout.Parse_text (L : Layout) : Parse L.text = .ok L.url := by
  have htext : L.text = L.scheme.text ++ colon :: (L.skipped ++ (L.host ++ (L.portText ++ L.path)))
      := by simp [Layout.text, Layout.head]
  rw [htext, Parse_of_colon L.scheme.colon_notMem, if_neg L.scheme.allowed, ← htext,
    L.parseRest_text]

example : Parse (utf8 "http://localhost:50120") = .ok
    { url := utf8 "http://localhost:50120", path := [], protocol := utf8 "http",
      host := utf8 "localhost", port := utf8 "50120" } := by decide

/-! ### Every text -/

/-- Two characters behind the colon are enough. -/
theorem exists_layout (scheme : Scheme) {tail : Bytes} (htail : 2 ≤ tail.length) :
    ∃ L : Layout, L.text = scheme.text ++ colon :: tail := by
  obtain ⟨skipped, rest, rfl, hskipped⟩ : ∃ skipped rest, tail = skipped ++ rest ∧
      skipped.length = 2 := ⟨tail.take 2, tail.drop 2, by simp, by simp [htail]⟩
  obtain ⟨authority, path, rfl, hslash, hpath⟩ := exists_split slash rest
  obtain ⟨host, portText, rfl, hcolon, hport⟩ := exists_split colon authority
  rw [List.mem_append, not_or] at hslash
  rcases hport with rfl | ⟨port, rfl⟩
  · refine ⟨⟨scheme, skipped, hskipped, host, ⟨hcolon, hslash.1⟩, none, by simp, path, hpath⟩, ?_⟩
    simp [Layout.text, Layout.head, Layout.portText]
  · have hplain : slash ∉ port := fun h => hslash.2 (List.mem_cons_of_mem _ h)
    refine ⟨⟨scheme, skipped, hskipped, host, ⟨hcolon, hslash.1⟩, some port, by simpa using hplain,
      path, hpath⟩, ?_⟩
    simp [Layout.text, Layout.head, Layout.portText]

/-- What the parser does with every text. -/
inductive Shape : Bytes → Except Stop Url → Prop
  | empty : Shape [] (.error emptyError)
  | noColon {url : Bytes} : url ≠ [] → colon ∉ url → Shape url (.error (formatError url))
  | protocol {protocol tail : Bytes} : colon ∉ protocol →
      (protocol ≠ utf8 "http" ∧ protocol ≠ utf8 "https") →
      Shape (protocol ++ colon :: tail) (.error (protocolError protocol))
  | short (scheme : Scheme) {tail : Bytes} : tail.length < 2 →
      Shape (scheme.text ++ colon :: tail) (.error .pastEnd)
  | parts (L : Layout) : Shape L.text (.ok L.url)

theorem Parse_of_notMem {url : Bytes} (hne : url ≠ []) (hcolon : colon ∉ url) :
    Parse url = .error (formatError url) := by
  have hfind : find url 0 url.length colon = some url.length :=
    find_of_notMem (u := []) (w := []) (by simp) rfl (by simp) hcolon
  have hempty : url.length ≠ 0 := by simpa using hne
  rw [Parse, if_neg hempty, Except.bind_ok (checked_some hfind), if_pos rfl]
  rfl

/-- The three characters behind the protocol are not there. -/
theorem Parse_short (scheme : Scheme) {tail : Bytes} (htail : tail.length < 2) :
    Parse (scheme.text ++ colon :: tail) = .error .pastEnd := by
  have hadvance : advance (scheme.text ++ colon :: tail) scheme.text.length 3 = none := by
    refine advance_of_lt ?_
    simp
    omega
  rw [Parse_of_colon scheme.colon_notMem, if_neg scheme.allowed, parseRest, hadvance]
  rfl

theorem Parse_shape (url : Bytes) : Shape url (Parse url) := by
  by_cases hcolon : colon ∈ url
  · obtain ⟨protocol, tail, rfl, hprotocol⟩ := List.eq_append_cons_of_mem hcolon
    by_cases hscheme : protocol ≠ utf8 "http" ∧ protocol ≠ utf8 "https"
    · rw [Parse_of_colon hprotocol, if_pos hscheme]
      exact .protocol hprotocol hscheme
    · obtain ⟨scheme, rfl⟩ : ∃ scheme : Scheme, scheme.text = protocol := by
        rcases not_and_or.mp hscheme with h | h
        · exact ⟨.http, (not_not.mp h).symm⟩
        · exact ⟨.https, (not_not.mp h).symm⟩
      rcases Nat.lt_or_ge tail.length 2 with htail | htail
      · rw [Parse_short scheme htail]
        exact .short scheme htail
      · obtain ⟨L, hL⟩ := exists_layout scheme htail
        rw [← hL, L.Parse_text]
        exact .parts L
  · by_cases hne : url = []
    · subst hne
      exact .empty
    · rw [Parse_of_notMem hne hcolon]
      exact .noColon hne hcolon

/-- The texts that are accepted are the well-formed ones. -/
theorem Parse_eq_ok_iff {url : Bytes} {u : Url} :
    Parse url = .ok u ↔ ∃ L : Layout, L.text = url ∧ L.url = u := by
  constructor
  · intro h
    have hshape := Parse_shape url
    rw [h] at hshape
    cases hshape with
    | parts L => exact ⟨L, rfl, rfl⟩
  · rintro ⟨L, rfl, rfl⟩
    exact L.Parse_text

/-- With a port, the address to connect to is what stands between protocol and path. -/
theorem Layout.text_eq_getAddress (L : Layout) (h : L.port.isSome) :
    L.text = L.head ++ (L.url.getAddress ++ L.path) := by
  obtain ⟨port, hport⟩ := Option.isSome_iff_exists.mp h
  simp [text, portText, hport, getAddress, url]

/-! ### Addresses -/

/-- `scheme://host[:port][path]`. -/
structure Address where
  scheme : Scheme
  host : Bytes
  host_plain : colon ∉ host ∧ slash ∉ host
  port : Option Bytes
  port_decimal : ∀ p ∈ port, ∀ c ∈ p, '0'.toUInt8 ≤ c ∧ c ≤ '9'.toUInt8
  path : Option Bytes
  path_rooted : ∀ p ∈ path, p.head? = some slash

namespace Address

variable (a : Address)

def text : Bytes :=
  a.scheme.text ++ utf8 "://" ++ a.host ++ a.port.elim [] (colon :: ·) ++ a.path.getD []

/-- What is to be returned: exactly these parts. -/
def parts : Url where
  url := a.text
  path := a.path.getD []
  protocol := a.scheme.text
  host := a.host
  port := a.port.getD []

def layout : Layout where
  scheme := a.scheme
  skipped := utf8 "//"
  skipped_length := by decide
  host := a.host
  host_plain := a.host_plain
  port := a.port
  port_plain := by
    intro p hp hslash
    have hdecimal := a.port_decimal p hp slash hslash
    revert hdecimal
    decide
  path := a.path.getD []
  path_rooted := by
    cases hpath : a.path with
    | none => exact .inl rfl
    | some p => exact .inr ⟨p.tail, List.eq_cons_of_mem_head? (a.path_rooted p hpath)⟩

theorem layout_text : a.layout.text = a.text := by
  have hseparator : utf8 "://" = colon :: utf8 "//" := by decide
  simp [layout, Layout.text, Layout.head, Layout.portText, text, hseparator]

theorem Parse_text : Parse a.text = .ok a.parts := by
  have hurl : a.layout.url = a.parts := by
    rw [Layout.url, a.layout_text]
    rfl
  rw [← a.layout_text, a.layout.Parse_text, hurl]

end Address

/-- What is asked of the parser on one text. -/
structure Conforms (url : Bytes) : Prop where
  safe : Parse url ≠ .error .pastEnd
  faithful : ∀ a : Address, a.text = url → Parse url = .ok a.parts

/-- A protocol with a colon and at most one more character. -/
def CutShort (url : Bytes) : Prop :=
  ∃ (scheme : Scheme) (tail : Bytes), tail.length < 2 ∧ url = scheme.text ++ colon :: tail

/-- **`Url::Parse`** stays within the text, and returns the parts of an address, exactly when
the text does not end behind the colon of the protocol or one character later. -/
theorem Parse_conforms_iff (url : Bytes) : Conforms url ↔ ¬CutShort url := by
  constructor
  · rintro h ⟨scheme, tail, htail, rfl⟩
    exact h.safe (Parse_short scheme htail)
  · intro h
    refine ⟨fun hpast => ?_, ?_⟩
    · have hshape := Parse_shape url
      rw [hpast] at hshape
      cases hshape with
      | short scheme htail => exact h ⟨scheme, _, htail, rfl⟩
    · rintro a rfl
      exact a.Parse_text

/-- The iterator is moved two characters past the end. -/
theorem Parse_passes_end : utf8 "http:" ≠ [] ∧ Parse (utf8 "http:") = .error .pastEnd
    ∧ ¬Conforms (utf8 "http:") := by
  have hpast : Parse (utf8 "http:") = .error .pastEnd := by decide
  exact ⟨by decide, hpast, fun h => h.safe hpast⟩

end Url

end QuickMpc.ConfigParse
