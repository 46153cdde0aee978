import Mathlib.Data.List.Count
import Mathlib.Data.List.Chain

/-!
# QuickMpc.Lib.QuotedLiteral

String literals between quotes, as a query language reads them.

`decode` reads a literal from the text after its opening quote. Two characters can
stand for one: a doubled quote and a backslash before a quote denote the quote, a
doubled backslash denotes a backslash.

`quote` writes a text with some of its characters doubled, and `decode_quote_iff` says
exactly when reading gives the text back: the doubled characters of the text are the
delimiter and nothing else, and no backslash of it stands before a backslash or a quote.
The proof is by counts: each pair that is read as one character loses one.

`toList_replace_singleton` is what `String.replace` does for a pattern of one character.
-/

namespace QuickMpc.QuotedLiteral

/-! ### Replacing a character -/

section Replace

open String Slice Pattern Model

/-- What is left to do of a replacement, from a position on. -/
theorem toList_foldl_searchSteps (c : Char) (replacement : String) {s : Slice} {pos : s.Pos}
    {steps : List (SearchStep s)} (hsteps : IsValidSearchFrom (String.singleton c) pos steps) :
    ∀ {before after : String} (sofar : String), pos.Splits before after →
      (steps.foldl (fun
        | sofar, .matched .. => sofar ++ ToSlice.toSlice replacement
        | sofar, .rejected start stop => sofar ++ s.slice! start stop) sofar).toList
        = sofar.toList
          ++ after.toList.flatMap fun d => if d = c then replacement.toList else [d] := by
  induction hsteps with
  | endPos =>
      intro before after sofar hsplit
      obtain ⟨-, rfl⟩ := Slice.splits_endPos_iff.mp hsplit
      simp
  | matched hmatch hrest ih =>
      intro before after sofar hsplit
      obtain ⟨_, _, hstart, hstop⟩ := ForwardStringSearcher.isLongestMatchAt_iff_splits.mp hmatch
      obtain rfl := hsplit.eq_right hstart
      rw [List.foldl_cons, ih _ hstop]
      simp [ToSlice.toSlice]
  | @mismatched _ start stop hlt hno hrest ih =>
      intro before after sofar hsplit
      have hstop := stop.splits
      obtain ⟨skipped, -, hleft, hright⟩ := (hsplit.lt_iff_exists_eq_append hstop).mp hlt
      have hskipped : c ∉ skipped.toList := by
        intro hc
        obtain ⟨a, b, hab⟩ := List.append_of_mem hc
        obtain rfl : skipped = String.ofList a ++ (String.singleton c ++ String.ofList b) := by
          rw [← String.toList_inj, hab]
          simp
        -- the character would be a match inside of what is skipped
        have hcopy : s.copy = (before ++ String.ofList a)
            ++ (String.singleton c ++ (String.ofList b ++ (s.sliceFrom stop).copy)) := by
          rw [hsplit.eq_append, hright]
          simp [String.append_assoc]
        have hpos := Slice.Pos.splits_ofEqAppend hcopy
        have hstart : start ≤ Slice.Pos.ofEqAppend hcopy :=
          (hsplit.le_iff_exists_eq_append hpos).mpr
            ⟨_, rfl, by rw [hright]; simp [String.append_assoc]⟩
        have hend : Slice.Pos.ofEqAppend hcopy < stop :=
          (hpos.lt_iff_exists_eq_append hstop).mpr ⟨String.singleton c ++ String.ofList b,
            by simp, by rw [hleft]; simp [String.append_assoc], by simp [String.append_assoc]⟩
        exact hno _ hstart hend (ForwardStringSearcher.matchesAt_iff_splits.mpr ⟨_, _, hpos⟩)
      obtain ⟨hle, hslice⟩ := Slice.copy_slice_eq_iff_splits.mpr
        ⟨before, _, hright ▸ hsplit, hleft ▸ hstop⟩
      have hkeep : (skipped.toList.flatMap fun d => if d = c then replacement.toList else [d])
          = skipped.toList := by
        rw [List.flatMap_congr fun d hd => if_neg (ne_of_mem_of_not_mem hd hskipped)]
        simp
      rw [List.foldl_cons, ih _ hstop, hright]
      simp only [← Slice.slice_eq_slice! (h := hle)]
      simp [hslice, hkeep]

/-- `String.replace` with a pattern of one character. -/
theorem toList_replace_singleton (c : Char) (replacement text : String) :
    (text.replace (String.singleton c) replacement).toList
      = text.toList.flatMap fun d => if d = c then replacement.toList else [d] := by
  have hsteps := (@ForwardStringSearcher.lawfulToForwardSearcherModel (String.singleton c)
    (by simp)).isValidSearchFrom_toList text.toSlice
  have h := toList_foldl_searchSteps c replacement hsteps "" (Slice.splits_startPos _)
  rw [Std.Iter.foldl_toList, String.toList_empty, List.nil_append, String.copy_toSlice] at h
  exact h

end Replace

/-! ### Reading -/

/-- What the literal denotes that starts here, inside of quotes `q`, and the text after
its closing quote. -/
def decode (q : Char) : List Char → Option (List Char × List Char)
  | [] => none
  | [c] => if c = q then some ([], []) else none
  | c :: d :: text =>
    if (c = q ∧ d = q) ∨ (c = '\\' ∧ (d = q ∨ d = '\\')) then
      (decode q text).map (Prod.map (d :: ·) id)
    else if c = q then some ([], d :: text)
    else (decode q (d :: text)).map (Prod.map (c :: ·) id)

variable {q : Char}

theorem map_cons_eq_some_iff {c : Char} {o : Option (List Char × List Char)}
    {a rest : List Char} : o.map (Prod.map (c :: ·) id) = some (a, rest) ↔
      ∃ a', a = c :: a' ∧ o = some (a', rest) := by
  cases o with
  | none => simp
  | some r =>
      obtain ⟨b, s⟩ := r
      simp only [Option.map_some, Prod.map_apply, id, Option.some.injEq, Prod.mk.injEq]
      constructor
      · intro h
        obtain ⟨rfl, rfl⟩ := h
        exact ⟨b, rfl, rfl, rfl⟩
      · intro h
        obtain ⟨a', rfl, rfl, rfl⟩ := h
        exact ⟨rfl, rfl⟩

theorem decode_pair {c d : Char} (text : List Char)
    (h : (c = q ∧ d = q) ∨ (c = '\\' ∧ (d = q ∨ d = '\\'))) :
    decode q (c :: d :: text) = (decode q text).map (Prod.map (d :: ·) id) := by
  rw [decode, if_pos h]

theorem decode_close (hq : q ≠ '\\') {d : Char} (text : List Char) (hd : d ≠ q) :
    decode q (q :: d :: text) = some ([], d :: text) := by
  have h : ¬((q = q ∧ d = q) ∨ (q = '\\' ∧ (d = q ∨ d = '\\'))) := by
    intro h'
    rcases h' with ⟨-, h⟩ | ⟨h, -⟩
    · exact hd h
    · exact hq h
  rw [decode, if_neg h, if_pos rfl]

theorem decode_char {c d : Char} (text : List Char) (hc : c ≠ q)
    (h : c = '\\' → d ≠ '\\' ∧ d ≠ q) :
    decode q (c :: d :: text) = (decode q (d :: text)).map (Prod.map (c :: ·) id) := by
  have hno : ¬((c = q ∧ d = q) ∨ (c = '\\' ∧ (d = q ∨ d = '\\'))) := by
    intro hx
    rcases hx with ⟨h', -⟩ | ⟨h', hd | hd⟩
    · exact hc h'
    · exact (h h').2 hd
    · exact (h h').1 hd
  rw [decode, if_neg hno, if_neg hc]

/-- Reading drops the closing quote and the first character of each pair, which is a quote
or a backslash. -/
theorem count_decode {text a rest : List Char} (c : Char) (h : decode q text = some (a, rest)) :
    ∃ lost, a.count c + rest.count c + (if c = q then 1 else 0) + lost = text.count c ∧
      (c ≠ q → c ≠ '\\' → lost = 0) := by
  induction text using decode.induct q generalizing a with
  | case1 => exact absurd h (by simp [decode])
  | case2 =>
      obtain ⟨rfl, rfl⟩ : a = [] ∧ rest = [] := by simpa [decode, eq_comm] using h
      exact ⟨0, by simp [List.count_cons, eq_comm (a := c)], fun _ _ => rfl⟩
  | case3 d hd => exact absurd h (by simp [decode, hd])
  | case4 e d text hpair ih =>
      rw [decode_pair text hpair] at h
      obtain ⟨a', rfl, h'⟩ := map_cons_eq_some_iff.mp h
      obtain ⟨lost, hlost, hnone⟩ := ih h'
      refine ⟨lost + if e = c then 1 else 0, ?_, ?_⟩
      · simp only [List.count_cons, beq_iff_eq]
        omega
      · intro hc hc'
        have hne : e ≠ c := by
          intro he
          subst he
          rcases hpair with ⟨h, -⟩ | ⟨h, -⟩
          · exact hc h
          · exact hc' h
        rw [hnone hc hc', if_neg hne]
  | case5 d text hpair =>
      rw [decode, if_neg hpair, if_pos rfl] at h
      obtain ⟨rfl, rfl⟩ : a = [] ∧ rest = d :: text := by simpa [eq_comm] using h
      refine ⟨0, ?_, fun _ _ => rfl⟩
      simp only [List.count_nil, List.count_cons, beq_iff_eq, eq_comm (a := c)]
      omega
  | case6 e d text hpair he ih =>
      rw [decode, if_neg hpair, if_neg he] at h
      obtain ⟨a', rfl, h'⟩ := map_cons_eq_some_iff.mp h
      obtain ⟨lost, hlost, hnone⟩ := ih h'
      refine ⟨lost, ?_, hnone⟩
      simp only [List.count_cons] at hlost ⊢
      omega

theorem count_decode_le {text a rest : List Char} (c : Char)
    (h : decode q text = some (a, rest)) :
    a.count c + rest.count c + (if c = q then 1 else 0) ≤ text.count c := by
  obtain ⟨lost, hlost, -⟩ := count_decode c h
  omega

theorem count_decode_eq {text a rest : List Char} {c : Char} (hc : c ≠ q) (hc' : c ≠ '\\')
    (h : decode q text = some (a, rest)) : a.count c + rest.count c = text.count c := by
  obtain ⟨lost, hlost, hnone⟩ := count_decode c h
  rw [if_neg hc, hnone hc hc'] at hlost
  exact hlost

/-! ### Writing -/

/-- A text with some characters doubled. -/
def quote (doubled : Char → Bool) (text : List Char) : List Char :=
  text.flatMap fun c => if doubled c then [c, c] else [c]

variable {doubled : Char → Bool}

theorem quote_cons (c : Char) (text : List Char) :
    quote doubled (c :: text) = (if doubled c then [c, c] else [c]) ++ quote doubled text := rfl

theorem count_quote (c : Char) (text : List Char) :
    (quote doubled text).count c = if doubled c then 2 * text.count c else text.count c := by
  induction text with
  | nil => simp [quote]
  | cons d text ih =>
      rw [quote_cons, List.count_append, ih, List.count_cons]
      by_cases hd : d = c
      · subst hd
        cases doubled d <;> simp <;> omega
      · cases doubled d <;> cases doubled c <;> simp [hd]

/-- A written text and its closing quote start like the text. -/
theorem exists_quote_eq_cons (doubled : Char → Bool) (q : Char) (text tail : List Char) :
    ∃ d r s, quote doubled text ++ q :: tail = d :: r ∧ text ++ [q] = d :: s := by
  cases text with
  | nil => exact ⟨q, tail, [], rfl, rfl⟩
  | cons d text =>
      rw [quote_cons]
      cases doubled d with
      | true => exact ⟨d, d :: (quote doubled text ++ q :: tail), text ++ [q], rfl, rfl⟩
      | false => exact ⟨d, quote doubled text ++ q :: tail, text ++ [q], rfl, rfl⟩

/-- No backslash of a text between quotes stands before a backslash or a quote. -/
def LoneBackslashes (q : Char) (text : List Char) : Prop :=
  (text ++ [q]).IsChain fun c d => c = '\\' → d ≠ '\\' ∧ d ≠ q

instance (q : Char) (text : List Char) : Decidable (LoneBackslashes q text) :=
  inferInstanceAs (Decidable (List.IsChain _ _))

theorem loneBackslashes_cons {c d : Char} {text s : List Char} (hs : text ++ [q] = d :: s) :
    LoneBackslashes q (c :: text) ↔ (c = '\\' → d ≠ '\\' ∧ d ≠ q) ∧ LoneBackslashes q text := by
  unfold LoneBackslashes
  rw [List.cons_append, hs, List.isChain_cons_cons]

/-- Without quotes, the condition is on the backslashes alone. -/
theorem loneBackslashes_iff (hq : q ≠ '\\') {text : List Char} (hno : ∀ c ∈ text, c ≠ q) :
    LoneBackslashes q text ↔
      text.IsChain (fun c d => c = '\\' → d ≠ '\\') ∧ text.getLast? ≠ some '\\' := by
  induction text with
  | nil => simp [LoneBackslashes]
  | cons c text ih =>
      have ih := ih fun d hd => hno d (List.mem_cons_of_mem c hd)
      cases text with
      | nil =>
          rw [loneBackslashes_cons rfl, ih]
          simp [hq]
      | cons d text =>
          have hd : d ≠ q := hno d (List.mem_cons_of_mem c List.mem_cons_self)
          rw [loneBackslashes_cons rfl, ih, List.isChain_cons_cons, List.getLast?_cons_cons]
          simp [hd, and_assoc]

/-! ### Reading back -/

section ReadBack

variable {text tail : List Char} (hq : q ≠ '\\')

include hq in
/-- The delimiter is read back if it is doubled. -/
theorem decode_quote_delimiter :
    decode q (quote doubled (q :: text) ++ q :: tail) = some (q :: text, tail) ↔
      doubled q ∧ decode q (quote doubled text ++ q :: tail) = some (text, tail) := by
  rw [quote_cons]
  cases hdoubled : doubled q with
  | true =>
      rw [if_pos rfl, List.append_assoc, List.cons_append, List.cons_append, List.nil_append,
        decode_pair _ (.inl ⟨rfl, rfl⟩), map_cons_eq_some_iff]
      simp
  | false =>
      obtain ⟨d, r, s, hr, -⟩ := exists_quote_eq_cons doubled q text tail
      have hcount : (d :: r).count q = text.count q + tail.count q + 1 := by
        rw [← hr, List.count_append, count_quote, hdoubled, List.count_cons_self]
        simp only [Bool.false_eq_true, if_false]
        omega
      rw [if_neg Bool.false_ne_true, List.append_assoc, List.cons_append, List.nil_append, hr]
      constructor
      · intro h
        by_cases hd : d = q
        · -- the quote and the next one are read as a pair
          subst hd
          rw [decode_pair _ (.inl ⟨rfl, rfl⟩), map_cons_eq_some_iff] at h
          obtain ⟨a', ha, h⟩ := h
          obtain rfl := (List.cons.inj ha).2
          have hle := count_decode_le d h
          rw [if_pos rfl] at hle
          rw [List.count_cons_self] at hcount
          omega
        · rw [decode_close hq r hd] at h
          exact absurd h (by simp)
      · intro h'
        obtain ⟨h, -⟩ := h'
        exact absurd h Bool.false_ne_true

include hq in
/-- A backslash is read back if it does not make a pair with what follows. -/
theorem decode_quote_backslash (hdoubled : doubled '\\' = false) {d : Char} {s : List Char}
    (hs : text ++ [q] = d :: s) :
    decode q (quote doubled ('\\' :: text) ++ q :: tail) = some ('\\' :: text, tail) ↔
      (d ≠ '\\' ∧ d ≠ q) ∧ decode q (quote doubled text ++ q :: tail) = some (text, tail) := by
  obtain ⟨e, r, s', hr, he⟩ := exists_quote_eq_cons doubled q text tail
  obtain rfl : d = e := (List.cons.inj (hs.symm.trans he)).1
  rw [quote_cons, hdoubled, if_neg Bool.false_ne_true, List.append_assoc, List.cons_append,
    List.nil_append, hr]
  by_cases hpair : d = q ∨ d = '\\'
  · rw [decode_pair r (.inr ⟨rfl, hpair⟩), map_cons_eq_some_iff]
    constructor
    · intro h'
      obtain ⟨a', ha, h⟩ := h'
      obtain ⟨hd, rfl⟩ := List.cons.inj ha
      -- one of the two backslashes is lost
      have hle := count_decode_le '\\' h
      have hcount : (d :: r).count '\\' = text.count '\\' + tail.count '\\' := by
        rw [← hr, List.count_append, count_quote, hdoubled, List.count_cons_of_ne hq]
        rfl
      rw [← hd, List.count_cons_self] at hcount
      omega
    · intro h'
      obtain ⟨⟨hd, hd'⟩, -⟩ := h'
      exact absurd hpair (not_or.mpr ⟨hd', hd⟩)
  · obtain ⟨hd, hd'⟩ := not_or.mp hpair
    rw [decode_char r hq.symm fun _ => ⟨hd', hd⟩, map_cons_eq_some_iff]
    simp [hd, hd']

/-- Any other character is read back if it is not doubled. -/
theorem decode_quote_other {c : Char} (hc : c ≠ q) (hc' : c ≠ '\\') :
    decode q (quote doubled (c :: text) ++ q :: tail) = some (c :: text, tail) ↔
      doubled c = false ∧ decode q (quote doubled text ++ q :: tail) = some (text, tail) := by
  obtain ⟨d, r, s, hr, -⟩ := exists_quote_eq_cons doubled q text tail
  have hchar : ∀ (d : Char) (r : List Char),
      decode q (c :: d :: r) = (decode q (d :: r)).map (Prod.map (c :: ·) id) :=
    fun d r => decode_char r hc fun h => absurd h hc'
  rw [quote_cons]
  cases hdoubled : doubled c with
  | true =>
      rw [if_pos rfl, List.append_assoc, List.cons_append, List.cons_append, List.nil_append,
        hchar, map_cons_eq_some_iff]
      constructor
      · intro h'
        obtain ⟨a', ha, h⟩ := h'
        obtain rfl := (List.cons.inj ha).2
        have heq := count_decode_eq hc hc' h
        rw [List.count_cons_self, List.count_append, count_quote, if_pos hdoubled,
          List.count_cons_of_ne hc.symm] at heq
        omega
      · intro h'
        obtain ⟨h, -⟩ := h'
        exact absurd h Bool.noConfusion
  | false =>
      rw [if_neg Bool.false_ne_true, List.append_assoc, List.cons_append, List.nil_append, hr,
        hchar, map_cons_eq_some_iff]
      simp

include hq in
/-- **When a written literal reads back.** -/
theorem decode_quote_iff (hdoubled : doubled '\\' = false)
    (htail : tail.head? ≠ some q) (text : List Char) :
    decode q (quote doubled text ++ q :: tail) = some (text, tail) ↔
      (∀ c ∈ text, doubled c = decide (c = q)) ∧ LoneBackslashes q text := by
  induction text with
  | nil =>
      have hclose : decode q (q :: tail) = some ([], tail) := by
        cases tail with
        | nil => simp [decode]
        | cons d tail => exact decode_close hq tail fun h => htail (by rw [h]; rfl)
      simp [quote, LoneBackslashes, hclose]
  | cons c text ih =>
      obtain ⟨d, -, s, -, hs⟩ := exists_quote_eq_cons doubled q text tail
      rw [List.forall_mem_cons, loneBackslashes_cons hs]
      by_cases hc : c = q
      · subst hc
        rw [decode_quote_delimiter hq, ih]
        simp [hq, and_assoc]
      · by_cases hc' : c = '\\'
        · subst hc'
          rw [decode_quote_backslash hq hdoubled hs, ih]
          simp [hdoubled, hq.symm]
          tauto
        · rw [decode_quote_other hc hc', ih]
          simp [hc, hc', and_assoc]

end ReadBack

end QuickMpc.QuotedLiteral
