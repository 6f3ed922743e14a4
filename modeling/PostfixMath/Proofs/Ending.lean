-- Tokens without the end of their text. A reading that meets no end puts one just past the last
-- token. A token lies on one line, so this is where a scan finds the end of the text once the
-- white space after the last token is gone. Such a reading differs from one that meets the end of
-- the text in nothing but the place of a fault that shows at the end.
import Mathlib.Data.List.DropRight
import PostfixMath.Proofs.Spacing

namespace PostfixMath

namespace Text

/-! ## White space at the end -/

/-- A text without the white space at its end. -/
def trimEnd (text : String) : String := String.ofList (text.toList.rdropWhile Lexeme.isSpace)

/-- Whether the last character of a run is white space. -/
def EndsInSpace (cs : List Char) : Prop := ∃ c ∈ cs.getLast?, c ∈ [' ', '\t', '\r', '\n']

theorem not_endsInSpace_trimEnd (text : String) : ¬ EndsInSpace (trimEnd text).toList := by
  rintro ⟨c, hlast, hc⟩
  rw [trimEnd, String.toList_ofList] at hlast
  obtain ⟨hne, rfl⟩ := List.mem_getLast?_eq_getLast hlast
  exact List.rdropWhile_last_not _ _ hne ((Lexeme.isSpace_iff _).2 hc)

theorem trimEnd_of_spaces {text : String} (h : ∀ c ∈ text.toList, c ∈ [' ', '\t', '\r', '\n']) :
    trimEnd text = "" := by
  have hnil : text.toList.rdropWhile Lexeme.isSpace = [] := by
    rw [List.rdropWhile_eq_nil_iff]
    exact fun c hc => (Lexeme.isSpace_iff c).2 (h c hc)
  rw [trimEnd, hnil, String.ofList_nil]

theorem exists_trimEnd_append (text : String) :
    ∃ gap, text = trimEnd text ++ gap ∧ (gap = "" ∨ IsSpacing gap) := by
  refine ⟨String.ofList (text.toList.rtakeWhile Lexeme.isSpace), ?_, ?_⟩
  · rw [trimEnd, ← String.ofList_append, List.rdropWhile_append_rtakeWhile, String.ofList_toList]
  · by_cases hnil : text.toList.rtakeWhile Lexeme.isSpace = []
    · rw [hnil]
      exact Or.inl String.ofList_nil
    · refine Or.inr ⟨by rwa [String.toList_ofList], fun c hc => ?_⟩
      rw [String.toList_ofList] at hc
      exact (Lexeme.isSpace_iff c).1 (List.mem_rtakeWhile_imp hc)

theorem EndsInSpace.append {cs : List Char} (h : EndsInSpace cs) (front : List Char) :
    EndsInSpace (front ++ cs) := by
  obtain ⟨c, hlast, hc⟩ := h
  exact ⟨c, by rw [List.getLast?_append, Option.mem_def.1 hlast]; rfl, hc⟩

end Text

open Text

/-! ## Further along a line -/

theorem Cursor.advance_of_no_lineFeed {cs : List Char} (h : '\n' ∉ cs) (cur : Cursor) :
    cur.advance cs = ⟨cur.line, cur.column + units cs, cur.offset + units cs⟩ := by
  induction cs generalizing cur with
  | nil => rfl
  | cons c cs ih =>
    rw [List.mem_cons, not_or] at h
    rw [advance_cons, ih h.2, step, if_neg (Ne.symm h.1), units_cons]
    simp only [Cursor.mk.injEq, true_and]
    omega

namespace Token

/-! ## The end that is put after tokens -/

theorem Kind.SpelledBy.lineFeed_notMem {kind : Kind} {cs : List Char} (h : kind.SpelledBy cs) :
    '\n' ∉ cs := by
  intro hc
  cases kind with
  | number =>
    obtain ⟨n, rfl⟩ := h
    have := Numeral.mem_chars hc
    simp at this
  | operator op =>
    rw [h] at hc
    cases op <;> simp [Operator.char] at hc
  | eof => exact h
  | other name => exact h

theorem eofAfter_singleton {kind : Kind} {text : List Char} (h : kind.SpelledBy text)
    (cur : Cursor) : eofAfter [ofCursor kind text cur] = eof (cur.advance text) := by
  rw [Cursor.advance_of_no_lineFeed h.lineFeed_notMem]
  simpa [ofCursor, eof, Cursor.position] using
    eofAfter_concat [] kind (String.ofList text) (.ofNat cur.line) cur.column cur.offset

theorem eofAfter_cons {words : List Token} (h : words ≠ []) (t : Token) :
    eofAfter (t :: words) = eofAfter words := by
  rw [eofAfter, eofAfter, List.getLast?_cons_of_ne_nil h]

/-- Whether the words of a run of characters end where the run ends. An empty run has none. -/
def EndWith (words : List Token) (cur : Cursor) (cs : List Char) : Prop :=
  if cs = [] then words = [] else words ≠ [] ∧ eofAfter words = eof (cur.advance cs)

theorem EndWith.cons {kind : Kind} {text rest : List Char} {cur : Cursor} {words : List Token}
    (hkind : kind.SpelledBy text) (hne : text ≠ [])
    (h : EndWith words (cur.advance text) rest) :
    EndWith (ofCursor kind text cur :: words) cur (text ++ rest) := by
  unfold EndWith at h ⊢
  rw [if_neg (by simp [hne]), Cursor.advance_append]
  refine ⟨by simp, ?_⟩
  split at h
  · next hrest =>
    subst hrest h
    exact eofAfter_singleton hkind cur
  · rw [eofAfter_cons h.1, h.2]

/-- The words of a text that does not end in white space end where the text ends. -/
theorem endWith_of_scanFrom {last cur : Cursor} {cs : List Char} {words : List Token}
    (h : scanFrom last cur cs = .ok (words ++ [eof last])) (hend : ¬ EndsInSpace cs) :
    EndWith words cur cs := by
  induction cs using Lexeme.text_induction generalizing cur words with
  | nil =>
    rw [scanFrom_nil, Except.ok.injEq, ← List.nil_append [eof last]] at h
    exact (List.append_cancel_right h).symm
  | space c cs hspace ih =>
    rw [scanFrom_space hspace] at h
    have hcs : cs ≠ [] := by
      rintro rfl
      exact hend ⟨c, rfl, (Lexeme.isSpace_iff c).1 hspace⟩
    have hwords := ih h fun hc => hend (hc.append [c])
    unfold EndWith at hwords ⊢
    rwa [if_neg hcs] at hwords
  | number n rest hdigit hpoint ih =>
    rw [scanFrom_number n hdigit hpoint] at h
    obtain ⟨ts, hrest, hts⟩ := before_eq_ok h
    obtain ⟨tail, rfl, -⟩ := standsIn_of_scanFrom hrest
    rw [← List.cons_append] at hts
    rw [List.append_cancel_right hts]
    exact (ih hrest fun hc => hend (hc.append _)).cons ⟨n, rfl⟩ n.chars_ne_nil
  | operator op rest hminus ih =>
    rw [scanFrom_operator op hminus] at h
    obtain ⟨ts, hrest, hts⟩ := before_eq_ok h
    obtain ⟨tail, rfl, -⟩ := standsIn_of_scanFrom hrest
    rw [← List.cons_append] at hts
    rw [List.append_cancel_right hts]
    have hkind : (Kind.operator op).SpelledBy [op.char] := rfl
    exact (ih hrest fun hc => hend (hc.append [op.char])).cons hkind (List.cons_ne_nil _ _)
  | stray c cs hstray =>
    rw [scanFrom_stray hstray] at h
    cases h

/-- The end after the words of such a text is the end that a scan finds. -/
theorem eofAfter_of_scan {text : String} {words : List Token} {last : Cursor}
    (h : scan text = .ok (words ++ [eof last])) (hend : ¬ EndsInSpace text.toList) :
    eofAfter words = eof last := by
  rw [scan_eq] at h
  obtain ⟨words', hts, -⟩ := standsIn_of_scanFrom h
  obtain ⟨rfl, hlast⟩ := List.append_inj' hts rfl
  rw [List.singleton_inj] at hlast
  rw [hlast] at h ⊢
  have hwords := endWith_of_scanFrom h hend
  unfold EndWith at hwords
  split at hwords
  · next hnil =>
    rw [hnil, hwords]
    rfl
  · exact hwords.2

/-- The white space at the end of a text holds no word. -/
theorem scan_trimEnd {text : String} {words : List Token} {last : Token}
    (h : scan text = .ok (words ++ [last])) :
    ∃ stop, scan (trimEnd text) = .ok (words ++ [eof stop]) := by
  obtain ⟨gap, htext, hgap⟩ := exists_trimEnd_append text
  have hshort : ∃ ts, scan (trimEnd text) = .ok ts ∧ ts.dropLast = words := by
    rcases hgap with rfl | hgap
    · rw [String.append_empty] at htext
      exact ⟨_, htext ▸ h, List.dropLast_concat⟩
    · obtain ⟨next, hgo, hmoved⟩ := scan_append_spacing (trimEnd text) "" hgap
      rw [String.append_empty, ← htext, h] at hgo
      cases hscan : scan (trimEnd text) with
      | error e =>
        rw [hscan] at hgo
        cases hgo
      | ok ts =>
        rw [scan_eq, String.toList_empty, scanFrom_nil] at hmoved
        cases hmoved with
        | tokens hend =>
          obtain ⟨last', _, -, hnil, rfl⟩ := List.forall₂_cons_left_iff.1 hend
          rw [List.forall₂_nil_left_iff.1 hnil, hscan, goOn, foldr_before_ok] at hgo
          exact ⟨ts, rfl, (List.append_inj' (Except.ok.inj hgo) rfl).1.symm⟩
  obtain ⟨ts, hscan, rfl⟩ := hshort
  obtain ⟨words, rfl, -⟩ := standsIn_of_scanFrom (scan_eq _ ▸ hscan)
  rw [List.dropLast_concat]
  exact ⟨_, hscan⟩

end Token

namespace Expr

/-! ## Readings with and without an end -/

/-- Whether two readings differ in nothing but the end at which a fault shows: they give the same
tree, or the same fault at a token of the text, or the same fault at two ends. -/
inductive SameButEnd (last last' : Token) :
    Except ReadError Expr → Except ReadError Expr → Prop where
  | tree (e : Expr) : SameButEnd last last' (.ok e) (.ok e)
  | inside {e : ReadError} : e.token.kind ≠ .eof → SameButEnd last last' (.error e) (.error e)
  | atEnd (cause : ReadError.Cause) :
      SameButEnd last last' (.error ⟨cause, last⟩) (.error ⟨cause, last'⟩)

theorem sameButEnd_finish (stack : List Expr) (last last' : Token) :
    SameButEnd last last' (finish stack last) (finish stack last') := by
  match stack with
  | [] => exact .atEnd .empty
  | [e] => exact .tree e
  | a :: b :: below => exact .atEnd (.leftOver (below.length + 2))

/-- A reading without an end goes over the same words, and ends just past them. -/
theorem ofTokens_without_end {words : List Token} (h : ∀ t ∈ words, t.kind ≠ .eof) :
    ofTokens words = (pushAll [] words).bind fun stack => finish stack (Token.eofAfter words) := by
  have hbefore : Token.beforeEof words = words := by
    rw [Token.beforeEof, List.takeWhile_eq_self_iff]
    simpa using h
  have hfind : (words.find? fun t => t.kind = .eof) = none := by
    simpa using h
  rw [ofTokens_eq, hbefore, Token.firstEof, hfind]
  rfl

/-- A fault before the end is at an operator. -/
theorem pushAll_error_kind {ts : List Token} {e : ReadError} (h : pushAll [] ts = .error e) :
    e.token.kind ≠ .eof := by
  by_cases hfed : Token.Fed 0 ts
  · obtain ⟨stack, hall, -⟩ := pushAll_of_fed [] hfed
    rw [h] at hall
    cases hall
  · obtain ⟨before, t, after, op, -, -, hkind, -, herror⟩ := pushAll_of_not_fed [] hfed
    rw [h] at herror
    cases herror
    simp [hkind]

theorem sameButEnd_of_words {words : List Token} (h : ∀ t ∈ words, t.kind ≠ .eof) (last : Cursor) :
    SameButEnd (Token.eof last) (Token.eofAfter words) (ofTokens (words ++ [Token.eof last]))
      (ofTokens words) := by
  rw [ofTokens_words h, ofTokens_without_end h]
  cases hall : pushAll [] words with
  | error e => exact .inside (pushAll_error_kind hall)
  | ok stack => exact sameButEnd_finish stack _ _

/-- The tokens of a text are read alike with and without the end of the text. Without it, a fault
that shows at the end is at the end of the text as it is without the white space at its end: at the
same place if there is none, and at the first place if there is nothing else. -/
theorem missing_end_is_recovered {text : String} {ts : List Token}
    (h : Token.scan text = .ok ts) :
    ∃ words last last', ts = words ++ [last] ∧ last.kind = .eof ∧
      Token.scan (trimEnd text) = .ok (words ++ [last']) ∧ last'.kind = .eof ∧
      SameButEnd last last' (ofTokens ts) (ofTokens words) ∧
      (¬ EndsInSpace text.toList → ofTokens words = ofTokens ts) ∧
      ((∀ c ∈ text.toList, c ∈ [' ', '\t', '\r', '\n']) →
        last' = ⟨.eof, "", ⟨.ofNat 1, .ofNat 1⟩, .ofNat 0⟩) := by
  obtain ⟨words, rfl, hwords⟩ := Token.standsIn_of_scanFrom (Token.scan_eq text ▸ h)
  have hkinds : ∀ t ∈ words, t.kind ≠ .eof := fun t ht => (hwords t ht).kind_ne_eof
  obtain ⟨stop, hshort⟩ := Token.scan_trimEnd h
  have hend := Token.eofAfter_of_scan hshort (not_endsInSpace_trimEnd text)
  refine ⟨words, _, _, rfl, rfl, hshort, rfl, ?_, ?_, ?_⟩
  · rw [← hend]
    exact sameButEnd_of_words hkinds _
  · intro hspace
    rw [ofTokens_without_end hkinds, ofTokens_words hkinds, Token.eofAfter_of_scan h hspace]
  · intro hspaces
    rw [trimEnd_of_spaces hspaces, Token.scan_eq, String.toList_empty, Token.scanFrom_nil,
      ← List.nil_append [Token.eof _]] at hshort
    obtain ⟨-, hlast⟩ := List.append_inj' (Except.ok.inj hshort) rfl
    rw [← List.singleton_inj.1 hlast]
    rfl

/-- Two numbers without an operator, and white space with a line feed after them: the end of the
text is on the second line, and the end after the tokens is on the first one. -/
theorem missing_end_is_recovered_line_feed :
    ∃ ts words last last', Token.scan "1 2 \n" = .ok ts ∧ ts = words ++ [last] ∧
      last.pos = ⟨.ofNat 2, .ofNat 1⟩ ∧ last'.pos = ⟨.ofNat 1, .ofNat 4⟩ ∧
      SameButEnd last last' (ofTokens ts) (ofTokens words) := by
  have h : Token.scan "1 2 \n" = .ok [
      ⟨.number, "1", ⟨.ofNat 1, .ofNat 1⟩, .ofNat 0⟩,
      ⟨.number, "2", ⟨.ofNat 1, .ofNat 3⟩, .ofNat 2⟩,
      ⟨.eof, "", ⟨.ofNat 2, .ofNat 1⟩, .ofNat 5⟩] := by decide +kernel
  have hshort : Token.scan (trimEnd "1 2 \n") = .ok [
      ⟨.number, "1", ⟨.ofNat 1, .ofNat 1⟩, .ofNat 0⟩,
      ⟨.number, "2", ⟨.ofNat 1, .ofNat 3⟩, .ofNat 2⟩,
      ⟨.eof, "", ⟨.ofNat 1, .ofNat 4⟩, .ofNat 3⟩] := by decide +kernel
  obtain ⟨words, last, last', hts, -, hshort', -, halike, -, -⟩ := missing_end_is_recovered h
  have hlast := congrArg List.getLast? hts
  have hlast' := congrArg List.getLast? (Except.ok.inj (hshort.symm.trans hshort'))
  rw [List.getLast?_concat] at hlast hlast'
  exact ⟨_, words, last, last', h, hts, congrArg Token.pos (Option.some.inj hlast).symm,
    congrArg Token.pos (Option.some.inj hlast').symm, halike⟩

end Expr

end PostfixMath
