-- Texts that are joined. A character that is neither a digit nor a point goes on with no token, so
-- a scan of a text that has one finds in the part before it what it finds there alone. A line feed
-- at the end of a text then moves the end of the text and changes nothing else.
import PostfixMath.Proofs.Balance
import PostfixMath.Proofs.Place

namespace PostfixMath

namespace Text

/-! ## Breaks -/

/-- Whether a character goes on with no token that starts before it. -/
def Breaks (c : Char) : Prop := ¬ c.isDigit ∧ c ≠ '.'

theorem fractionFirst_cons (c : Char) (cs : List Char) :
    FractionFirst (c :: cs) ↔ c = '.' ∧ DigitFirst cs := by
  constructor
  · rintro ⟨ds, heq, hds⟩
    obtain ⟨rfl, rfl⟩ := List.cons.inj heq
    exact ⟨rfl, hds⟩
  · rintro ⟨rfl, hcs⟩
    exact ⟨cs, rfl, hcs⟩

section

variable {c : Char} (hc : Breaks c)
include hc

theorem digitFirst_append_break (cs after : List Char) :
    DigitFirst (cs ++ c :: after) ↔ DigitFirst cs := by
  cases cs with
  | nil => simp [DigitFirst, hc.1]
  | cons d cs => simp [digitFirst_cons]

theorem fractionFirst_append_break (cs after : List Char) :
    FractionFirst (cs ++ c :: after) ↔ FractionFirst cs := by
  cases cs with
  | nil =>
    rw [List.nil_append, fractionFirst_cons]
    simp [FractionFirst, hc.2]
  | cons d cs =>
    rw [List.cons_append, fractionFirst_cons, fractionFirst_cons, digitFirst_append_break hc]

end

end Text

open Text

namespace Token

/-! ## A scan that goes on -/

/-- What a scan gives that goes on after the end of a text: the tokens that it has found so far,
but for that end, come before what it finds next. -/
def goOn (result next : Except ScanError (List Token)) : Except ScanError (List Token) :=
  match result with
  | .error e => .error e
  | .ok ts => ts.dropLast.foldr before next

theorem goOn_error (e : ScanError) (next : Except ScanError (List Token)) :
    goOn (.error e) next = .error e := rfl

theorem goOn_ok (words : List Token) (last : Token) (next : Except ScanError (List Token)) :
    goOn (.ok (words ++ [last])) next = words.foldr before next := by
  simp [goOn]

theorem foldr_before_ok (words ts : List Token) :
    words.foldr before (.ok ts) = .ok (words ++ ts) := by
  induction words with
  | nil => rfl
  | cons t words ih =>
    rw [List.foldr_cons, ih]
    rfl

theorem foldr_before_error (words : List Token) (e : ScanError) :
    words.foldr before (.error e) = .error e := by
  induction words with
  | nil => rfl
  | cons t words ih =>
    rw [List.foldr_cons, ih]
    rfl

theorem before_goOn (t : Token) (last cur : Cursor) (cs : List Char)
    (next : Except ScanError (List Token)) :
    goOn (t.before (scanFrom last cur cs)) next = t.before (goOn (scanFrom last cur cs) next) := by
  cases hscan : scanFrom last cur cs with
  | error e => rfl
  | ok ts =>
    obtain ⟨words, rfl, -⟩ := standsIn_of_scanFrom hscan
    have hcons : t.before (.ok (words ++ [eof last])) = .ok ((t :: words) ++ [eof last]) := rfl
    rw [hcons, goOn_ok, goOn_ok, List.foldr_cons]

/-- A scan of a text with a break in it scans the part before the break first, and then goes on
with the break. -/
theorem scanFrom_append_break {c : Char} (hc : Breaks c) (last stop cur : Cursor)
    (front after : List Char) :
    scanFrom last cur (front ++ c :: after) =
      goOn (scanFrom stop cur front) (scanFrom last (cur.advance front) (c :: after)) := by
  induction front using Lexeme.text_induction generalizing cur with
  | nil =>
    rw [scanFrom_nil]
    rfl
  | space d cs hspace ih =>
    rw [List.cons_append, scanFrom_space hspace, scanFrom_space hspace, ih, Cursor.advance_cons]
  | number n rest hdigit hpoint ih =>
    have hdigit' : ¬ DigitFirst (rest ++ c :: after) := by
      rwa [digitFirst_append_break hc]
    have hpoint' : n.fraction = [] → ¬ FractionFirst (rest ++ c :: after) := by
      rwa [fractionFirst_append_break hc]
    rw [List.append_assoc, scanFrom_number n hdigit' hpoint', scanFrom_number n hdigit hpoint,
      before_goOn, ih, Cursor.advance_append]
  | operator op rest hminus ih =>
    have hminus' : op = .minus → ¬ DigitFirst (rest ++ c :: after) := by
      rwa [digitFirst_append_break hc]
    rw [List.cons_append, scanFrom_operator op hminus', scanFrom_operator op hminus, before_goOn,
      ih, Cursor.advance_cons]
  | stray d cs hstray =>
    rw [List.cons_append, scanFrom_stray hstray, scanFrom_stray hstray, goOn_error]

/-- A line feed at the end of a text is no token. -/
theorem scanFrom_concat_lineFeed (last stop cur : Cursor) (cs : List Char) :
    scanFrom last cur (cs ++ ['\n']) = goOn (scanFrom stop cur cs) (.ok [eof last]) := by
  have hbreak : Breaks '\n' := by simp [Breaks]
  have hspace : Lexeme.isSpace '\n' := rfl
  rw [scanFrom_append_break hbreak last stop, scanFrom_space hspace, scanFrom_nil]

end Token

/-! ## The end of a reading -/

/-- A reading comes to the end of the text only after it has taken every other token. -/
theorem Expr.ofTokens_words {words : List Token} (h : ∀ t ∈ words, t.kind ≠ .eof) (last : Cursor) :
    ofTokens (words ++ [Token.eof last]) =
      (pushAll [] words).bind fun stack => finish stack (Token.eof last) := by
  rw [ofTokens_eq, Token.beforeEof_append h, Token.firstEof_append h]

namespace Diagnostic

/-- Whether a fault shows at the end of the text. -/
def AtEnd : Diagnostic → Prop
  | .scan _ _ _ => False
  | .read _ token => token.kind = .eof

/-- Whether two faults are the same but for where the text ends. -/
structure SameButEnd (d d' : Diagnostic) : Prop where
  stage : d'.stage = d.stage
  message : d'.message = d.message
  atEnd : d'.AtEnd ↔ d.AtEnd
  pos : ¬ d.AtEnd → d'.pos = d.pos

theorem SameButEnd.refl (d : Diagnostic) : d.SameButEnd d := ⟨rfl, rfl, Iff.rfl, fun _ => rfl⟩

theorem sameButEnd_of_eof (message : String) (last last' : Cursor) :
    (Diagnostic.read message (Token.eof last)).SameButEnd (.read message (Token.eof last')) :=
  ⟨rfl, rfl, Iff.rfl, fun h => absurd rfl h⟩

/-- Whether two faults are of one kind and at one place. -/
structure SamePlace (d d' : Diagnostic) : Prop where
  stage : d'.stage = d.stage
  pos : d'.pos = d.pos

theorem SamePlace.refl (d : Diagnostic) : d.SamePlace d := ⟨rfl, rfl⟩

end Diagnostic

/-- Whether two conversions end alike: both with the same tree, or both with faults that are alike
in some way. -/
inductive Conversion.EndAlike (alike : Diagnostic → Diagnostic → Prop) :
    Except Diagnostic Conversion → Except Diagnostic Conversion → Prop where
  | tree {c c' : Conversion} : c'.tree = c.tree → EndAlike alike (.ok c) (.ok c')
  | fault {d d' : Diagnostic} : alike d d' → EndAlike alike (.error d) (.error d')

theorem Conversion.EndAlike.refl {alike : Diagnostic → Diagnostic → Prop} (h : ∀ d, alike d d)
    (result : Except Diagnostic Conversion) : EndAlike alike result result := by
  cases result with
  | error d => exact .fault (h d)
  | ok c => exact .tree rfl

/-! ## Conversions of joined texts -/

theorem convert_of_scan_error {text : String} {e : ScanError} (h : Token.scan text = .error e) :
    convert text = .error e.diagnostic := by
  rw [convert, h]

theorem convert_of_read_error {text : String} {ts : List Token} {e : ReadError}
    (h : Token.scan text = .ok ts) (he : Expr.ofTokens ts = .error e) :
    convert text = .error e.diagnostic := by
  rw [convert, h]
  simp only [he]

theorem convert_of_read {text : String} {ts : List Token} {tree : Expr}
    (h : Token.scan text = .ok ts) (htree : Expr.ofTokens ts = .ok tree) :
    convert text = .ok ⟨ts, tree⟩ := by
  rw [convert, h]
  simp only [htree]

/-- The same words before two ends of a text are converted alike. -/
theorem endAlike_of_words {text text' : String} {words : List Token} {last last' : Cursor}
    (hwords : ∀ t ∈ words, t.kind ≠ .eof) (h : Token.scan text = .ok (words ++ [Token.eof last]))
    (h' : Token.scan text' = .ok (words ++ [Token.eof last'])) :
    Conversion.EndAlike Diagnostic.SameButEnd (convert text) (convert text') := by
  have hread := Expr.ofTokens_words hwords last
  have hread' := Expr.ofTokens_words hwords last'
  cases hstack : Expr.pushAll [] words with
  | error e =>
    rw [hstack] at hread hread'
    rw [convert_of_read_error h hread, convert_of_read_error h' hread']
    exact .fault (.refl _)
  | ok stack =>
    rw [hstack] at hread hread'
    match stack with
    | [] =>
      rw [convert_of_read_error h hread, convert_of_read_error h' hread']
      exact .fault (Diagnostic.sameButEnd_of_eof _ last last')
    | [tree] =>
      rw [convert_of_read h hread, convert_of_read h' hread']
      exact .tree rfl
    | a :: b :: below =>
      rw [convert_of_read_error h hread, convert_of_read_error h' hread']
      exact .fault (Diagnostic.sameButEnd_of_eof _ last last')

/-- A line feed at the end of a text changes nothing but where the text ends. -/
theorem endAlike_concat_lineFeed (cs : List Char) :
    Conversion.EndAlike Diagnostic.SameButEnd (convert (String.ofList (cs ++ ['\n'])))
      (convert (String.ofList cs)) := by
  have hscan : Token.scan (String.ofList (cs ++ ['\n'])) =
      Token.goOn (Token.scan (String.ofList cs))
        (.ok [Token.eof (Cursor.start.advance (cs ++ ['\n']))]) := by
    rw [Token.scan_eq, Token.scan_eq, String.toList_ofList, String.toList_ofList]
    exact Token.scanFrom_concat_lineFeed _ _ _ cs
  cases hfront : Token.scan (String.ofList cs) with
  | error e =>
    rw [hfront, Token.goOn_error] at hscan
    rw [convert_of_scan_error hscan, convert_of_scan_error hfront]
    exact .fault (.refl _)
  | ok ts =>
    obtain ⟨words, rfl, hwords⟩ := Token.standsIn_of_scanFrom (Token.scan_eq _ ▸ hfront)
    rw [hfront, Token.goOn_ok, Token.foldr_before_ok] at hscan
    exact endAlike_of_words (fun t ht => (hwords t ht).kind_ne_eof) hscan hfront

/-- A conversion comes no further than a break that starts no token, and what stands after it has
no say. -/
theorem scan_append_stray {c : Char} (hc : Breaks c) (hstray : Lexeme.Stray c)
    (front after : List Char) :
    Token.scan (String.ofList (front ++ c :: after)) =
      Token.goOn (Token.scanFrom .start .start front) (.error ⟨c, Cursor.start.advance front⟩) := by
  rw [Token.scan_eq, String.toList_ofList, Token.scanFrom_append_break hc _ .start,
    Token.scanFrom_stray hstray]

theorem endAlike_of_strays {c d : Char} (hc : Breaks c) (hcstray : Lexeme.Stray c) (hd : Breaks d)
    (hdstray : Lexeme.Stray d) (front after after' : List Char) :
    Conversion.EndAlike Diagnostic.SamePlace (convert (String.ofList (front ++ c :: after)))
      (convert (String.ofList (front ++ d :: after'))) := by
  have hscan := scan_append_stray hc hcstray front after
  have hscan' := scan_append_stray hd hdstray front after'
  cases hfront : Token.scanFrom .start .start front with
  | error e =>
    rw [hfront, Token.goOn_error] at hscan hscan'
    rw [convert_of_scan_error hscan, convert_of_scan_error hscan']
    exact .fault (.refl _)
  | ok ts =>
    obtain ⟨words, rfl, -⟩ := Token.standsIn_of_scanFrom hfront
    rw [hfront, Token.goOn_ok, Token.foldr_before_error] at hscan hscan'
    rw [convert_of_scan_error hscan, convert_of_scan_error hscan']
    exact .fault ⟨rfl, rfl⟩

end PostfixMath
