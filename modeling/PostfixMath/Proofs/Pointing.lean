-- Faults point at their place. A text that cannot be converted has a fault at one of its lines, in
-- or just after that line: at the character that starts no token, at the operator that has too few
-- operands, or at the end of the text. So a report always has an excerpt, with a caret below the
-- place.
import PostfixMath.Proofs.Balance
import PostfixMath.Proofs.Fault
import PostfixMath.Proofs.Layout

namespace PostfixMath

open Text

/-! ## Places of a text -/

/-- Whether a text has a character at a line and a column. -/
def Holds (text : String) (line column : Nat) (c : Char) : Prop :=
  1 ≤ line ∧ ∃ before after, column = units before + 1 ∧
    (Excerpt.lines text)[line - 1]? = some (String.ofList (before ++ c :: after))

/-- Whether a line and a column are the end of a text: they are just after its last line. -/
def IsEnd (text : String) (line column : Nat) : Prop :=
  line = (Excerpt.lines text).length ∧
    ∃ last, (Excerpt.lines text).getLast? = some last ∧ column = units last.toList + 1

theorem getElem?_lines {text : String} {i : Nat} {line : List Char}
    (h : (text.toList.splitOn '\n')[i]? = some line) :
    (Excerpt.lines text)[i]? = some (String.ofList line) := by
  rw [Excerpt.lines, List.getElem?_map, h]
  rfl

theorem holds_advance {text : String} {front after : List Char} {c : Char}
    (h : text.toList = front ++ c :: after) (hc : c ≠ '\n') :
    Holds text (Cursor.start.advance front).line (Cursor.start.advance front).column c := by
  obtain ⟨before, hline, hcolumn⟩ := Cursor.exists_divides front (c :: after)
  rw [← h, restOfLine_cons hc] at hline
  exact ⟨Cursor.one_le_line_start_advance front, before, _, hcolumn, getElem?_lines hline⟩

theorem isEnd_advance (text : String) :
    IsEnd text (Cursor.start.advance text.toList).line
      (Cursor.start.advance text.toList).column := by
  obtain ⟨before, hline, hcolumn⟩ := Cursor.exists_divides text.toList []
  have hcount : (Cursor.start.advance text.toList).line = (Excerpt.lines text).length := by
    rw [Cursor.line_start_advance, Excerpt.lines, List.length_map]
  rw [List.append_nil] at hline
  refine ⟨hcount, String.ofList (before ++ restOfLine []), ?_, ?_⟩
  · rw [List.getLast?_eq_getElem?, ← hcount]
    exact getElem?_lines hline
  · rw [hcolumn, String.toList_ofList, restOfLine, List.takeWhile_nil, List.append_nil]

/-! ## The places of faults -/

/-- What a fault names is what stands at its place: the character that it quotes, the operator
that has too few operands, or else the end of the text. -/
def Diagnostic.Names (d : Diagnostic) (text : String) (line column : Nat) : Prop :=
  match d with
  | .scan message _ _ =>
    ∃ c, message = "Unexpected character '" ++ String.ofList [c] ++ "'" ∧ Holds text line column c
  | .read message _ =>
    (∀ op : Operator, message = "Operator '" ++ op.symbol ++ "' requires two operands" →
      Holds text line column op.char) ∧
    ((∀ op : Operator, message ≠ "Operator '" ++ op.symbol ++ "' requires two operands") →
      IsEnd text line column)

theorem ofTokens_error_cases {ts : List Token} {e : ReadError} (h : Expr.ofTokens ts = .error e) :
    (∃ op, e.cause = .missingOperands op ∧ e.token ∈ Token.beforeEof ts ∧
      e.token.kind = .operator op) ∨
    ((∀ op, e.cause ≠ .missingOperands op) ∧ e.token = Token.firstEof ts) := by
  by_cases hfed : Token.Fed 0 (Token.beforeEof ts)
  · by_cases hdepth : Token.depth (Token.beforeEof ts) = 1
    · obtain ⟨tree, htree⟩ := (Expr.exists_ofTokens_iff ts).2 ⟨hfed, hdepth⟩
      rw [h] at htree
      cases htree
    · obtain ⟨cause, herror, hcause⟩ := Expr.ofTokens_of_depth_ne hfed hdepth
      rw [h] at herror
      cases herror
      refine Or.inr ⟨fun op hop => ?_, rfl⟩
      have hop : cause = .missingOperands op := hop
      rw [hop] at hcause
      split at hcause
      · cases hcause
      · obtain ⟨n, -, -, hn⟩ := hcause
        cases hn
  · obtain ⟨before, t, after, op, hts, -, hkind, -, herror⟩ := Expr.ofTokens_of_not_fed hfed
    rw [h] at herror
    cases herror
    exact Or.inl ⟨op, rfl, by simp [hts], hkind⟩

theorem message_missingOperands_inj {cause : ReadError.Cause} {op : Operator}
    (h : cause.message = "Operator '" ++ op.symbol ++ "' requires two operands") :
    cause = .missingOperands op := by
  have hchars := congrArg String.toList h
  cases cause with
  | missingOperands o =>
    have hop : o = op := by
      cases o <;> cases op <;> first | rfl | exact absurd h (by decide)
    rw [hop]
  | empty => cases op <;> exact absurd h (by decide)
  | leftOver n => simp [ReadError.Cause.message] at hchars

/-- Whether a fault is at a place that a scan of its text comes by, and names what is there. -/
def Diagnostic.Points (d : Diagnostic) (text : String) : Prop :=
  ∃ front rest, text.toList = front ++ rest ∧ d.pos = (Cursor.start.advance front).position ∧
    d.Names text (Cursor.start.advance front).line (Cursor.start.advance front).column

theorem points_of_scanError {text : String} {e : ScanError} (h : Token.scan text = .error e) :
    e.diagnostic.Points text := by
  have htells := Token.scan_tells text
  rw [h] at htells
  obtain ⟨front, after, htext, hcursor, -, hfaulty⟩ := htells
  have hfeed : e.char ≠ '\n' := by
    intro hc
    rw [hc] at hfaulty
    exact not_faulty_of_inAlphabet (Or.inr (by simp)) (by decide) _ _ hfaulty
  refine ⟨front, e.char :: after, htext, by rw [← hcursor]; rfl, ?_⟩
  exact ⟨e.char, rfl, holds_advance htext hfeed⟩

theorem points_of_readError {text : String} {ts : List Token} {e : ReadError}
    (hscan : Token.scan text = .ok ts) (h : Expr.ofTokens ts = .error e) :
    e.diagnostic.Points text := by
  rw [Token.scan_eq] at hscan
  obtain ⟨words, rfl, hwords⟩ := Token.standsIn_of_scanFrom hscan
  have hkinds : ∀ t ∈ words, t.kind ≠ .eof := fun t ht => (hwords t ht).kind_ne_eof
  rcases ofTokens_error_cases h with ⟨op, hcause, hmem, hkind⟩ | ⟨hcause, htoken⟩
  · rw [Token.beforeEof_append hkinds] at hmem
    obtain ⟨kind, front, chars, after, htext, htoken, hspelled⟩ := hwords e.token hmem
    have hop : kind = .operator op := by
      rw [htoken] at hkind
      exact hkind
    rw [hop] at hspelled
    have hchars : chars = [op.char] := hspelled
    rw [hchars, List.append_assoc] at htext
    have hholds := holds_advance htext (by cases op <;> decide)
    have hmessage : e.diagnostic = .read (ReadError.Cause.missingOperands op).message e.token := by
      rw [ReadError.diagnostic, hcause]
    rw [hmessage]
    refine ⟨front, _, htext, by rw [Diagnostic.pos, htoken]; rfl, ?_, ?_⟩
    · intro o ho
      cases message_missingOperands_inj ho
      exact hholds
    · intro hne
      exact absurd rfl (hne op)
  · rw [Token.firstEof_append hkinds] at htoken
    refine ⟨text.toList, [], by simp, by rw [ReadError.diagnostic, Diagnostic.pos, htoken]; rfl, ?_⟩
    refine ⟨fun op hop => absurd (message_missingOperands_inj hop) (hcause op), fun _ => ?_⟩
    exact isEnd_advance text

theorem points_of_convert {text : String} {d : Diagnostic} (h : convert text = .error d) :
    d.Points text := by
  unfold convert at h
  split at h
  · rename_i hscan
    cases h
    exact points_of_scanError hscan
  · rename_i hscan
    split at h
    · rename_i hread
      cases h
      exact points_of_readError hscan hread
    · cases h

/-! ## The report of a fault -/

section Report

variable {text shown : String} {line : Nat} (hpos : 1 ≤ line)
  (hshown : (Excerpt.lines text)[line - 1]? = some shown)

include hpos hshown

theorem excerpt_eq (column count : Nat) (color : Bool) :
    excerpt text ⟨.ofNat line, .ofNat column⟩ ⟨color, .ofNat count⟩ =
      (Excerpt.around (Excerpt.lines text) line (.ofNat column) count).text color := by
  have hlen := (List.getElem?_eq_some_iff.1 hshown).1
  rw [excerpt, Excerpt.ofSource_eq hpos (by omega)]

/-- The report of a problem at a line of the text has an excerpt. -/
theorem atPosition_eq (message : String) (column count : Nat) (color : Bool) :
    excerpt text ⟨.ofNat line, .ofNat column⟩ ⟨color, .ofNat count⟩ ≠ "" ∧
    Report.atPosition message ⟨.ofNat line, .ofNat column⟩ text ⟨color, .ofNat count⟩ =
      Report.header color message ++ "\n\n" ++
        excerpt text ⟨.ofNat line, .ofNat column⟩ ⟨color, .ofNat count⟩ := by
  have hne : excerpt text ⟨.ofNat line, .ofNat column⟩ ⟨color, .ofNat count⟩ ≠ "" := by
    rw [excerpt_eq hpos hshown]
    apply Excerpt.text_ne_empty
    rw [Excerpt.rows_around _ _ hpos hshown]
    simp only [List.length_append, List.length_cons]
    omega
  exact ⟨hne, by rw [Report.atPosition, if_neg hne]⟩

/-- The caret of a plain excerpt is in the row below the line, under the column. -/
theorem caret_below_place (column count : Nat) :
    ∃ width gutter,
      let rows := Excerpt.lines (excerpt text ⟨.ofNat line, .ofNat column⟩ ⟨false, .ofNat count⟩)
      let lead := Excerpt.margin width (toString line)
      rows[min (line - 1) count]? = some (lead ++ shown) ∧
      rows[min (line - 1) count + 1]? = some (gutter ++ "^") ∧
      '^' ∉ gutter.toList ∧ units gutter.toList = units lead.toList + (column - 1) := by
  have hlen := (List.getElem?_eq_some_iff.1 hshown).1
  obtain ⟨hline, hcaret⟩ := Excerpt.lines_around (.ofNat column) count
    (Excerpt.lineFeed_notMem_lines text) hpos hshown
  have hindent : Excerpt.caretIndent (.ofNat column) = column - 1 := by
    have hcolumn : (Decimal.ofNat column).toInt? = some (column : Int) := rfl
    simp only [Excerpt.caretIndent, hcolumn]
    omega
  have hwidth : (toString line).length ≤
      (Excerpt.around (Excerpt.lines text) line (.ofNat column) count).width :=
    Excerpt.length_label_le (by omega)
  rw [← excerpt_eq hpos hshown] at hline hcaret
  refine ⟨_, _, hline, hcaret, ?_, ?_⟩
  · simp [Excerpt.toList_spaces]
  · rw [Excerpt.units_gutter, Excerpt.units_margin hwidth, hindent]

end Report

/-- The fault of a text that cannot be converted is at a line of the text, in it or just after it,
and names what stands there. Its report shows an excerpt, however many lines around it and in
whatever colors, and a plain excerpt has a caret below the line of the fault, as far in as the
place of the fault. -/
theorem fault_points_into_text (text : String) (d : Diagnostic) (h : convert text = .error d) :
    ∃ (line column : Nat) (shown : String),
      d.pos = ⟨.ofNat line, .ofNat column⟩ ∧
      1 ≤ line ∧ line ≤ (Excerpt.lines text).length ∧
      (Excerpt.lines text)[line - 1]? = some shown ∧
      1 ≤ column ∧ column ≤ units shown.toList + 1 ∧
      d.Names text line column ∧
      (∀ (color : Bool) (count : Nat),
        excerpt text d.pos ⟨color, .ofNat count⟩ ≠ "" ∧
        Report.ofDiagnostic d text ⟨color, .ofNat count⟩ =
          Report.header color d.message ++ "\n\n" ++ excerpt text d.pos ⟨color, .ofNat count⟩) ∧
      ∀ count : Nat, ∃ width gutter,
        let rows := Excerpt.lines (excerpt text d.pos ⟨false, .ofNat count⟩)
        let lead := Excerpt.margin width (toString line)
        rows[min (line - 1) count]? = some (lead ++ shown) ∧
        rows[min (line - 1) count + 1]? = some (gutter ++ "^") ∧
        '^' ∉ gutter.toList ∧ units gutter.toList = units lead.toList + (column - 1) := by
  obtain ⟨front, rest, htext, hplace, hnames⟩ := points_of_convert h
  obtain ⟨before, hline, hcolumn⟩ := Cursor.exists_divides front rest
  rw [← htext] at hline
  have hpos := Cursor.one_le_line_start_advance front
  have hshown := getElem?_lines hline
  have hlen := (List.getElem?_eq_some_iff.1 hshown).1
  have hunits : units (String.ofList (before ++ restOfLine rest)).toList =
      units before + units (restOfLine rest) := by
    rw [String.toList_ofList, units_append]
  have hpos' : d.pos = ⟨.ofNat (Cursor.start.advance front).line,
    .ofNat (Cursor.start.advance front).column⟩ := hplace
  refine ⟨_, _, _, hpos', hpos, by omega, hshown, by omega, by omega, hnames, ?_, ?_⟩
  · intro color count
    rw [Report.ofDiagnostic, hpos']
    exact atPosition_eq hpos hshown d.message _ count color
  · intro count
    rw [hpos']
    exact caret_below_place hpos hshown _ count

/-- An operator without operands on the second line, behind a tab and after a carriage return. -/
theorem fault_points_into_text_second_line :
    ∃ d, convert "5 3\r\n\t+ *" = .error d ∧ d.pos = ⟨.ofNat 2, .ofNat 4⟩ ∧
      Holds "5 3\r\n\t+ *" 2 4 '*' ∧
      ∀ color count, excerpt "5 3\r\n\t+ *" d.pos ⟨color, .ofNat count⟩ ≠ "" := by
  have h : convert "5 3\r\n\t+ *" = .error (.read "Operator '*' requires two operands"
      ⟨.operator .times, "*", ⟨.ofNat 2, .ofNat 4⟩, .ofNat 8⟩) := by decide +kernel
  obtain ⟨line, column, shown, hpos, _, _, _, _, _, hnames, hreport, _⟩ :=
    fault_points_into_text _ _ h
  have hplace : 2 = line ∧ 4 = column := by
    simpa [Diagnostic.pos, Decimal.ofNat] using hpos
  obtain ⟨rfl, rfl⟩ := hplace
  exact ⟨_, h, rfl, hnames.1 .times rfl, fun color count => (hreport color count).1⟩

end PostfixMath
