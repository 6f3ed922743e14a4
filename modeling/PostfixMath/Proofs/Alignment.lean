-- The alignment of an excerpt. It shows the lines of the source from a first to a last one, and no
-- number among them has more digits than the last one. So a margin as wide as that number is wide
-- enough for all of them, every line starts at one index, and the caret stands where its column is.
import PostfixMath.Proofs.Escapes
import PostfixMath.Proofs.Layout

namespace PostfixMath

open Text

namespace Excerpt

/-! ## Rows that are aligned -/

/-- Whether a row shows a line: its number at the right of a field, a bar, and the line as it is. -/
def ShowsLine (width number : Nat) (text row : String) : Prop :=
  ∃ label, row = label ++ " | " ++ text ∧ units label.toList = width ∧
    ∃ pad, label = spaces pad ++ toString number

/-- Whether a row has one caret, as its last character and this far behind the bar. -/
def ShowsCaret (width indent : Nat) (row : String) : Prop :=
  ∃ lead, row = lead ++ "^" ∧ '^' ∉ lead.toList ∧ units lead.toList = width + 3 + indent ∧
    lead = spaces width ++ " | " ++ spaces indent

/-- Whether rows show the lines of a source around a line, in order and each of them once, and a
caret directly below that line. -/
def LaidOut (source : List String) (line count indent : Nat) (rows : List String) : Prop :=
  let first := max 1 (line - count)
  let last := min source.length (line + count)
  let width := (toString last).length
  ∃ (row : Nat → String) (caret : String),
    rows = (List.range' first (line + 1 - first)).map row ++
      caret :: (List.range' (line + 1) (last - line)).map row ∧
    (∀ i, first ≤ i → i ≤ last →
      ∃ text, source[i - 1]? = some text ∧ ShowsLine width i text (row i)) ∧
    ShowsCaret width indent caret

theorem showsLine_margin {width n : Nat} (h : (toString n).length ≤ width) (text : String) :
    ShowsLine width n text (margin width (toString n) ++ text) := by
  refine ⟨spaces (width - (toString n).length) ++ toString n, rfl, ?_, _, rfl⟩
  rw [String.toList_append, units_append, units_spaces, units_label]
  omega

theorem showsCaret_gutter (width indent : Nat) :
    ShowsCaret width indent (spaces width ++ " | " ++ spaces indent ++ "^") := by
  refine ⟨_, rfl, ?_, units_gutter width indent, rfl⟩
  simp [toList_spaces]

/-! ## The lines in order -/

/-- The line with a number. -/
def lineOf (lines : List String) (i : Nat) : String := (lines[i - 1]?).getD ""

theorem getElem?_eq_lineOf {lines : List String} {i : Nat} (hpos : 1 ≤ i)
    (hle : i ≤ lines.length) : lines[i - 1]? = some (lineOf lines i) := by
  rw [lineOf, List.getElem?_eq_getElem (by omega), Option.getD_some]

theorem numbered_eq {lines : List String} {first last : Nat} (hpos : 1 ≤ first)
    (hlast : last ≤ lines.length) :
    numbered lines first last =
      (List.range' first (last + 1 - first)).map fun i => (lineOf lines i, i) := by
  apply List.ext_getElem?
  intro i
  rw [getElem?_numbered, List.getElem?_map]
  by_cases hi : i < last + 1 - first
  · have hindex : first + 1 * i = first - 1 + i + 1 := by omega
    have hle : first - 1 + i + 1 ≤ lines.length := by omega
    have hline : lines[first - 1 + i]? = some (lineOf lines (first - 1 + i + 1)) :=
      getElem?_eq_lineOf (Nat.le_add_left 1 _) hle
    rw [if_pos (by omega), List.getElem?_range' hi, hindex, hline]
    rfl
  · rw [if_neg (by omega), List.getElem?_eq_none (by rw [List.length_range']; omega)]
    rfl

/-- The text of the row of a line, behind a margin of a width. -/
def rowOf (lines : List String) (width i : Nat) : String :=
  margin width (toString i) ++ lineOf lines i

theorem map_text_plainRow {lines : List String} {first last : Nat} (hpos : 1 ≤ first)
    (hlast : last ≤ lines.length) (width : Nat) :
    ((numbered lines first last).map plainRow).map (Row.text false width) =
      (List.range' first (last + 1 - first)).map (rowOf lines width) := by
  rw [numbered_eq hpos hlast, List.map_map, List.map_map]
  rfl

theorem map_text_around {lines : List String} {line : Nat} (hpos : 1 ≤ line)
    (hle : line ≤ lines.length) (column : Decimal) (count : Nat) :
    let first := firstLine line count
    let last := lastLine lines.length line count
    let width := (toString last).length
    (around lines line column count).rows.map (Row.text false width) =
      (List.range' first (line + 1 - first)).map (rowOf lines width) ++
        (spaces width ++ " | " ++ spaces (caretIndent column) ++ "^") ::
          (List.range' (line + 1) (last - line)).map (rowOf lines width) := by
  intro first last width
  have hfirst : 1 ≤ first ∧ first ≤ line := by
    simp only [first, firstLine]
    omega
  have hlast : line ≤ last ∧ last ≤ lines.length := by
    simp only [last, lastLine]
    omega
  have hbefore : line - 1 + 1 - first = line - first := by omega
  have hafter : last + 1 - (line + 1) = last - line := by omega
  have hrange : List.range' first (line + 1 - first) = List.range' first (line - first) ++ [line] := by
    have hcount : line + 1 - first = line - first + 1 := by omega
    rw [hcount, List.range'_1_concat, Nat.add_sub_cancel' hfirst.2]
  rw [rows_around column count hpos (getElem?_eq_lineOf hpos hle), List.map_append, List.map_cons,
    List.map_cons, map_text_plainRow hfirst.1 (by omega), map_text_plainRow (by omega) hlast.2,
    hbefore, hafter, hrange, List.map_append, List.append_assoc]
  rfl

/-- An excerpt around a line is laid out. -/
theorem laidOut_around {lines : List String} {line : Nat} (hpos : 1 ≤ line)
    (hle : line ≤ lines.length) (hlines : ∀ text ∈ lines, '\n' ∉ text.toList) (column : Decimal)
    (count : Nat) :
    LaidOut lines line count (caretIndent column)
      (Excerpt.lines ((around lines line column count).text false)) := by
  refine ⟨rowOf lines (toString (lastLine lines.length line count)).length, _, ?_,
    fun i hfirst hlast => ?_, showsCaret_gutter _ _⟩
  · rw [lines_text_around column count hlines hpos (getElem?_eq_lineOf hpos hle)]
    exact map_text_around hpos hle column count
  · refine ⟨lineOf lines i, getElem?_eq_lineOf (by omega) (by omega), ?_⟩
    -- No line up to the last one has a longer number.
    exact showsLine_margin (length_label_le hlast) _

/-! ## Context beyond the source -/

theorem around_of_le {lines : List String} {line : Nat} (hle : line ≤ lines.length)
    (column : Decimal) {count : Nat} (hcount : lines.length ≤ count) :
    around lines line column count = around lines line column lines.length := by
  have hfirst : firstLine line count = firstLine line lines.length := by
    unfold firstLine
    omega
  have hlast : lastLine lines.length line count = lastLine lines.length line lines.length := by
    unfold lastLine
    omega
  rw [around_eq, around_eq, hfirst, hlast]

end Excerpt

/-! ## The size of an excerpt -/

/-- A plain text in a style is longer by the codes around it. -/
theorem Style.Coded.units_paint {s : Style} (h : s.Coded) {text : String} (hplain : Plain text)
    (hne : text.toList ≠ []) (on : Bool) :
    units (s.paint on text).toList =
      units text.toList + if on then units s.opening + units s.closing else 0 := by
  cases on with
  | false => rfl
  | true =>
    rw [paint, if_pos rfl, String.toList_ofList, h.paintChars_eq hplain hne, units_append,
      units_append, if_pos rfl]
    omega

namespace Excerpt

theorem Row.size_eq (row : Row) (color : Bool) (width : Nat) :
    row.size color width = units (row.text color width).toList := by
  cases row with
  | source label text marked => rfl
  | caret indent =>
    have hplain (n : Nat) : Plain (spaces width ++ " | " ++ spaces n ++ "^") := by
      simp [Plain, toList_spaces]
    have hunits (n : Nat) := (Style.coded_sourceColor 33 39).units_paint (hplain n)
      (by simp [String.toList_append]) color
    have hsize (n : Nat) : units (spaces width ++ " | " ++ spaces n ++ "^").toList =
        width + 3 + n + 1 := by
      rw [String.toList_append, units_append, units_gutter]
      rfl
    rw [Row.size, Row.text, Row.text]
    rw [Style.sourceYellow, hunits, hunits, hsize, hsize]
    omega

/-- Rows take one unit more than their text, which has no line feed after the last of them. -/
theorem size_rows {rows : List Row} (h : rows ≠ []) (color : Bool) (width : Nat) :
    rows.foldr (fun row total => row.size color width + 1 + total) 0 =
      units ("\n".intercalate (rows.map (Row.text color width))).toList + 1 := by
  rw [← units_intercalate (by simpa using h), List.foldr_map]
  simp only [Row.size_eq]

theorem size_eq {x : Excerpt} (h : x.rows ≠ []) (color : Bool) :
    x.size color = units (x.text color).toList + 1 :=
  size_rows h color x.width

end Excerpt

/-- An excerpt is refused only where its text would be too long. -/
theorem excerptWithin_eq (source : String) (pos : Position) (view : View) :
    excerptWithin source pos view =
      if longest < units (excerpt source pos view).toList then .error .tooLong
      else .ok (excerpt source pos view) := by
  unfold excerptWithin excerpt
  by_cases hne : (Excerpt.ofSource source pos view.contextLines).rows = []
  · have hsize : (Excerpt.ofSource source pos view.contextLines).size view.color = 0 := by
      simp [Excerpt.size, hne]
    have htext : (Excerpt.ofSource source pos view.contextLines).text view.color = "" := by
      simp [Excerpt.text, hne]
    simp [hsize, htext]
  · simp only [Excerpt.size_eq hne, Nat.add_lt_add_iff_right]

/-! ## The excerpt of a source text -/

theorem Decimal.toInt?_ofInt (n : Int) : (Decimal.ofInt n).toInt? = some n := by
  unfold toInt? ofInt
  rw [if_pos rfl]
  by_cases hn : n < 0
  · rw [decide_eq_true hn, if_pos rfl]
    exact congrArg some (show -(n.natAbs : Int) = n by omega)
  · rw [decide_eq_false hn, if_neg (by simp)]
    exact congrArg some (show (n.natAbs : Int) = n by omega)

namespace Excerpt

theorem caretIndent_ofInt (column : Int) : caretIndent (.ofInt column) = (column - 1).toNat := by
  simp only [caretIndent, Decimal.toInt?_ofInt]

theorem excerpt_of_reach {amount : Decimal} {count : Nat} (h : reach? amount = some count)
    (source : String) (line : Int) (column : Decimal) (color : Bool) :
    excerpt source ⟨.ofInt line, column⟩ ⟨color, amount⟩ =
      (if 1 ≤ line ∧ line ≤ (lines source).length then around (lines source) line column count
        else ⟨0, []⟩ : Excerpt).text color := by
  simp only [excerpt, ofSource, Decimal.toInt?_ofInt, h]
  by_cases hline : 1 ≤ line ∧ line ≤ (lines source).length
  · rw [if_pos hline, if_neg (by omega)]
  · rw [if_neg hline, if_pos (by omega)]

/-- A plain excerpt around a line of a source shows the lines that are at most `count` away from it,
in order and each of them once. Each stands behind its number, which is moved to the right of a field
as wide as the last number, and a bar. A caret stands in a row of its own directly below the line
that the excerpt is about, as far behind the bar as its column is from the first one. It does not
matter how the count is written, and more context than the source has lines changes nothing. There is
no excerpt around a line that the source does not have, nor one that is too long for a text. -/
theorem excerpt_is_laid_out (source : String) (line column : Int) (count : Nat) :
    let pos : Position := ⟨.ofInt line, .ofInt column⟩
    let shown (count : Nat) : String := excerpt source pos ⟨false, .ofNat count⟩
    let total := (lines source).length
    (1 ≤ line ∧ line ≤ total →
      LaidOut (lines source) line.toNat count (column - 1).toNat (lines (shown count))) ∧
    (¬ (1 ≤ line ∧ line ≤ total) → shown count = "") ∧
    (total ≤ count → shown count = shown total) ∧
    ∀ amount, reach? amount = some count →
      excerpt source pos ⟨false, amount⟩ = shown count ∧
      excerptWithin source pos ⟨false, amount⟩ =
        if longest < units (shown count).toList then .error .tooLong else .ok (shown count) := by
  intro pos shown total
  have hshown (count : Nat) : shown count =
      (if 1 ≤ line ∧ line ≤ total then around (lines source) line pos.column count
        else ⟨0, []⟩ : Excerpt).text false :=
    excerpt_of_reach (reach?_ofNat count) source line pos.column false
  refine ⟨fun hline => ?_, fun hline => ?_, fun hcount => ?_, fun amount hamount => ?_⟩
  · obtain ⟨n, rfl⟩ := Int.eq_ofNat_of_zero_le (by omega : 0 ≤ line)
    rw [hshown, if_pos hline, ← caretIndent_ofInt]
    exact laidOut_around (by omega) (by omega) (lineFeed_notMem_lines source) _ count
  · rw [hshown, if_neg hline]
    rfl
  · rw [hshown, hshown]
    by_cases hline : 1 ≤ line ∧ line ≤ total
    · obtain ⟨n, rfl⟩ := Int.eq_ofNat_of_zero_le (by omega : 0 ≤ line)
      rw [if_pos hline, if_pos hline, around_of_le (by omega) _ hcount]
    · rw [if_neg hline, if_neg hline]
  · have hamount' : excerpt source pos ⟨false, amount⟩ = shown count := by
      rw [hshown]
      exact excerpt_of_reach hamount source line pos.column false
    exact ⟨hamount', by rw [excerptWithin_eq, hamount']⟩

/-- Numbers of two widths, a line that is not there, and a count that is written with a point. -/
theorem excerpt_is_laid_out_two_widths :
    let source := "a\nb\nc\nd\ne\nf\ng\nh\ni i\nj"
    let pos (line : Int) : Position := ⟨.ofInt line, .ofInt 3⟩
    LaidOut (lines source) 9 1 2 (lines (excerpt source (pos 9) ⟨false, .ofNat 1⟩)) ∧
    excerpt source (pos 11) ⟨false, .ofNat 1⟩ = "" ∧
    excerpt source (pos 9) ⟨false, .ofNat 99⟩ = excerpt source (pos 9) ⟨false, .ofNat 10⟩ ∧
    excerptWithin source (pos 9) ⟨false, ⟨false, 10, -1⟩⟩ =
      .ok (excerpt source (pos 9) ⟨false, .ofNat 1⟩) := by
  intro source pos
  have htotal : (lines source).length = 10 := by decide +kernel
  obtain ⟨hlaid, -, -, hamount⟩ := excerpt_is_laid_out source 9 3 1
  obtain ⟨-, houtside, -, -⟩ := excerpt_is_laid_out source 11 3 1
  obtain ⟨-, -, hall, -⟩ := excerpt_is_laid_out source 9 3 99
  rw [htotal] at hlaid houtside hall
  refine ⟨hlaid (by decide), houtside (by decide), hall (by decide), ?_⟩
  have hfits : units (excerpt source (pos 9) ⟨false, .ofNat 1⟩).toList ≤ longest := by
    decide +kernel
  rw [(hamount ⟨false, 10, -1⟩ (by decide +kernel)).2, if_neg (Nat.not_lt.2 hfits)]

/-- The number of a line with fewer digits than the last one is moved to the right. -/
example : excerpt "a\nb\nc\nd\ne\nf\ng\nh\ni\nj" ⟨.ofNat 9, .ofNat 1⟩ ⟨false, .ofNat 1⟩ =
    " 8 | h\n 9 | i\n   | ^\n10 | j" := by decide +kernel

end Excerpt

end PostfixMath
