-- The layout of an excerpt. Its rows are the lines around a line, with a caret below that line,
-- and each row is one line of its text. Every line starts behind a margin of one width, so the
-- caret stands below the column that it points at.
import PostfixMath.Proofs.Place
import PostfixMath.Report

namespace PostfixMath

namespace Excerpt

open Text

/-! ## The rows -/

/-- The row of a line with its number. -/
def plainRow (numbered : String × Nat) : Row := .source (toString numbered.2) numbered.1 false

/-- The first line around a line. -/
def firstLine (line count : Nat) : Nat := max 1 (line - count)

/-- The last line around a line, of so many. -/
def lastLine (total line count : Nat) : Nat := min total (line + count)

/-- The lines from a first to a last one, with their numbers. -/
def numbered (lines : List String) (first last : Nat) : List (String × Nat) :=
  ((lines.zipIdx 1).take last).drop (first - 1)

/-- The rows of a line with its number, in an excerpt about a line. -/
def rowsAt (line : Nat) (column : Decimal) (shown : String × Nat) : List Row :=
  rowsOf (toString shown.2) shown.1 (decide ((shown.2 : Int) = line)) column

theorem around_eq (lines : List String) (line : Nat) (column : Decimal) (count : Nat) :
    around lines line column count =
      ⟨(toString (lastLine lines.length line count)).length,
        (numbered lines (firstLine line count) (lastLine lines.length line count)).flatMap
          (rowsAt line column)⟩ :=
  rfl

theorem getElem?_numbered (lines : List String) (first last i : Nat) :
    (numbered lines first last)[i]? =
      if first - 1 + i < last then (lines[first - 1 + i]?).map (·, first - 1 + i + 1)
      else none := by
  unfold numbered
  rw [List.getElem?_drop, List.getElem?_take]
  split
  · rw [List.getElem?_zipIdx, Nat.add_comm 1]
  · rfl

/-- A line that is shown lies between the first and the last one, and has its own number. -/
theorem mem_numbered {lines : List String} {first last : Nat} {shown : String × Nat}
    (h : shown ∈ numbered lines first last) :
    first ≤ shown.2 ∧ shown.2 ≤ last ∧ lines[shown.2 - 1]? = some shown.1 := by
  obtain ⟨i, hi⟩ := List.mem_iff_getElem?.1 h
  rw [getElem?_numbered] at hi
  split at hi
  · obtain ⟨text, htext, rfl⟩ := Option.map_eq_some_iff.1 hi
    exact ⟨by simp only; omega, by simp only; omega, htext⟩
  · cases hi

/-- The lines that are shown, where one of them is looked at. -/
theorem numbered_split {lines : List String} {first line last : Nat} {text : String}
    (hpos : 1 ≤ first) (hfirst : first ≤ line) (hlast : line ≤ last)
    (htext : lines[line - 1]? = some text) :
    numbered lines first last =
      numbered lines first (line - 1) ++ (text, line) :: numbered lines (line + 1) last := by
  have hlen := (List.getElem?_eq_some_iff.1 htext).1
  have hline : ((lines.zipIdx 1).take last)[line - 1]? = some (text, line) := by
    rw [List.getElem?_take, if_pos (by omega), List.getElem?_zipIdx, htext]
    simp only [Option.map_some, Option.some.injEq, Prod.mk.injEq, true_and]
    omega
  have hsplit : (lines.zipIdx 1).take last =
      (lines.zipIdx 1).take (line - 1) ++
        (text, line) :: ((lines.zipIdx 1).take last).drop line := by
    have hdrop : ((lines.zipIdx 1).take last).drop (line - 1) =
        (text, line) :: ((lines.zipIdx 1).take last).drop line := by
      rw [List.drop_eq_getElem?_toList_append, hline, Nat.sub_add_cancel (by omega)]
      rfl
    have := List.take_append_drop (line - 1) ((lines.zipIdx 1).take last)
    rw [List.take_take, Nat.min_eq_left (by omega), hdrop] at this
    exact this.symm
  calc numbered lines first last
      = ((lines.zipIdx 1).take (line - 1) ++
          (text, line) :: ((lines.zipIdx 1).take last).drop line).drop (first - 1) := by
        rw [← hsplit]
        rfl
    _ = numbered lines first (line - 1) ++ (text, line) :: numbered lines (line + 1) last :=
        List.drop_append_of_le_length (by simp; omega)

theorem rowsAt_self (line : Nat) (column : Decimal) (text : String) :
    rowsAt line column (text, line) =
      [.source (toString line) text true, .caret (caretIndent column)] := by
  simp [rowsAt, rowsOf]

theorem rowsAt_of_ne {line : Nat} {shown : String × Nat} (h : shown.2 ≠ line) (column : Decimal) :
    rowsAt line column shown = [plainRow shown] := by
  have hne : decide ((shown.2 : Int) = line) = false := by
    rw [decide_eq_false_iff_not]
    omega
  rw [rowsAt, hne]
  rfl

theorem flatMap_rowsAt {shown : List (String × Nat)} {line : Nat} (column : Decimal)
    (h : ∀ s ∈ shown, s.2 ≠ line) : shown.flatMap (rowsAt line column) = shown.map plainRow := by
  induction shown with
  | nil => rfl
  | cons s shown ih =>
    rw [List.flatMap_cons, rowsAt_of_ne (h s (by simp)), ih fun s hs => h s (by simp [hs])]
    rfl

/-- The rows of an excerpt: the line that it is about with its caret, and the lines around it. -/
theorem rows_around {lines : List String} {line : Nat} {text : String} (column : Decimal)
    (count : Nat) (hpos : 1 ≤ line) (htext : lines[line - 1]? = some text) :
    (around lines line column count).rows =
      (numbered lines (firstLine line count) (line - 1)).map plainRow ++
        .source (toString line) text true :: .caret (caretIndent column) ::
          (numbered lines (line + 1) (lastLine lines.length line count)).map plainRow := by
  have hlen := (List.getElem?_eq_some_iff.1 htext).1
  have hbefore : ∀ s ∈ numbered lines (firstLine line count) (line - 1), s.2 ≠ line := by
    intro s hs
    have := (mem_numbered hs).2.1
    omega
  have hafter : ∀ s ∈ numbered lines (line + 1) (lastLine lines.length line count), s.2 ≠ line := by
    intro s hs
    have := (mem_numbered hs).1
    omega
  rw [around_eq, numbered_split (by unfold firstLine; omega) (by unfold firstLine; omega)
    (by unfold lastLine; omega) htext, List.flatMap_append, List.flatMap_cons,
    flatMap_rowsAt column hbefore, rowsAt_self, flatMap_rowsAt column hafter]
  rfl

/-! ## The lines of the text -/

theorem toString_toList (n : Nat) : (toString n).toList = Nat.toDigits 10 n := by
  rw [Nat.toString_eq_ofList_toDigits, String.toList_ofList]

theorem lineFeed_notMem_label (n : Nat) : '\n' ∉ (toString n).toList := by
  rw [toString_toList]
  intro h
  have := Nat.isDigit_of_mem_toDigits (by decide) (by decide) h
  simp at this

theorem toList_spaces (n : Nat) : (spaces n).toList = List.replicate n ' ' := by
  rw [spaces, String.toList_ofList]

/-- Whether a row has no line feed in it. -/
def Row.OneLine : Row → Prop
  | .source label text _ => '\n' ∉ label.toList ∧ '\n' ∉ text.toList
  | .caret _ => True

theorem Row.lineFeed_notMem_text {row : Row} (h : row.OneLine) (width : Nat) :
    '\n' ∉ (row.text false width).toList := by
  cases row with
  | source label text marked =>
    obtain ⟨hlabel, htext⟩ := h
    simp [Row.text, margin, Style.paint, toList_spaces, hlabel, htext]
  | caret indent => simp [Row.text, Style.paint, toList_spaces]

/-- Texts of one line each, joined by line feeds, are the lines of the whole. -/
theorem lines_intercalate {texts : List String} (hne : texts ≠ [])
    (h : ∀ text ∈ texts, '\n' ∉ text.toList) : lines ("\n".intercalate texts) = texts := by
  have hfeed : "\n".toList = ['\n'] := rfl
  unfold lines
  rw [String.toList_intercalate, hfeed, List.splitOn_intercalate]
  · simp
  · intro line hline
    obtain ⟨text, htext, rfl⟩ := List.mem_map.1 hline
    exact h text htext
  · simpa using hne

/-- A text of rows has a line for each row. -/
theorem lines_text {x : Excerpt} (hne : x.rows ≠ []) (h : ∀ row ∈ x.rows, row.OneLine) :
    lines (x.text false) = x.rows.map (Row.text false x.width) := by
  apply lines_intercalate
  · simpa using hne
  · intro text htext
    obtain ⟨row, hrow, rfl⟩ := List.mem_map.1 htext
    exact row.lineFeed_notMem_text (h row hrow) x.width

theorem oneLine_plainRow {lines : List String} (h : ∀ text ∈ lines, '\n' ∉ text.toList)
    {first last : Nat} : ∀ row ∈ (numbered lines first last).map plainRow, row.OneLine := by
  intro row hrow
  obtain ⟨shown, hshown, rfl⟩ := List.mem_map.1 hrow
  exact ⟨lineFeed_notMem_label _, h _ (List.mem_of_getElem? (mem_numbered hshown).2.2)⟩

theorem length_numbered {lines : List String} {first last : Nat} (h : last ≤ lines.length) :
    (numbered lines first last).length = last - (first - 1) := by
  unfold numbered
  rw [List.length_drop, List.length_take, List.length_zipIdx, Nat.min_eq_left h]

/-- The text of an excerpt around a line has a line for each row. -/
theorem lines_text_around {lines : List String} {line : Nat} {text : String} (column : Decimal)
    (count : Nat) (hlines : ∀ text ∈ lines, '\n' ∉ text.toList) (hpos : 1 ≤ line)
    (htext : lines[line - 1]? = some text) :
    Excerpt.lines ((around lines line column count).text false) =
      (around lines line column count).rows.map
        (Row.text false (around lines line column count).width) := by
  have hrows := rows_around column count hpos htext
  apply lines_text
  · rw [hrows]
    simp
  · intro row hrow
    rw [hrows, List.mem_append, List.mem_cons, List.mem_cons] at hrow
    rcases hrow with hrow | rfl | rfl | hrow
    · exact oneLine_plainRow hlines row hrow
    · exact ⟨lineFeed_notMem_label _, hlines _ (List.mem_of_getElem? htext)⟩
    · trivial
    · exact oneLine_plainRow hlines row hrow

/-- The line that an excerpt is about comes after as many lines as it shows before it, and its
caret is the next line. -/
theorem lines_around {lines : List String} {line : Nat} {text : String} (column : Decimal)
    (count : Nat) (hlines : ∀ text ∈ lines, '\n' ∉ text.toList) (hpos : 1 ≤ line)
    (htext : lines[line - 1]? = some text) :
    let x := around lines line column count
    let shown := Excerpt.lines (x.text false)
    shown[min (line - 1) count]? = some (margin x.width (toString line) ++ text) ∧
    shown[min (line - 1) count + 1]? =
      some (spaces x.width ++ " | " ++ spaces (caretIndent column) ++ "^") := by
  intro x shown
  have hlen := (List.getElem?_eq_some_iff.1 htext).1
  have hbefore : ((numbered lines (firstLine line count) (line - 1)).map plainRow).length =
      min (line - 1) count := by
    rw [List.length_map, length_numbered (by omega)]
    unfold firstLine
    omega
  have hshown : shown = x.rows.map (Row.text false x.width) :=
    lines_text_around column count hlines hpos htext
  rw [hshown, List.getElem?_map, List.getElem?_map, rows_around column count hpos htext, ← hbefore]
  constructor
  · rw [List.getElem?_append_right (Nat.le_refl _), Nat.sub_self]
    rfl
  · rw [List.getElem?_append_right (Nat.le_add_right _ 1), Nat.add_sub_cancel_left]
    rfl

/-! ## The width of the margin -/

theorem units_eq_length {cs : List Char} (h : ∀ c ∈ cs, c.toNat < 0x10000) :
    units cs = cs.length := by
  induction cs with
  | nil => rfl
  | cons c cs ih =>
    have hc : unitsOf c = 1 := if_neg (Nat.not_le.2 (h c (by simp)))
    rw [units_cons, hc, ih fun d hd => h d (by simp [hd]), List.length_cons, Nat.add_comm]

/-- Texts take one unit more than the text that line feeds join them to, as it has none after the
last of them. -/
theorem units_intercalate {texts : List String} (h : texts ≠ []) :
    texts.foldr (fun text total => units text.toList + 1 + total) 0 =
      units ("\n".intercalate texts).toList + 1 := by
  have hfeed : units "\n".toList = 1 := by decide
  induction texts with
  | nil => exact absurd rfl h
  | cons text texts ih =>
    cases texts with
    | nil => simp
    | cons next texts =>
      rw [List.foldr_cons, ih (List.cons_ne_nil next texts), String.intercalate_cons_cons,
        String.toList_append, String.toList_append, units_append, units_append, hfeed]
      omega

theorem units_spaces (n : Nat) : units (spaces n).toList = n := by
  rw [toList_spaces, units_eq_length, List.length_replicate]
  intro c hc
  rw [List.eq_of_mem_replicate hc]
  decide

theorem units_label (n : Nat) : units (toString n).toList = (toString n).length := by
  rw [units_eq_length, String.length_toList]
  intro c hc
  rw [toString_toList] at hc
  have hdigit := Nat.isDigit_of_mem_toDigits (by decide) (by decide) hc
  simp only [Char.isDigit, Bool.and_eq_true, decide_eq_true_eq] at hdigit
  have : c.val.toNat ≤ 57 := hdigit.2
  have : c.toNat = c.val.toNat := rfl
  omega

theorem length_label_le {m n : Nat} (h : m ≤ n) : (toString m).length ≤ (toString n).length := by
  have hpos : 0 < (toString n).length := Nat.length_repr_pos
  exact (Nat.length_repr_le_iff hpos).2
    (Nat.lt_of_le_of_lt h ((Nat.length_repr_le_iff hpos).1 (Nat.le_refl _)))

/-- The margin of every line up to the last one is as wide as that of the last one. -/
theorem units_margin {width n : Nat} (h : (toString n).length ≤ width) :
    units (margin width (toString n)).toList = width + 3 := by
  have hbar : units " | ".toList = 3 := by decide
  rw [margin, String.toList_append, String.toList_append, units_append, units_append, units_spaces,
    units_label, hbar]
  omega

theorem units_gutter (width indent : Nat) :
    units (spaces width ++ " | " ++ spaces indent).toList = width + 3 + indent := by
  have hbar : units " | ".toList = 3 := by decide
  rw [String.toList_append, String.toList_append, units_append, units_append, units_spaces,
    units_spaces, hbar]

/-! ## The excerpt of a source text -/

theorem lineFeed_notMem_lines (source : String) : ∀ text ∈ lines source, '\n' ∉ text.toList := by
  intro text htext
  obtain ⟨line, hline, rfl⟩ := List.mem_map.1 htext
  rw [String.toList_ofList]
  exact lineFeed_notMem_line hline

theorem reach?_ofNat (count : Nat) : reach? (.ofNat count) = some count := rfl

theorem ofSource_eq {source : String} {line : Nat} (hpos : 1 ≤ line)
    (hle : line ≤ (lines source).length) (column : Decimal) (count : Nat) :
    ofSource source ⟨.ofNat line, column⟩ (.ofNat count) =
      around (lines source) line column count := by
  have hline : (Decimal.ofNat line).toInt? = some (line : Int) := rfl
  rw [ofSource]
  simp only [hline, reach?_ofNat]
  rw [if_neg (by omega)]

/-- A text of two rows or more has a line feed, whatever its colors. -/
theorem text_ne_empty {x : Excerpt} (h : 2 ≤ x.rows.length) (color : Bool) :
    x.text color ≠ "" := by
  intro hempty
  have hchars := congrArg String.toList hempty
  rw [Excerpt.text, String.toList_intercalate] at hchars
  match hrows : x.rows with
  | [] => simp [hrows] at h
  | [row] => simp [hrows] at h
  | row :: row' :: rows => simp [hrows] at hchars

end Excerpt

end PostfixMath
