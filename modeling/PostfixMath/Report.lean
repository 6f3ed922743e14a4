-- Reports: the message of a problem, and an excerpt of the source where the problem has a
-- place there. Reports may be styled for a terminal.
import PostfixMath.Conversion

namespace PostfixMath

/-! ## Styles

A text between an opening and a closing code. A closing code inside the text would end the style
too early, so it is replaced there. -/

/-- A terminal style. Its closing code is replaced by `reopen` inside the text, but for the
first `spared` code units of it. -/
structure Style where
  opening : List Char
  closing : List Char
  reopen : List Char
  spared : Nat
deriving DecidableEq, Repr

namespace Style

/-- The code that sets the display attribute of this number. -/
def code (n : Nat) : List Char := '\x1b' :: '[' :: Nat.toDigits 10 n ++ ['m']

/-- A color, put on again in the place of an inner closing code. -/
def color (on off : Nat) : Style := ⟨code on, code off, code on, (code on).length + 1⟩

/-- A weight, which an inner closing code first ends for all weights. -/
def weight (on off : Nat) : Style :=
  ⟨code on, code off, code off ++ code on, (code on).length + 1⟩

/-- A color for a line of source text, put on again after every closing code in it. -/
def sourceColor (on off : Nat) : Style := ⟨code on, code off, code off ++ code on, 0⟩

/-- Strong text, for titles. -/
def bold : Style := weight 1 22

/-- Faint text, for what only some want to see. -/
def dim : Style := weight 2 22

/-- The color of errors. -/
def red : Style := color 31 39

/-- The color of success. -/
def green : Style := color 32 39

/-- The color of hints. -/
def blue : Style := color 34 39

/-- The color of a source line with an error. -/
def sourceRed : Style := sourceColor 91 39

/-- The color of the caret below such a line. -/
def sourceYellow : Style := sourceColor 33 39

/-- A text in a style. An empty text has none. -/
def paintChars (s : Style) : List Char → List Char
  | [] => []
  | cs =>
    let (spared, rest) := Text.splitAtUnit cs s.spared
    s.opening ++ spared ++ Text.replaceAll s.closing s.reopen rest ++ s.closing

/-- A text in a style, or as it is where styles are off. -/
def paint (s : Style) (on : Bool) (text : String) : String :=
  if on then String.ofList (s.paintChars text.toList) else text

end Style

/-! ## Excerpts

The line of a position, some lines around it, and a caret below its column. -/

/-- How a report looks: whether it has colors, and how many lines it shows before and after
the one it is about. -/
structure View where
  color : Bool
  contextLines : Decimal
deriving DecidableEq, Repr

/-- No colors, and one line. -/
def View.plain : View := ⟨false, .ofNat 0⟩

/-- A row of an excerpt: a source line behind its label, or a caret this far in. The line
that the excerpt is about is marked. -/
inductive Excerpt.Row where
  | source (label text : String) (marked : Bool)
  | caret (indent : Nat)
deriving DecidableEq, Repr

/-- The rows of an excerpt, and the width of their labels. -/
structure Excerpt where
  width : Nat
  rows : List Excerpt.Row
deriving DecidableEq, Repr

namespace Excerpt

/-! ## The text of an excerpt -/

def spaces (n : Nat) : String := String.ofList (List.replicate n ' ')

/-- What stands before the text of a line: its label, moved to the right of a column. -/
def margin (width : Nat) (label : String) : String :=
  spaces (width - label.length) ++ label ++ " | "

namespace Row

def text (color : Bool) (width : Nat) : Row → String
  | .source label text marked =>
    margin width label ++ Style.sourceRed.paint (color && marked) text
  | .caret indent =>
    Style.sourceYellow.paint color (spaces width ++ " | " ++ spaces indent ++ "^")

/-- The code units of the text of a row. Every space before a caret counts as one. -/
def size (color : Bool) (width : Nat) : Row → Nat
  | .source label text marked =>
    Text.units ((Row.source label text marked).text color width).toList
  | .caret indent => Text.units ((Row.caret 0).text color width).toList + indent

end Row

def text (color : Bool) (x : Excerpt) : String :=
  "\n".intercalate (x.rows.map (Row.text color x.width))

/-- The code units of the rows of an excerpt, each with the line feed that ends it. -/
def size (color : Bool) (x : Excerpt) : Nat :=
  x.rows.foldr (fun row total => row.size color x.width + 1 + total) 0

/-! ## The rows of an excerpt -/

/-- The lines of a source text. -/
def lines (source : String) : List String := (source.toList.splitOn '\n').map String.ofList

/-- How far in the caret of a column stands. -/
def caretIndent (column : Decimal) : Nat :=
  match column.toInt? with
  | some column => (column - 1).toNat
  | none => (Binary64.wholePart (Binary64.rounded (column.value - 1))).toNat

/-- The rows of a source line. A caret follows the marked one. -/
def rowsOf (label text : String) (marked : Bool) (column : Decimal) : List Row :=
  .source label text marked :: if marked then [.caret (caretIndent column)] else []

/-- The excerpt of a line and of `count` lines on both sides of it, as far as there are any. -/
def around (lines : List String) (line : Int) (column : Decimal) (count : Nat) : Excerpt :=
  let first := max 1 (line.toNat - count)
  let last := min lines.length (line.toNat + count)
  let shown := ((lines.zipIdx 1).take last).drop (first - 1)
  ⟨(toString last).length,
    shown.flatMap fun (text, number) =>
      rowsOf (toString number) text (decide ((number : Int) = line)) column⟩

/-! ## Lines and contexts that are not whole -/

/-- The numbers from a first to a last one, each one more than the one before it, rounded to
double precision. At most `fuel` of them are listed. -/
def steps (first last : Rat) : Nat → List Rat
  | 0 => []
  | fuel + 1 =>
    if last < first then []
    else first :: steps (Binary64.rounded (first + 1)) last fuel

/-- The text of the line with a number. No line has a number that is not whole. -/
def lineAt (lines : List String) (number : Rat) : String :=
  if number.den = 1 then (lines[number.num.toNat - 1]?).getD "" else "undefined"

/-- The excerpt as far as an amount reaches to both sides of a line. The bounds are rounded to
double precision. They need not be whole, and then the numbers between them are not. -/
def between (lines : List String) (line : Rat) (column : Decimal) (amount : Rat) : Excerpt :=
  let amount := if amount.num < 0 then 0 else amount
  let below := Binary64.rounded (line - amount)
  let above := Binary64.rounded (line + amount)
  let first := if below < 1 then 1 else below
  let last := if (lines.length : Rat) < above then (lines.length : Rat) else above
  ⟨(Decimal.textOf last).length,
    (steps first last lines.length).flatMap fun number =>
      rowsOf (Decimal.textOf number) (lineAt lines number) (decide (number = line)) column⟩

/-- The lines that an amount of context stands for, if it is whole. An amount below zero stands for
none. -/
def reach? (amount : Decimal) : Option Nat := (amount.toInt?.map Int.toNat).or amount.toCount?

/-- The excerpt of a source text around a position. It has no rows when the text has no such
line. -/
def ofSource (source : String) (pos : Position) (contextLines : Decimal) : Excerpt :=
  let lines := lines source
  match pos.line.toInt?, reach? contextLines with
  | some line, some count =>
    if line < 1 ∨ (lines.length : Int) < line then ⟨0, []⟩
    else around lines line pos.column count
  | _, _ =>
    let line := pos.line.value
    if line < 1 ∨ (lines.length : Rat) < line then ⟨0, []⟩
    else between lines line pos.column contextLines.value

end Excerpt

/-- The excerpt of a source text around a position, as a text. It is empty when the source has
no such line. -/
def excerpt (source : String) (pos : Position) (view : View) : String :=
  (Excerpt.ofSource source pos view.contextLines).text view.color

/-- The excerpt of a source text around any position, unless it is too long for a text. -/
def excerptWithin (source : String) (pos : Position) (view : View) : Except TextError String :=
  let x := Excerpt.ofSource source pos view.contextLines
  if Text.longest + 1 < x.size view.color then .error .tooLong else .ok (x.text view.color)

/-! ## Whole reports -/

namespace Report

/-- The first line of a report. -/
def header (color : Bool) (message : String) : String :=
  Style.red.paint color (Style.bold.paint color "Error:") ++ " " ++ message

/-- The report of a message at a position of a source text. -/
def atPosition (message : String) (pos : Position) (source : String) (view : View) : String :=
  let shown := excerpt source pos view
  if shown = "" then header view.color message
  else header view.color message ++ "\n\n" ++ shown

/-- The report of a fault in a source text. -/
def ofDiagnostic (d : Diagnostic) (source : String) (view : View) : String :=
  atPosition d.message d.pos source view

def ofProblem (p : Problem) (source : String) (view : View) : String :=
  match p with
  | .fault d => ofDiagnostic d source view
  | _ => header view.color p.text

/-! ## Reports of any length -/

/-- The report of a message at any position, unless it is too long for a text. A line feed
after every row, and one more, is what the parts have between them. -/
def atPositionWithin (message : String) (pos : Position) (source : String) (view : View) :
    Except TextError String :=
  let size := Text.units (header view.color message).toList +
    (Excerpt.ofSource source pos view.contextLines).size view.color + 1
  if Text.longest < size then .error .tooLong else .ok (atPosition message pos source view)

/-- The report of any problem, unless it is too long for a text. -/
def ofProblemWithin (p : Problem) (source : String) (view : View) : Except TextError String :=
  match p with
  | .fault d => atPositionWithin d.message d.pos source view
  | _ => .ok (header view.color p.text)

end Report

end PostfixMath
