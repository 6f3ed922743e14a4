-- The tokens of postfix text, and the scan that finds them. A text is taken lexeme by lexeme. Its
-- tokens are the lexemes without the white space, and the end of the text. The first unknown
-- lexeme is an error at its first character.
import PostfixMath.Token.Lexeme

namespace PostfixMath

/-! ## Tokens -/

/-- What a token is. A list of tokens that is built by hand may use names of its own. -/
inductive Token.Kind where
  | number
  | operator (op : Operator)
  | eof
  | other (name : String)
deriving DecidableEq, Repr, Inhabited

namespace Token.Kind

def name : Kind → String
  | .number => "number"
  | .operator op => op.name
  | .eof => "eof"
  | .other name => name

def ofName (s : String) : Kind :=
  if s = "number" then .number
  else if s = "eof" then .eof
  else
    match Operator.ofName? s with
    | some op => .operator op
    | none => .other s

def isOperator : Kind → Bool
  | .operator _ => true
  | _ => false

end Token.Kind

/-- A token: its kind, the text it was cut from, and where that text starts. -/
structure Token where
  kind : Token.Kind
  text : String
  pos : Position
  offset : Decimal
deriving DecidableEq, Repr, Inhabited

namespace Token

/-- The token that starts at a cursor. -/
def ofCursor (kind : Kind) (text : List Char) (cur : Cursor) : Token :=
  ⟨kind, String.ofList text, cur.position, .ofNat cur.offset⟩

/-- The end of a text, at a cursor. -/
def eof (cur : Cursor) : Token := ofCursor .eof [] cur

/-- One line that shows a token. -/
def describe (t : Token) : String :=
  t.kind.name ++ " '" ++ t.text ++ "' " ++ t.pos.brief

/-- The end of the text, just past the last token of a list. -/
def eofAfter (ts : List Token) : Token :=
  match ts.getLast? with
  | none => eof .start
  | some last =>
    let size := Text.units last.text.toList
    ⟨.eof, "", ⟨last.pos.line, last.pos.column.plus size⟩, last.offset.plus size⟩

end Token

/-! ## Scans -/

/-- A scan in progress: where it stands, and the text that is left. -/
structure Scan where
  cursor : Cursor
  rest : List Char
deriving DecidableEq, Repr

namespace Scan

/-- A scan of a new text. Its lines and columns may go on from an earlier one. -/
def begin (text : String) (line column : Nat) : Scan := ⟨⟨line, column, 0⟩, text.toList⟩

/-- The next piece, and the scan after it. -/
def next? (s : Scan) : Option (Lexeme × Scan) :=
  match s.rest with
  | [] => none
  | c :: cs =>
    let piece := Lexeme.cut c cs
    some (⟨piece.kind, piece.text, s.cursor⟩, ⟨s.cursor.advance piece.text, piece.rest⟩)

/-- The pieces that are left. -/
def remaining (s : Scan) : List Lexeme := Lexeme.split s.cursor s.rest

/-- The scan after all of its text. -/
def finish (s : Scan) : Scan := ⟨s.cursor.advance s.rest, []⟩

end Scan

/-- A character that starts no token, and where it stands. -/
structure ScanError where
  char : Char
  cursor : Cursor
deriving DecidableEq, Repr

namespace ScanError

def message (e : ScanError) : String :=
  "Unexpected character '" ++ String.ofList [e.char] ++ "'"

end ScanError

namespace Token

/-- Puts a token before the tokens of the rest of a text. -/
def before (t : Token) : Except ScanError (List Token) → Except ScanError (List Token)
  | .ok ts => .ok (t :: ts)
  | .error e => .error e

/-- The tokens of a list of lexemes, with the end of the text at a cursor. -/
def ofLexemes (last : Cursor) : List Lexeme → Except ScanError (List Token)
  | [] => .ok [eof last]
  | l :: ls =>
    match l.kind with
    | .space => ofLexemes last ls
    | .number => (ofCursor .number l.text l.start).before (ofLexemes last ls)
    | .operator op => (ofCursor (.operator op) l.text l.start).before (ofLexemes last ls)
    | .unknown c => .error ⟨c, l.start⟩

def scan (text : String) : Except ScanError (List Token) :=
  let s := Scan.begin text 1 1
  ofLexemes s.finish.cursor s.remaining

end Token

end PostfixMath
