-- JSON values and their indented text. Numbers are kept as they are written, and an object keeps its
-- fields in order, repeated names included. In the text each item and each field stands on a line
-- of its own, two spaces further in than what holds it.
import PostfixMath.Number.Binary64

namespace PostfixMath

inductive Json where
  | null
  | bool (value : Bool)
  | number (value : Decimal)
  | string (value : String)
  | array (items : List Json)
  | object (fields : List (String × Json))
deriving Repr, Inhabited

namespace Json

/-- The field of an object with this name. Of repeated names the last one counts. -/
def field? (name : String) : Json → Option Json
  | .object fields => fields.reverse.lookup name
  | _ => none

def string? : Json → Option String
  | .string s => some s
  | _ => none

def bool? : Json → Option Bool
  | .bool b => some b
  | _ => none

def number? : Json → Option Decimal
  | .number d => some d
  | _ => none

mutual

/-- A value with every number in it rounded to double precision. -/
def rounded : Json → Json
  | .number d => .number d.rounded
  | .array items => .array (roundedItems items)
  | .object fields => .object (roundedFields fields)
  | v => v

def roundedItems : List Json → List Json
  | [] => []
  | v :: vs => v.rounded :: roundedItems vs

def roundedFields : List (String × Json) → List (String × Json)
  | [] => []
  | (name, v) :: fields => (name, v.rounded) :: roundedFields fields

end

/-! ## The text of a string -/

/-- A character as it stands in a string: quotes, backslashes and control characters are
escaped, and all others stand for themselves. -/
def escapeChar (c : Char) : List Char :=
  match c with
  | '"' => ['\\', '"']
  | '\\' => ['\\', '\\']
  | '\x08' => ['\\', 'b']
  | '\x0c' => ['\\', 'f']
  | '\n' => ['\\', 'n']
  | '\r' => ['\\', 'r']
  | '\t' => ['\\', 't']
  | c => if c < ' ' then '\\' :: 'u' :: '0' :: '0' :: Text.hexByte 'a' c.toNat else [c]

def quote (s : String) : List Char := '"' :: s.toList.flatMap escapeChar ++ ['"']

/-! ## The text of a value -/

/-- The step from a margin to the next. -/
def indent (margin : List Char) : List Char := ' ' :: ' ' :: margin

mutual

/-- The text of a value whose last line stands at a margin, before the rest of a text. -/
def write (margin rest : List Char) : Json → List Char
  | .null => 'n' :: 'u' :: 'l' :: 'l' :: rest
  | .bool true => 't' :: 'r' :: 'u' :: 'e' :: rest
  | .bool false => 'f' :: 'a' :: 'l' :: 's' :: 'e' :: rest
  | .number d => d.text.toList ++ rest
  | .string s => quote s ++ rest
  | .array [] => '[' :: ']' :: rest
  | .array items =>
    '[' :: writeItems (indent margin) ('\n' :: margin ++ ']' :: rest) items
  | .object [] => '\x7b' :: '\x7d' :: rest
  | .object fields =>
    '\x7b' :: writeFields (indent margin) ('\n' :: margin ++ '\x7d' :: rest) fields

/-- The items of an array, each on a line at a margin, before the rest of a text. -/
def writeItems (margin rest : List Char) : List Json → List Char
  | [] => rest
  | [v] => '\n' :: margin ++ write margin rest v
  | v :: vs => '\n' :: margin ++ write margin (',' :: writeItems margin rest vs) v

/-- The fields of an object, each on a line at a margin, before the rest of a text. -/
def writeFields (margin rest : List Char) : List (String × Json) → List Char
  | [] => rest
  | [(name, v)] => '\n' :: margin ++ quote name ++ ':' :: ' ' :: write margin rest v
  | (name, v) :: fields =>
    '\n' :: margin ++ quote name ++
      ':' :: ' ' :: write margin (',' :: writeFields margin rest fields) v

end

/-- The indented text of a value. -/
def text (v : Json) : String := String.ofList (write [] [] v)

end Json

end PostfixMath
