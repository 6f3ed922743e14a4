-- Places in a text: the line and column that are shown, and the cursor that a scan moves
-- over the text. Lines and columns count from one, and columns count code units. No text has
-- more than so many units.
import PostfixMath.Number.Binary64

namespace PostfixMath

/-- A line and a column. Trees and tokens that are built by hand may name any two numbers. -/
structure Position where
  line : Decimal
  column : Decimal
deriving DecidableEq, Repr, Inhabited

namespace Position

/-- The short form, `line:column`. -/
def brief (p : Position) : String := p.line.text ++ ":" ++ p.column.text

/-- The position in words. -/
def inWords (p : Position) : String :=
  "Line " ++ p.line.text ++ ", column " ++ p.column.text

end Position

/-- Where a scan stands in its text. -/
structure Cursor where
  line : Nat
  column : Nat
  offset : Nat
deriving DecidableEq, Repr

namespace Cursor

def start : Cursor := ⟨1, 1, 0⟩

/-- The cursor after one character: a line feed starts a new line, and every other
character moves along its line. -/
def step (cur : Cursor) (c : Char) : Cursor :=
  if c = '\n' then ⟨cur.line + 1, 1, cur.offset + 1⟩
  else ⟨cur.line, cur.column + Text.unitsOf c, cur.offset + Text.unitsOf c⟩

def advance (cur : Cursor) (cs : List Char) : Cursor := cs.foldl step cur

def position (cur : Cursor) : Position := ⟨.ofNat cur.line, .ofNat cur.column⟩

@[simp]
theorem advance_nil (cur : Cursor) : cur.advance [] = cur := rfl

@[simp]
theorem advance_cons (cur : Cursor) (c : Char) (cs : List Char) :
    cur.advance (c :: cs) = (cur.step c).advance cs := rfl

@[simp]
theorem advance_append (cur : Cursor) (as bs : List Char) :
    cur.advance (as ++ bs) = (cur.advance as).advance bs := by
  simp [advance]

@[simp]
theorem offset_step (cur : Cursor) (c : Char) :
    (cur.step c).offset = cur.offset + Text.unitsOf c := by
  unfold step
  split
  · rename_i h
    rw [h]
    rfl
  · rfl

@[simp]
theorem offset_advance (cur : Cursor) (cs : List Char) :
    (cur.advance cs).offset = cur.offset + Text.units cs := by
  induction cs generalizing cur with
  | nil => rfl
  | cons c cs ih => rw [advance_cons, ih, offset_step, Text.units_cons, Nat.add_assoc]

end Cursor

/-! ## Texts that cannot be built -/

/-- Why a text cannot be built. -/
inductive TextError where
  | badCount (count : Decimal)
  | tooLong
deriving DecidableEq, Repr

namespace TextError

def message : TextError → String
  | .badCount count => "Invalid count value: " ++ Decimal.textOf count.value
  | .tooLong => "Invalid string length"

end TextError

/-- The longest text, in code units. -/
def Text.longest : Nat := 536870888

end PostfixMath
