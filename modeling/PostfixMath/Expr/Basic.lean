-- The four arithmetic operators, and expression trees over them. Every node keeps the position it
-- was written at. Walks go over a tree in postfix order, operands first, then their operator; the
-- postfix text of a tree and its counts are read off such a walk.
import PostfixMath.Position

namespace PostfixMath

/-- An arithmetic operator of two operands. -/
inductive Operator where
  | plus
  | minus
  | times
  | over
deriving DecidableEq, Repr, Inhabited

namespace Operator

/-- The operators, in the order of their tables. -/
def all : List Operator := [.plus, .minus, .times, .over]

/-- The character of an operator in postfix text. -/
def char : Operator → Char
  | .plus => '+'
  | .minus => '-'
  | .times => '*'
  | .over => '/'

/-- The spelling of an operator in postfix text. -/
def symbol (op : Operator) : String := String.ofList [op.char]

def ofChar? (c : Char) : Option Operator := all.find? fun op => op.char == c

def ofSymbol? (s : String) : Option Operator := all.find? fun op => op.symbol == s

/-- The name of an operator among the kinds of tokens. -/
def name : Operator → String
  | .plus => "plus"
  | .minus => "minus"
  | .times => "mult"
  | .over => "div"

def ofName? (s : String) : Option Operator := all.find? fun op => op.name == s

/-- How tightly an operator binds in a formula. -/
def rank : Operator → Nat
  | .plus | .minus => 1
  | .times | .over => 2

/-- The spelling of an operator in a formula. -/
def latex : Operator → String
  | .plus => "+"
  | .minus => "-"
  | .times => "\\times"
  | .over => "\\div"

theorem mem_all (op : Operator) : op ∈ all := by
  cases op <;> simp [all]

@[simp]
theorem ofChar?_char (op : Operator) : ofChar? op.char = some op := by
  cases op <;> rfl

@[simp]
theorem ofName?_name (op : Operator) : ofName? op.name = some op := by
  cases op <;> rfl

end Operator

/-! ## Trees -/

/-- An arithmetic expression over numerals. A tree that is built by hand may hold any text
as a numeral. -/
inductive Expr where
  | number (value : String) (pos : Position)
  | binary (op : Operator) (left right : Expr) (pos : Position)
deriving DecidableEq, Repr, Inhabited

namespace Expr

/-- The operator of a node that has one. -/
def operator? : Expr → Option Operator
  | .number _ _ => none
  | .binary op _ _ _ => some op

end Expr

/-! ## Walks -/

/-- A node that a walk comes by: its operator or numeral, its position, and the operator
above it. -/
structure Visit where
  operator : Option Operator
  label : String
  pos : Position
  above : Option Operator
deriving DecidableEq, Repr

/-- How many nodes, numerals and operators a tree has, and how deep it is. -/
structure Stats where
  nodes : Nat
  numbers : Nat
  operators : Nat
  depth : Nat
deriving DecidableEq, Repr

namespace Expr

/-- The nodes of a tree in postfix order, below an operator. -/
def visitsBelow (above : Option Operator) : Expr → List Visit
  | .number value pos => [⟨none, value, pos, above⟩]
  | .binary op left right pos =>
    left.visitsBelow (some op) ++ right.visitsBelow (some op) ++
      [⟨some op, op.symbol, pos, above⟩]

def visits (e : Expr) : List Visit := e.visitsBelow none

/-- The postfix text of a tree, with a space between every two items. -/
def toPostfix (e : Expr) : String := " ".intercalate (e.visits.map Visit.label)

/-- The nodes on a longest way from the root of a tree to a numeral. -/
def depth : Expr → Nat
  | .number _ _ => 1
  | .binary _ left right _ => 1 + max left.depth right.depth

def stats (e : Expr) : Stats :=
  let operators := e.visits.countP fun v => v.operator.isSome
  ⟨e.visits.length, e.visits.length - operators, operators, e.depth⟩

end Expr

end PostfixMath
