-- The whole way from postfix text to inline math: tokens are read on a stack, the tree that is left
-- becomes a formula, and what goes wrong on the way is told with its place.
import PostfixMath.Token.Scan

namespace PostfixMath

/-! ## Reading

The stack has its top first: an operand goes onto it, an operator takes two trees off it and puts
one back, and in the end one tree must be left. -/

/-- Why tokens are no postfix expression. -/
inductive ReadError.Cause where
  | missingOperands (op : Operator)
  | empty
  | leftOver (count : Nat)
deriving DecidableEq, Repr

def ReadError.Cause.message : ReadError.Cause → String
  | .missingOperands op => "Operator '" ++ op.symbol ++ "' requires two operands"
  | .empty => "Empty expression"
  | .leftOver count =>
    "Invalid RPN: " ++ toString count ++ " values remain on stack (missing operators?)"

/-- A cause, and the token at which it shows. -/
structure ReadError where
  cause : ReadError.Cause
  token : Token
deriving DecidableEq, Repr

namespace Expr

/-- The stack after one token. Every token but an operator is an operand. -/
def push (stack : List Expr) (t : Token) : Except ReadError (List Expr) :=
  match t.kind with
  | .operator op =>
    match stack with
    | right :: left :: below => .ok (.binary op left right t.pos :: below)
    | _ => .error ⟨.missingOperands op, t⟩
  | _ => .ok (.number t.text t.pos :: stack)

/-- The tree that is left at the end of the text. -/
def finish (stack : List Expr) (eof : Token) : Except ReadError Expr :=
  match stack with
  | [] => .error ⟨.empty, eof⟩
  | [tree] => .ok tree
  | _ => .error ⟨.leftOver stack.length, eof⟩

/-- Reads tokens onto a stack. The first end of the text ends the reading, and `last` is the
end of a list that has none. -/
def readFrom (last : Token) (stack : List Expr) : List Token → Except ReadError Expr
  | [] => finish stack last
  | t :: ts =>
    if t.kind = .eof then finish stack t
    else
      match push stack t with
      | .ok stack => readFrom last stack ts
      | .error e => .error e

/-- The tree of a list of postfix tokens. -/
def ofTokens (ts : List Token) : Except ReadError Expr := readFrom (Token.eofAfter ts) [] ts

end Expr

/-! ## Formulas

The items of an expression in infix order. Parentheses stand only around an operand that needs
them. -/

/-- An item of a formula. -/
inductive Formula.Item where
  | numeral (value : String)
  | operator (op : Operator)
  | opening
  | closing
deriving DecidableEq, Repr

def Formula.Item.text : Formula.Item → String
  | .numeral value => value
  | .operator op => op.latex
  | .opening => "("
  | .closing => ")"

/-- The text of a formula: its items with a space between every two. -/
def Formula.text (items : List Formula.Item) : String :=
  " ".intercalate (items.map Formula.Item.text)

namespace Expr

/-- Whether an operand stands in parentheses below an operator of this rank: it binds less
tightly, or it is a difference or a quotient of the same rank on the right. -/
def needsParens (child : Expr) (rank : Int) (onRight : Bool) : Bool :=
  match child with
  | .number _ _ => false
  | .binary op _ _ _ =>
    if (op.rank : Int) < rank then true
    else decide ((op.rank : Int) = rank) && onRight && (op == .minus || op == .over)

/-- Whether an operand stands in parentheses below a rank that need not be an operator's. A
rank that is not whole is above the same operators as the next whole one, and equal to none. -/
def needsParensBelow (child : Expr) (rank : Decimal) (onRight : Bool) : Bool :=
  match rank.toInt? with
  | some rank => child.needsParens rank onRight
  | none => child.needsParens rank.value.ceil false

/-- Items in parentheses, if they need them. -/
def wrap (needed : Bool) (items : List Formula.Item) : List Formula.Item :=
  if needed then .opening :: items ++ [.closing] else items

/-- The formula of an expression. -/
def formula : Expr → List Formula.Item
  | .number value _ => [.numeral value]
  | .binary op left right _ =>
    wrap (left.needsParens op.rank false) left.formula ++
      .operator op :: wrap (right.needsParens op.rank true) right.formula

/-- The inline math of an expression. -/
def latex (e : Expr) : String := "$" ++ Formula.text e.formula ++ "$"

end Expr

/-! ## Diagnostics

What went wrong in a text, and where. Any other problem is known by its message alone. -/

/-- A fault that belongs to a place of the source text. -/
inductive Diagnostic where
  | scan (message : String) (pos : Position) (offset : Decimal)
  | read (message : String) (token : Token)
deriving DecidableEq, Repr

namespace Diagnostic

def message : Diagnostic → String
  | .scan message _ _ => message
  | .read message _ => message

def pos : Diagnostic → Position
  | .scan _ pos _ => pos
  | .read _ token => token.pos

/-- The part of the work that found the fault. -/
def stage : Diagnostic → String
  | .scan _ _ _ => "lexer"
  | .read _ _ => "parser"

def name : Diagnostic → String
  | .scan _ _ _ => "LexerError"
  | .read _ _ => "ParserError"

/-- The fault in one line. -/
def describe (d : Diagnostic) : String := d.name ++ " at " ++ d.pos.brief ++ ": " ++ d.message

end Diagnostic

def ScanError.diagnostic (e : ScanError) : Diagnostic :=
  .scan e.message e.cursor.position (.ofNat e.cursor.offset)

def ReadError.diagnostic (e : ReadError) : Diagnostic := .read e.cause.message e.token

/-- Anything that can be reported: a fault in a text, a message, or something unknown. -/
inductive Problem where
  | fault (d : Diagnostic)
  | message (text : String)
  | unknown
deriving DecidableEq, Repr

namespace Problem

def text : Problem → String
  | .fault d => d.message
  | .message text => text
  | .unknown => "Unknown error"

/-- Whether a problem belongs to a place of the source text. -/
def isFault : Problem → Bool
  | .fault _ => true
  | _ => false

end Problem

/-! ## Conversions -/

/-- A text that was converted: its tokens and its tree. -/
structure Conversion where
  tokens : List Token
  tree : Expr
deriving DecidableEq, Repr

namespace Conversion

def latex (c : Conversion) : String := c.tree.latex

end Conversion

/-- Converts a text, or says what is wrong with it. -/
def convert (text : String) : Except Diagnostic Conversion :=
  match Token.scan text with
  | .error e => .error e.diagnostic
  | .ok tokens =>
    match Expr.ofTokens tokens with
    | .error e => .error e.diagnostic
    | .ok tree => .ok ⟨tokens, tree⟩

/-- The tree of a text, or what is wrong with the text. -/
def parse (text : String) : Except Diagnostic Expr := (convert text).map Conversion.tree

end PostfixMath
