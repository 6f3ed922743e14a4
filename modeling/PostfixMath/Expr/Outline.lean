-- Trees in print: as JSON records, which are read back, and as outlines. An outline has one line
-- for each node, operators before their operands, each level two spaces further in.
import PostfixMath.Expr.Basic
import PostfixMath.Json.Basic

namespace PostfixMath

/-! ## Records -/

namespace Position

/-- The two fields of a position. -/
def fields (p : Position) : List (String × Json) :=
  [("line", .number p.line), ("column", .number p.column)]

/-- The position of a record with a line and a column. -/
def ofJson? (v : Json) : Option Position := do
  let line ← (v.field? "line").bind Json.number?
  let column ← (v.field? "column").bind Json.number?
  some ⟨line, column⟩

end Position

namespace Expr

def toJson : Expr → Json
  | .number value pos =>
    .object ([("type", .string "NumberLiteral"), ("value", .string value)] ++ pos.fields)
  | .binary op left right pos =>
    .object ([("type", .string "BinaryOp"), ("operator", .string op.symbol),
      ("left", left.toJson), ("right", right.toJson)] ++ pos.fields)

/-- The node of a record, when the trees of its fields are known. -/
def ofRecord? (record : Json) (trees : List (String × Option Expr)) : Option Expr := do
  let pos ← Position.ofJson? record
  match (← (record.field? "type").bind Json.string?) with
  | "NumberLiteral" =>
    let value ← (record.field? "value").bind Json.string?
    some (.number value pos)
  | "BinaryOp" =>
    let symbol ← (record.field? "operator").bind Json.string?
    let op ← Operator.ofSymbol? symbol
    let left ← (trees.reverse.lookup "left").join
    let right ← (trees.reverse.lookup "right").join
    some (.binary op left right pos)
  | _ => none

mutual

def ofJson? : Json → Option Expr
  | .object fields => ofRecord? (.object fields) (ofFields fields)
  | _ => none

/-- The trees of the fields of a record, where they are trees. -/
def ofFields : List (String × Json) → List (String × Option Expr)
  | [] => []
  | (name, v) :: fields => (name, ofJson? v) :: ofFields fields

end

/-- The indented JSON text of a tree. -/
def serialize (e : Expr) : String := e.toJson.text

/-! ## Outlines -/

/-- The line of a node, without its indent. -/
def outlineLine : Expr → String
  | .number value pos => "NumberLiteral " ++ value ++ " @" ++ pos.brief
  | .binary op _ _ pos => "BinaryOp " ++ op.symbol ++ " @" ++ pos.brief

def levelIndent (level : Nat) : String := String.ofList (List.replicate (2 * level) ' ')

/-- The lines of an outline, where the nodes at a depth stand at the level of that depth. -/
def outlineLines (level : Nat → Nat) (depth : Nat) (e : Expr) : List String :=
  (levelIndent (level depth) ++ e.outlineLine) ::
    match e with
    | .number _ _ => []
    | .binary _ left right _ =>
      left.outlineLines level (depth + 1) ++ right.outlineLines level (depth + 1)

/-- The outline of a tree that starts at a level. -/
def outline (level : Nat) (e : Expr) : String :=
  "\n".intercalate (e.outlineLines (level + ·) 0)

/-! ## Outlines at any indent -/

/-- The code units of the lines of an outline, each with the line feed that ends it. -/
def outlineSize (level : Nat → Nat) (depth : Nat) (e : Expr) : Nat :=
  2 * level depth + Text.units e.outlineLine.toList + 1 +
    match e with
    | .number _ _ => 0
    | .binary _ left right _ =>
      left.outlineSize level (depth + 1) + right.outlineSize level (depth + 1)

/-- Whether an outline is too long for a text. Its last line has no line feed. -/
def outlineTooLong (level : Nat → Nat) (e : Expr) : Bool :=
  Text.longest + 1 < e.outlineSize level 0

/-- The levels of the first depths below an indent. Each indent is one more than the indent
above it, rounded to double precision, and its level is its whole part. -/
def levelsFrom (indent : Rat) : Nat → List Nat
  | 0 => []
  | n + 1 =>
    (Binary64.wholePart indent).toNat :: levelsFrom (Binary64.rounded (indent + 1)) n

/-- The outline of a tree that starts at any indent. There is none when the first level is
below zero or has no end, and none that is too long for a text. -/
def outlineFrom (indent : Decimal) (e : Expr) : Except TextError String :=
  let start := indent.value
  if Binary64.wholePart start < 0 ∨ start = Binary64.beyond then .error (.badCount indent)
  else
    match indent.toInt? with
    | some level =>
      if e.outlineTooLong (level.toNat + ·) then .error .tooLong
      else .ok (e.outline level.toNat)
    | none =>
      let levels := (levelsFrom start e.depth).toArray
      let level := fun depth => levels.getD depth 0
      if e.outlineTooLong level then .error .tooLong
      else .ok ("\n".intercalate (e.outlineLines level 0))

end Expr

end PostfixMath
