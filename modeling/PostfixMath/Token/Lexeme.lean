-- Lexemes: the pieces that a text is cut into, white space included. A piece is as long
-- as it can be. A text that does not start with a piece is one unknown piece to its end,
-- so the pieces always join up to the text.
import PostfixMath.Expr.Basic

namespace PostfixMath

/-- What a lexeme is. An unknown one is named after its first character. -/
inductive Lexeme.Kind where
  | space
  | number
  | operator (op : Operator)
  | unknown (first : Char)
deriving DecidableEq, Repr

namespace Lexeme

def Kind.name : Kind → String
  | .space => "ws"
  | .number => "number"
  | .operator op => op.name
  | .unknown _ => "invalid"

/-! ## One piece -/

/-- The white space between tokens. -/
def isSpace (c : Char) : Bool := c == ' ' || c == '\t' || c == '\r' || c == '\n'

/-- A point and the digits after it at the front of a text, and the rest. A point without
digits is left in the rest. -/
def takePointed : List Char → List Char × List Char
  | '.' :: cs =>
    if cs.takeWhile Char.isDigit = [] then ([], '.' :: cs)
    else ('.' :: cs.takeWhile Char.isDigit, cs.dropWhile Char.isDigit)
  | cs => ([], cs)

/-- The digits at the front of a text with their fraction, and the rest. -/
def takeUnsigned (cs : List Char) : Option (List Char × List Char) :=
  if cs.takeWhile Char.isDigit = [] then none
  else
    let (fraction, rest) := takePointed (cs.dropWhile Char.isDigit)
    some (cs.takeWhile Char.isDigit ++ fraction, rest)

/-- The numeral at the front of a text, and the rest. A minus sign belongs to the digits
that directly follow it. -/
def takeNumeral : List Char → Option (List Char × List Char)
  | '-' :: cs =>
    match takeUnsigned cs with
    | some (numeral, rest) => some ('-' :: numeral, rest)
    | none => none
  | cs => takeUnsigned cs

/-- A piece that was cut off, and the text after it. -/
structure Cut where
  kind : Kind
  text : List Char
  rest : List Char
deriving DecidableEq, Repr

/-- Cuts the first piece off a text that starts with `c`. -/
def cut (c : Char) (cs : List Char) : Cut :=
  if isSpace c then ⟨.space, c :: cs.takeWhile isSpace, cs.dropWhile isSpace⟩
  else
    match takeNumeral (c :: cs) with
    | some (numeral, rest) => ⟨.number, numeral, rest⟩
    | none =>
      match Operator.ofChar? c with
      | some op => ⟨.operator op, [c], cs⟩
      | none => ⟨.unknown c, c :: cs, []⟩

/-! ## Pieces join up to the text -/

theorem takePointed_append (cs : List Char) :
    (takePointed cs).1 ++ (takePointed cs).2 = cs := by
  unfold takePointed
  split
  · split
    · rfl
    · simp
  · rfl

theorem takeUnsigned_append {cs numeral rest : List Char}
    (h : takeUnsigned cs = some (numeral, rest)) : numeral ++ rest = cs ∧ numeral ≠ [] := by
  unfold takeUnsigned at h
  split at h
  · simp at h
  · rename_i hne
    simp only [Option.some.injEq, Prod.mk.injEq] at h
    obtain ⟨rfl, rfl⟩ := h
    refine ⟨?_, by simp [hne]⟩
    rw [List.append_assoc, takePointed_append, List.takeWhile_append_dropWhile]

theorem takeNumeral_append {cs numeral rest : List Char}
    (h : takeNumeral cs = some (numeral, rest)) : numeral ++ rest = cs ∧ numeral ≠ [] := by
  unfold takeNumeral at h
  split at h
  · split at h
    · rename_i hu
      simp only [Option.some.injEq, Prod.mk.injEq] at h
      obtain ⟨rfl, rfl⟩ := h
      exact ⟨by simp [(takeUnsigned_append hu).1], by simp⟩
    · simp at h
  · exact takeUnsigned_append h

theorem cut_append (c : Char) (cs : List Char) :
    (cut c cs).text ++ (cut c cs).rest = c :: cs ∧ (cut c cs).text ≠ [] := by
  unfold cut
  split
  · simp
  · split
    · rename_i hn
      exact takeNumeral_append hn
    · split <;> simp

theorem cut_rest_length (c : Char) (cs : List Char) :
    (cut c cs).rest.length < (c :: cs).length := by
  obtain ⟨happ, hne⟩ := cut_append c cs
  rw [← happ, List.length_append]
  have := List.length_pos_iff.2 hne
  omega

end Lexeme

/-! ## All pieces -/

/-- A piece of a text, and the cursor where it starts. -/
structure Lexeme where
  kind : Lexeme.Kind
  text : List Char
  start : Cursor
deriving DecidableEq, Repr

namespace Lexeme

def lineBreaks (l : Lexeme) : Nat := l.text.count '\n'

/-- The pieces of a text, for a scan that stands at a cursor. -/
def split (cur : Cursor) : List Char → List Lexeme
  | [] => []
  | c :: cs =>
    ⟨(cut c cs).kind, (cut c cs).text, cur⟩ ::
      split (cur.advance (cut c cs).text) (cut c cs).rest
termination_by cs => cs.length
decreasing_by exact cut_rest_length c cs

end Lexeme

end PostfixMath
