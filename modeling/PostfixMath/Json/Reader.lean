-- The strict reader of JSON texts. A text is first cut into tokens, and the
-- tokens are then read in one pass that keeps the open arrays and objects in a context.
import PostfixMath.Json.Basic

namespace PostfixMath.Json

/-! ## Strings -/

def hexUnit? (a b c d : Char) : Option Nat := do
  let a ← Text.hexValue? a
  let b ← Text.hexValue? b
  let c ← Text.hexValue? c
  let d ← Text.hexValue? d
  some (((a * 16 + b) * 16 + c) * 16 + d)

/-- The character that follows a backslash in a string, and what it stands for. -/
def escape? : Char → Option Char
  | '"' => some '"'
  | '\\' => some '\\'
  | '/' => some '/'
  | 'b' => some '\x08'
  | 'f' => some '\x0c'
  | 'n' => some '\n'
  | 'r' => some '\r'
  | 't' => some '\t'
  | _ => none

/-- A part of a string: a character, or a code unit that is written by its number. -/
inductive Part where
  | char (c : Char)
  | unit (n : Nat)
deriving DecidableEq, Repr

/-- Puts a part before the parts of a string that was read. -/
def Part.before (p : Part) : Option (List Part × List Char) → Option (List Part × List Char)
  | some (parts, rest) => some (p :: parts, rest)
  | none => none

theorem Part.before_eq_some {p : Part} {read : Option (List Part × List Char)}
    {ps : List Part} {rest : List Char} (h : p.before read = some (ps, rest)) :
    ∃ qs, read = some (qs, rest) ∧ ps = p :: qs := by
  cases read with
  | none => simp [before] at h
  | some r =>
    simp only [before, Option.some.injEq, Prod.mk.injEq] at h
    exact ⟨r.1, by simp [← h.2], h.1.symm⟩

/-- The parts of a string after its opening quote, and what follows its closing quote. -/
def parts? : List Char → Option (List Part × List Char)
  | [] => none
  | '"' :: cs => some ([], cs)
  | '\\' :: 'u' :: a :: b :: c :: d :: cs =>
    match hexUnit? a b c d with
    | some n => (Part.unit n).before (parts? cs)
    | none => none
  | '\\' :: c :: cs =>
    match escape? c with
    | some e => (Part.char e).before (parts? cs)
    | none => none
  | c :: cs => if c < ' ' then none else (Part.char c).before (parts? cs)

/-- Whether a code unit is the first half of a pair. -/
def isHigh (n : Nat) : Bool := 0xD800 ≤ n && n < 0xDC00

/-- Whether a code unit is the second half of a pair. -/
def isLow (n : Nat) : Bool := 0xDC00 ≤ n && n < 0xE000

/-- The character of one code unit; half of a pair alone is the replacement character. -/
def loneUnit (n : Nat) : Char :=
  if isHigh n || isLow n then '�' else Char.ofNat n

/-- The characters of a string: two halves of a pair become one character. -/
def joinParts : List Part → List Char
  | [] => []
  | .char c :: ps => c :: joinParts ps
  | .unit h :: .unit l :: ps =>
    if isHigh h && isLow l then
      Char.ofNat (0x10000 + (h - 0xD800) * 0x400 + (l - 0xDC00)) :: joinParts ps
    else loneUnit h :: joinParts (.unit l :: ps)
  | .unit n :: ps => loneUnit n :: joinParts ps

/-! ## Tokens -/

inductive Token where
  | openArray
  | closeArray
  | openObject
  | closeObject
  | colon
  | comma
  | text (s : String)
  | atom (value : Json)

/-- The digits before the point: a zero alone, or digits that do not start with one. -/
def takeWhole (cs : List Char) : Option (List Char × List Char) :=
  match Decimal.takeDigits cs with
  | ([], _) => none
  | (d :: ds, rest) => if d = '0' ∧ ds ≠ [] then none else some (d :: ds, rest)

/-- The number at the front of a text that starts after its sign. -/
def takeUnsigned (negative : Bool) (cs : List Char) : Option (Decimal × List Char) :=
  match takeWhole cs with
  | none => none
  | some (whole, cs) =>
    let (fraction, cs) := Decimal.takeFraction cs
    let (exponent, cs) := Decimal.takeExponent cs
    some (.ofParts negative whole fraction exponent, cs)

def takeNumber : List Char → Option (Decimal × List Char)
  | '-' :: cs => takeUnsigned true cs
  | cs => takeUnsigned false cs

/-- The token at the front of a text that does not start with white space. -/
def takeToken : List Char → Option (Token × List Char)
  | '[' :: cs => some (.openArray, cs)
  | ']' :: cs => some (.closeArray, cs)
  | '\x7b' :: cs => some (.openObject, cs)
  | '\x7d' :: cs => some (.closeObject, cs)
  | ':' :: cs => some (.colon, cs)
  | ',' :: cs => some (.comma, cs)
  | '"' :: cs =>
    match parts? cs with
    | some (ps, rest) => some (.text (String.ofList (joinParts ps)), rest)
    | none => none
  | 'n' :: 'u' :: 'l' :: 'l' :: cs => some (.atom .null, cs)
  | 't' :: 'r' :: 'u' :: 'e' :: cs => some (.atom (.bool true), cs)
  | 'f' :: 'a' :: 'l' :: 's' :: 'e' :: cs => some (.atom (.bool false), cs)
  | cs =>
    match takeNumber cs with
    | some (d, rest) => some (.atom (.number d), rest)
    | none => none

def isSpace (c : Char) : Bool := c == ' ' || c == '\t' || c == '\n' || c == '\r'

/-! ## What follows a token is shorter -/

theorem parts?_length (cs : List Char) {ps : List Part} {rest : List Char}
    (h : parts? cs = some (ps, rest)) : rest.length < cs.length := by
  fun_induction parts? cs generalizing ps rest <;>
    grind [Part.before_eq_some]

theorem takeWhole_length {cs whole rest : List Char} (h : takeWhole cs = some (whole, rest)) :
    rest.length < cs.length := by
  have := Decimal.takeDigits_append cs
  unfold takeWhole at h
  grind

theorem takeUnsigned_length {negative : Bool} {cs rest : List Char} {d : Decimal}
    (h : takeUnsigned negative cs = some (d, rest)) : rest.length < cs.length := by
  unfold takeUnsigned at h
  split at h
  · simp at h
  · rename_i whole after hw
    simp only [Option.some.injEq, Prod.mk.injEq] at h
    have := takeWhole_length hw
    have := Decimal.takeFraction_length after
    have := Decimal.takeExponent_length (Decimal.takeFraction after).2
    rw [← h.2]
    omega

theorem takeNumber_length {cs rest : List Char} {d : Decimal}
    (h : takeNumber cs = some (d, rest)) : rest.length < cs.length := by
  unfold takeNumber at h
  grind [→ takeUnsigned_length]

theorem takeToken_length {cs rest : List Char} {t : Token}
    (h : takeToken cs = some (t, rest)) : rest.length < cs.length := by
  unfold takeToken at h
  grind [→ parts?_length, → takeNumber_length]

/-! ## Values -/

def tokens? : List Char → Option (List Token)
  | [] => some []
  | c :: cs =>
    if isSpace c then tokens? cs
    else
      match h : takeToken (c :: cs) with
      | none => none
      | some (t, rest) =>
        have := takeToken_length h
        (tokens? rest).map (t :: ·)
termination_by cs => cs.length
decreasing_by
  · exact Nat.lt_succ_self cs.length
  · assumption

/-- What a value is inside of: the items or fields before it, the latest one first. -/
inductive Context where
  | whole
  | item (before : List Json) (outer : Context)
  | field (before : List (String × Json)) (name : String) (outer : Context)

mutual

/-- Reads a value inside a context, and then the rest of the text. -/
def readValue (context : Context) : List Token → Option Json
  | .atom v :: ts => readOn context v ts
  | .text s :: ts => readOn context (.string s) ts
  | .openArray :: .closeArray :: ts => readOn context (.array []) ts
  | .openArray :: ts => readValue (.item [] context) ts
  | .openObject :: .closeObject :: ts => readOn context (.object []) ts
  | .openObject :: .text name :: .colon :: ts => readValue (.field [] name context) ts
  | _ => none

/-- Reads on after a value: the context says which tokens may follow. -/
def readOn (context : Context) (v : Json) (ts : List Token) : Option Json :=
  match context, ts with
  | .whole, [] => some v
  | .item before outer, .comma :: ts => readValue (.item (v :: before) outer) ts
  | .item before outer, .closeArray :: ts => readOn outer (.array (v :: before).reverse) ts
  | .field before name outer, .comma :: .text next :: .colon :: ts =>
    readValue (.field ((name, v) :: before) next outer) ts
  | .field before name outer, .closeObject :: ts =>
    readOn outer (.object ((name, v) :: before).reverse) ts
  | _, _ => none

end

/-- The value of a JSON text, if it is one. -/
def read? (text : String) : Option Json :=
  (tokens? text.toList).bind (readValue .whole)

end PostfixMath.Json
