-- Decimal numbers as they are written: a sign, a whole number of digits and a power of
-- ten. The parts of a written number are read here; which parts a format admits is
-- decided by the format. One format is here too, that of a number that is typed for an option.
import PostfixMath.Text.Basic

namespace PostfixMath

/-- The number `digits * 10 ^ exponent`, with a sign. -/
structure Decimal where
  negative : Bool
  digits : Nat
  exponent : Int
deriving DecidableEq, Repr, Inhabited

namespace Decimal

def tenTo (n : Nat) : Nat := Nat.pow 10 n

def ofNat (n : Nat) : Decimal := ⟨false, n, 0⟩

def ofInt (n : Int) : Decimal := ⟨decide (n < 0), n.natAbs, 0⟩

/-- The whole number that is written without a point and an exponent. -/
def toInt? (d : Decimal) : Option Int :=
  if d.exponent = 0 then some (if d.negative then -(d.digits : Int) else d.digits) else none

/-- The number with these digits before and after the point, and this exponent. -/
def ofParts (negative : Bool) (whole fraction : List Char) (exponent : Int) : Decimal :=
  ⟨negative, Nat.ofDigitChars 10 (whole ++ fraction) 0, exponent - fraction.length⟩

/-! ## The parts of a written number -/

/-- The digits at the front of a text, and what follows them. -/
def takeDigits (cs : List Char) : List Char × List Char :=
  (cs.takeWhile Char.isDigit, cs.dropWhile Char.isDigit)

/-- The digits after a point at the front of a text. A point without digits is left alone. -/
def takeFraction : List Char → List Char × List Char
  | '.' :: cs =>
    match takeDigits cs with
    | ([], _) => ([], '.' :: cs)
    | parts => parts
  | cs => ([], cs)

/-- A sign at the front of a text, and what follows it. -/
def takeSign : List Char → Bool × List Char
  | '-' :: cs => (true, cs)
  | '+' :: cs => (false, cs)
  | cs => (false, cs)

/-- The exponent at the front of a text, zero where there is none. A mark without digits is
left alone. -/
def takeExponent : List Char → Int × List Char
  | [] => (0, [])
  | c :: cs =>
    if c = 'e' ∨ c = 'E' then
      let (negative, rest) := takeSign cs
      match takeDigits rest with
      | ([], _) => (0, c :: cs)
      | (digits, rest) =>
        let size : Int := Nat.ofDigitChars 10 digits 0
        (if negative then -size else size, rest)
    else (0, c :: cs)

/-! ## What is left is not longer -/

theorem takeDigits_length (cs : List Char) :
    (takeDigits cs).2.length ≤ cs.length :=
  (List.dropWhile_suffix Char.isDigit).length_le

theorem takeDigits_append (cs : List Char) :
    (takeDigits cs).1 ++ (takeDigits cs).2 = cs :=
  List.takeWhile_append_dropWhile

theorem takeFraction_length (cs : List Char) :
    (takeFraction cs).2.length ≤ cs.length := by
  have := takeDigits_length
  unfold takeFraction
  grind

theorem takeSign_length (cs : List Char) :
    (takeSign cs).2.length ≤ cs.length := by
  unfold takeSign
  grind

theorem takeExponent_length (cs : List Char) :
    (takeExponent cs).2.length ≤ cs.length := by
  unfold takeExponent
  grind [takeSign_length, takeDigits_length]

/-! ## The text of a number -/

/-- The text of an exponent, with its sign always shown. -/
def exponentText (e : Int) : String :=
  "e" ++ (if e < 0 then "-" else "+") ++ toString e.natAbs

/-- The text of digits with a point among them, so that `point` of them stand before it. In
front of the first digit zeros fill the gap. -/
def pointText (digits : List Char) (point : Int) : String :=
  if 0 < point then
    String.ofList (digits.take point.toNat ++ '.' :: digits.drop point.toNat)
  else "0." ++ String.ofList (List.replicate (-point).toNat '0' ++ digits)

/-- The text of a number: plain digits for a whole number, a point among the digits for a
fraction from a millionth on, else one digit, a point with the others, and an exponent. A whole
number that is held without an exponent has all its digits here, also from `10 ^ 21` on: it is
`ofRat` that holds such a number with an exponent. -/
def text (d : Decimal) : String :=
  let sign := if d.negative then "-" else ""
  if d.exponent = 0 then sign ++ toString d.digits
  else
    match Nat.toDigits 10 d.digits with
    | [] => sign ++ "0"
    | lead :: others =>
      let point : Int := d.exponent + others.length + 1
      if d.exponent < 0 ∧ -6 < point then sign ++ pointText (lead :: others) point
      else
        let fraction := if others.isEmpty then [] else '.' :: others
        sign ++ String.ofList (lead :: fraction) ++ exponentText (point - 1)

/-! ## Numbers as they are typed

Blanks around them do not matter, an empty text is zero, and digits of base 16, 8 or 2 follow a
mark. -/

/-- The value of digits in a base. A text with any other character, or with none, has no
value. -/
def radixValue? (base : Nat) : List Char → Option Nat
  | [] => none
  | cs =>
    cs.foldl
      (fun value c => do
        let value ← value
        let digit ← Text.hexValue? c
        if digit < base then some (value * base + digit) else none)
      (some 0)

/-- The base that a letter after a leading zero stands for. -/
def radixOf? (c : Char) : Option Nat :=
  if c = 'x' ∨ c = 'X' then some 16
  else if c = 'o' ∨ c = 'O' then some 8
  else if c = 'b' ∨ c = 'B' then some 2
  else none

/-- The number of a text without a sign: digits, a point among them or at either end, and an
exponent. -/
def ofUnsigned? (negative : Bool) (cs : List Char) : Option Decimal :=
  let (whole, rest) := takeDigits cs
  let (fraction, rest) :=
    match rest with
    | '.' :: rest => takeDigits rest
    | rest => ([], rest)
  if whole = [] ∧ fraction = [] then none
  else
    match takeExponent rest with
    | (exponent, []) => some (.ofParts negative whole fraction exponent)
    | _ => none

/-- The number of a text with an optional sign. -/
def ofSigned? (cs : List Char) : Option Decimal :=
  let (negative, rest) := takeSign cs
  ofUnsigned? negative rest

/-- The finite number that a typed text stands for. -/
def ofTyped? (text : String) : Option Decimal :=
  match Text.trim text.toList with
  | [] => some (.ofNat 0)
  | '0' :: mark :: cs =>
    match radixOf? mark with
    | some base => (radixValue? base cs).map .ofNat
    | none => ofSigned? ('0' :: mark :: cs)
  | cs => ofSigned? cs

end Decimal

end PostfixMath
