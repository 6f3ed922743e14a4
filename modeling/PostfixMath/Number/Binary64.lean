-- Numbers of double precision, as exact fractions: the nearest one to a written number or
-- to a result, and the fewest digits that read back as one. A number that counts or measures
-- something is rounded here before it is looked at, wherever it was written.
import PostfixMath.Number.Decimal

namespace PostfixMath

/-- The finite magnitude `significand * 2 ^ place`. -/
structure Binary64 where
  significand : Nat
  place : Int
deriving DecidableEq, Repr

namespace Binary64

def twoTo (n : Nat) : Nat := Nat.pow 2 n

/-! ## Rounding -/

/-- A quotient rounded to the nearest natural number, a half going to the even one. -/
def roundDiv (num den : Nat) : Nat :=
  let quotient := num / den
  let twice := 2 * (num % den)
  if twice < den then quotient
  else if den < twice then quotient + 1
  else quotient + quotient % 2

/-- A numerator and a denominator, divided by a power of two. -/
def scaleDown (num den : Nat) (power : Int) : Nat × Nat :=
  (num * twoTo (-power).toNat, den * twoTo power.toNat)

/-- The power of two of the leading bit of a positive quotient. -/
def leading (num den : Nat) : Int :=
  let guess : Int := (num.log2 : Int) - (den.log2 : Int)
  let (n, d) := scaleDown num den guess
  if d ≤ n then guess else guess - 1

/-- The nearest number to a quotient, with 53 bits and no place below `-1074`. There is none
when the quotient rounds to `2 ^ 1024` or more. -/
def nearest? (num den : Nat) : Option Binary64 :=
  if num = 0 then some ⟨0, 0⟩
  else
    let place := max (leading num den - 52) (-1074)
    let (n, d) := scaleDown num den place
    let significand := roundDiv n d
    if 971 < place ∨ (place = 971 ∧ twoTo 53 ≤ significand) then none
    else some ⟨significand, place⟩

/-- The natural number that this is, if it is one. -/
def toNat? (x : Binary64) : Option Nat :=
  let unit := twoTo (-x.place).toNat
  if x.significand % unit = 0 then some (x.significand * twoTo x.place.toNat / unit) else none

def toRat (x : Binary64) : Rat :=
  mkRat (x.significand * twoTo x.place.toNat : Nat) (twoTo (-x.place).toNat)

/-- What stands for every number that is too large. -/
def beyond : Rat := mkRat (twoTo 1024) 1

/-- A magnitude with a sign, where none is a magnitude that is too large. -/
def signed (negative : Bool) (size : Option Binary64) : Rat :=
  let size :=
    match size with
    | some x => x.toRat
    | none => beyond
  if negative then -size else size

def wholePart (q : Rat) : Int := q.num.tdiv q.den

/-- A number rounded to double precision. -/
def rounded (q : Rat) : Rat := signed (decide (q.num < 0)) (nearest? q.num.natAbs q.den)

end Binary64

namespace Decimal

/-- The magnitude of a written number, rounded; none when it is too large. A number far
outside the range is settled by the bits of its digits, as a power of ten has at least three
bits for every zero. -/
def toBinary64? (d : Decimal) : Option Binary64 :=
  let bits : Int := d.digits.log2 + 3 * d.exponent
  if d.digits = 0 ∨ bits < -1101 then some ⟨0, 0⟩
  else if 0 ≤ d.exponent ∧ 1100 < bits then none
  else Binary64.nearest? (d.digits * tenTo d.exponent.toNat) (tenTo (-d.exponent).toNat)

/-- The count that a written number stands for: after rounding it is a whole number and not
below zero. -/
def toCount? (d : Decimal) : Option Nat :=
  match d.toBinary64?.bind Binary64.toNat? with
  | some 0 => some 0
  | some n => if d.negative then none else some n
  | none => none

/-- The number that is written, rounded. -/
def value (d : Decimal) : Rat := Binary64.signed d.negative d.toBinary64?

/-! ## The fewest digits -/

/-- Whether a written number without a sign reads as a magnitude. -/
def readsAs (q : Rat) (d : Decimal) : Bool := d.toBinary64?.map Binary64.toRat == some q

/-- The multiple of `10 ^ power` next to a magnitude that reads as it, the nearer one of two. -/
def atPower? (q : Rat) (power : Int) : Option Decimal :=
  let num := q.num.natAbs * tenTo (-power).toNat
  let den := q.den * tenTo power.toNat
  let below := num / den
  let gap := 2 * (num % den)
  match readsAs q ⟨false, below, power⟩, readsAs q ⟨false, below + 1, power⟩ with
  | true, true =>
    let up := den < gap || (den == gap && below % 2 == 1)
    some ⟨false, if up then below + 1 else below, power⟩
  | true, false => some ⟨false, below, power⟩
  | false, true => some ⟨false, below + 1, power⟩
  | false, false => none

/-- All digits of a fraction whose denominator is a power of two. -/
def allDigits (q : Rat) : Decimal :=
  let halvings := q.den.log2
  ⟨false, q.num.natAbs * tenTo halvings / q.den, -(halvings : Int)⟩

/-- The fewest digits that read as a magnitude. The search starts above its first digit, and
seventeen digits are always enough. -/
def shortest (q : Rat) : Decimal :=
  let digitCount (n : Nat) : Int := (Nat.toDigits 10 n).length
  let top := digitCount q.num.natAbs - digitCount q.den + 1
  ((List.range 20).findSome? fun (dropped : Nat) => atPower? q (top - dropped)).getD (allDigits q)

/-- How a number of double precision is written: its fewest digits, filled up with zeros
below `10 ^ 21`, and with an exponent from there on. -/
def ofRat (q : Rat) : Decimal :=
  let negative := decide (q.num < 0)
  let d := if q.num = 0 then ofNat 0 else shortest (if negative then -q else q)
  if 0 < d.exponent ∧ q.num.natAbs < tenTo 21 * q.den then
    ⟨negative, d.digits * tenTo d.exponent.toNat, 0⟩
  else ⟨negative, d.digits, d.exponent⟩

def textOf (q : Rat) : String :=
  if q = Binary64.beyond then "Infinity"
  else if q = -Binary64.beyond then "-Infinity"
  else (ofRat q).text

/-- A number as it is written after rounding. A number that is too large is left alone. -/
def rounded (d : Decimal) : Decimal :=
  if d.exponent = 0 ∧ d.digits < Binary64.twoTo 53 then ⟨d.negative && d.digits != 0, d.digits, 0⟩
  else if d.toBinary64?.isNone then d
  else ofRat d.value

/-- The number that is `n` more: exact where it is written as a whole number, else rounded. -/
def plus (d : Decimal) (n : Nat) : Decimal :=
  match d.toInt? with
  | some k => ofInt (k + n)
  | none => ofRat (Binary64.rounded (d.value + n))

end Decimal

end PostfixMath
