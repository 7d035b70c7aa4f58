import BehaviorTree.Json.Basic
import BehaviorTree.Number.Decimal

/-!
# Numerals

What the digits of a JSON number denote. A numeral without point and exponent that fits 64 bits is
an integer. Any other is read quickly: as many digits as fit 64 bits make a significand, which is
rounded to a number and then scaled by a rounded power of ten. The result is the nearest number
whenever the significand is below `2 ^ 53` and the power is at most the twenty-second, and with
more digits it may be the one beside it.
-/

namespace BehaviorTree

namespace Number

/-- The number nearest to the quotient of two finite numbers, of which the second is not zero. -/
def quotient (x y : Number) : Number :=
  ofFraction (x.isNegative != y.isNegative) x.units.natAbs y.units.natAbs

/-- The number nearest to a power of ten. -/
def powerOfTen (exponent : Nat) : Number := ofNat (Nat.pow 10 exponent)

end Number

namespace Decimal

/-- The exponent of the largest power of ten below infinity. -/
def largestPower : Nat := 308

/-- A decimal read by scaling its rounded significand; none if that goes beyond all numbers. -/
def scaled (d : Decimal) : Option Number :=
  let start := Number.ofNat d.significand
  let down := (-d.exponent).toNat
  if start.isZero then some start
  else if 0 ≤ d.exponent then
    if d.exponent ≤ largestPower then
      let x := start * Number.powerOfTen d.exponent.toNat
      if x.isFinite then some x else none
    else none
  else if down ≤ largestPower then some (start.quotient (.powerOfTen down))
  else if down ≤ 2 * largestPower then
    some ((start.quotient (.powerOfTen largestPower)).quotient (.powerOfTen (down - largestPower)))
  else some 0

end Decimal

namespace Json

/-- The value of a digit after those before it. -/
def addDigit (n : Nat) (c : Char) : Nat := 10 * n + (c.toNat - '0'.toNat)

/-- The value of a run of decimal digits. -/
def digitsValue (cs : List Char) : Nat := cs.foldl addDigit 0

/-- Takes digits as long as the value fits 64 bits: the value and the digits left. -/
def takeDigits : Nat → List Char → Nat × List Char
  | n, [] => (n, [])
  | n, c :: rest =>
    if addDigit n c < UInt64.size then takeDigits (addDigit n c) rest else (n, c :: rest)

/-- The decimal that a numeral is read as. Digits that do not fit are dropped: those before the
point raise the exponent, those after it count for nothing. -/
def significantPart (whole fraction : List Char) (exponent : Int) : Decimal :=
  let (n, dropped) := takeDigits 0 whole
  let (significand, ignored) := takeDigits n fraction
  ⟨significand, exponent + dropped.length - (fraction.length - ignored.length)⟩

/-- The number or integer that the parts of a numeral denote. -/
def ofNumeral (negative : Bool) (whole fraction : List Char) (exponent : Option Int) : Json :=
  if fraction.isEmpty && exponent.isNone && digitsValue whole < UInt64.size then
    ofWhole negative (digitsValue whole)
  else match (significantPart whole fraction (exponent.getD 0)).scaled with
    | some x => .number (if negative then -x else x)
    | none => .unreadable

end Json

end BehaviorTree
