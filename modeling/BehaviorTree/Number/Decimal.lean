import BehaviorTree.Number.Basic

/-!
# Decimal forms of numbers

A decimal is an integer times a power of ten. `Decimal.toNumber` rounds it to the nearest number
and `Number.shortest` goes back: among the decimals that round to the number it takes the fewest
digits and then the nearest. Which of two equally near decimals wins is the caller's choice.
-/

namespace BehaviorTree

/-- The value `significand * 10 ^ exponent`. -/
structure Decimal where
  significand : Nat
  exponent : Int
deriving DecidableEq

/-- The digits of a natural number, most significant first. -/
def decimalDigits (n : Nat) : List Char := Nat.toDigits 10 n

namespace Decimal

/-- The quotient of natural numbers that a decimal denotes. -/
def fraction (d : Decimal) : Nat × Nat :=
  (d.significand * Nat.pow 10 d.exponent.toNat, Nat.pow 10 (-d.exponent).toNat)

/-- The number nearest to a decimal, with a sign.

A decimal of `n` digits lies below `10 ^ (n + exponent)`, so outside the two bounds the answer is
known and the powers of ten need not be formed. -/
def toNumber (negative : Bool) (d : Decimal) : Number :=
  let length : Int := (decimalDigits d.significand).length
  if d.significand = 0 ∨ length + d.exponent < -400 then Number.ofParts negative 0
  else if 400 < length + d.exponent then Number.ofParts negative Number.infinityBits
  else Number.ofFraction negative d.fraction.1 d.fraction.2

/-- Moves trailing zeros of the significand, at most `limit` of them, into the exponent. -/
def trimZeros : Nat → Decimal → Decimal
  | 0, d => d
  | limit + 1, d =>
    if d.significand % 10 = 0 then trimZeros limit ⟨d.significand / 10, d.exponent + 1⟩ else d

end Decimal

namespace Number

/-- Which of two equally near decimals stands for a number. -/
inductive TieRule where
  /-- The one whose last digit is even. -/
  | toEven
  /-- The larger one. -/
  | up
deriving DecidableEq

/-- The largest `k` with `10 ^ k ≤ num / den`, for positive `num` and `den`. -/
def floorLog10 (num den : Nat) : Int :=
  let guess : Int := ((decimalDigits num).length : Int) - (decimalDigits den).length
  if den * Nat.pow 10 guess.toNat ≤ num * Nat.pow 10 (-guess).toNat then guess else guess - 1

/-- The decimal with exponent `place` that is nearest to the magnitude of `x` among the two
around it that round to `x`, if one does. -/
def nearestOnGrid (rule : TieRule) (x : Number) (place : Int) : Option Decimal :=
  let num := magnitudeUnits x.magnitude * Nat.pow 10 (-place).toNat
  let den := unitsPerOne * Nat.pow 10 place.toNat
  let below := num / den
  let rest := num % den
  let hit (d : Decimal) : Bool := d.toNumber x.isNegative == x
  let low : Decimal := ⟨below, place⟩
  let high : Decimal := ⟨below + 1, place⟩
  match hit low, hit high with
  | false, false => none
  | true, false => some low
  | false, true => some high
  | true, true =>
    if 2 * rest < den then some low
    else if den < 2 * rest then some high
    else match rule with
      | .up => some high
      | .toEven => some (if below % 2 = 0 then low else high)

/-- The magnitude of a finite number as a decimal with nothing left out. -/
def exactDecimal (x : Number) : Decimal :=
  ⟨magnitudeUnits x.magnitude * Nat.pow 5 exactPlaces, -exactPlaces⟩

/-- The decimal of fewest digits, and the nearest of those, that rounds to a finite number other
than zero. Seventeen digits always suffice; the exact value stands at the end of the search. -/
def shortest (rule : TieRule) (x : Number) : Decimal :=
  let leading := floorLog10 (magnitudeUnits x.magnitude) unitsPerOne
  let found := (List.range 17).findSome? fun (digits : Nat) =>
    nearestOnGrid rule x (leading - digits)
  let d := found.getD x.exactDecimal
  Decimal.trimZeros (decimalDigits d.significand).length d

end Number

end BehaviorTree
