import BehaviorTree.Number.Decimal

/-!
# Number text

Three ways to write a number: the JSON form, the plain form used in messages, and a form with a
fixed count of decimals for tables. The first two take the shortest digits that read back and
differ in layout alone, which `Layout` records.
-/

namespace BehaviorTree.Number

/-- How shortest digits are laid out. -/
structure Layout where
  /-- Which of two equally near decimals is written. -/
  tie : TieRule
  /-- Whether digits whose point stands after the given count of digits (negative: that many zeros
  follow the point first) are written without an exponent. -/
  positional : Int → Bool
  /-- Whether a whole number is followed by `.0`. -/
  keepPoint : Bool
  /-- The texts of NaN, of infinity and of negative infinity. -/
  nanText : String
  infinityText : String
  negativeInfinityText : String

/-- JSON text: exponents from `1e+16` up and below `1e-5`, a point in every other number, and
`null` where JSON has no number. -/
def jsonLayout : Layout where
  tie := .toEven
  positional point := -5 < point && point ≤ 16
  keepPoint := true
  nanText := "null"
  infinityText := "null"
  negativeInfinityText := "null"

/-- Message text: all digits, and never an exponent. -/
def plainLayout : Layout where
  tie := .up
  positional _ := true
  keepPoint := false
  nanText := "NaN"
  infinityText := "inf"
  negativeInfinityText := "-inf"

/-- Digits with the point after the first `point` of them, without an exponent. -/
def positionalText (layout : Layout) (digits : List Char) (point : Int) : List Char :=
  if point ≤ 0 then '0' :: '.' :: List.replicate (-point).toNat '0' ++ digits
  else
    let whole := digits.take point.toNat
    let fraction := digits.drop point.toNat
    let padding := List.replicate (point.toNat - digits.length) '0'
    if fraction.isEmpty then whole ++ padding ++ (if layout.keepPoint then ['.', '0'] else [])
    else whole ++ '.' :: fraction

/-- Digits in scientific form: one digit before the point and a signed exponent. -/
def scientificText (digits : List Char) (point : Int) : List Char :=
  let exponent := point - 1
  let sign := if exponent < 0 then '-' else '+'
  let significand := match digits with
    | [] => []
    | [d] => [d]
    | d :: rest => d :: '.' :: rest
  significand ++ 'e' :: sign :: decimalDigits exponent.natAbs

/-- The magnitude of a finite number, laid out. -/
def magnitudeText (layout : Layout) (x : Number) : List Char :=
  if x.isZero then '0' :: (if layout.keepPoint then ['.', '0'] else [])
  else
    let d := x.shortest layout.tie
    let digits := decimalDigits d.significand
    let point := digits.length + d.exponent
    if layout.positional point then positionalText layout digits point
    else scientificText digits point

/-- A number's characters in a layout. -/
def render (layout : Layout) (x : Number) : List Char :=
  if x.isNaN then layout.nanText.toList
  else if !x.isFinite then
    (if x.isNegative then layout.negativeInfinityText else layout.infinityText).toList
  else (if x.isNegative then ['-'] else []) ++ magnitudeText layout x

/-- The number as JSON text. -/
def jsonText (x : Number) : String := String.ofList (x.render jsonLayout)

/-- The number as it stands in messages. -/
def plainText (x : Number) : String := String.ofList (x.render plainLayout)

/-- The number with a fixed count of decimals, the nearest such value and the even one of two. -/
def fixedText (places : Nat) (x : Number) : String :=
  if x.isFinite then
    let scaled := divNearestEven (magnitudeUnits x.magnitude * Nat.pow 10 places) unitsPerOne
    let digits := decimalDigits scaled
    let padded := List.replicate (places + 1 - digits.length) '0' ++ digits
    let whole := padded.take (padded.length - places)
    let fraction := padded.drop (padded.length - places)
    let sign := if x.isNegative then ['-'] else []
    String.ofList (sign ++ whole ++ (if places = 0 then [] else '.' :: fraction))
  else x.plainText

end BehaviorTree.Number
