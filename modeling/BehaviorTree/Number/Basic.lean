/-!
# Numbers: 64-bit binary floating point

A number is its 64-bit interchange pattern, so that a NaN keeps its payload through the binary
form of a document. Arithmetic is described by what it means: the operands are read exactly, as
integers in units of `2 ^ -1074`, the exact result is formed, and it is rounded once, to the
nearest pattern and to the even one of two equally near.
-/

namespace BehaviorTree

/-- A floating point number, given by its bits. -/
structure Number where
  bits : UInt64
deriving DecidableEq, Inhabited

namespace Number

/-- The pattern of positive infinity, which is also the first pattern that is no finite number. -/
def infinityBits : Nat := 0x7ff0000000000000

/-- The bit that tells a quiet NaN from a signalling one. -/
def quietBit : Nat := 0x0008000000000000

/-- The bit of the sign: the patterns of magnitude lie below it. -/
def signBit : Nat := 0x8000000000000000

/-- How many magnitudes one binade holds, `2 ^ 52`. -/
def binade : Nat := 0x0010000000000000

/-- The number with the given sign and the given 63 bits of magnitude. -/
def ofParts (negative : Bool) (magnitude : Nat) : Number :=
  ⟨UInt64.ofNat (if negative then signBit + magnitude else magnitude)⟩

/-- Whether the sign bit is set. -/
def isNegative (x : Number) : Bool := signBit ≤ x.bits.toNat

/-- The bits without the sign. -/
def magnitude (x : Number) : Nat := x.bits.toNat % signBit

def isNaN (x : Number) : Bool := infinityBits < x.magnitude

def isFinite (x : Number) : Bool := x.magnitude < infinityBits

/-- Zero of either sign. -/
def isZero (x : Number) : Bool := x.magnitude == 0

/-- The quiet NaN that input denotes by its name. -/
def nan : Number := ofParts false (infinityBits + quietBit)

/-- The NaN that an operation without a meaningful result gives. -/
def invalid : Number := ofParts true (infinityBits + quietBit)

def infinity : Number := ofParts false infinityBits

def negativeInfinity : Number := ofParts true infinityBits

/-! ## The exact value -/

/-- The exact value of 63 bits of magnitude below infinity, in units of `2 ^ -1074`. -/
def magnitudeUnits (magnitude : Nat) : Nat :=
  let exponent := magnitude / binade
  let fraction := magnitude % binade
  if exponent = 0 then fraction else (binade + fraction) * Nat.pow 2 (exponent - 1)

/-- How many binary places the exact values have. -/
def exactPlaces : Nat := 1074

/-- How many units of `2 ^ -1074` make one. -/
def unitsPerOne : Nat := Nat.pow 2 exactPlaces

/-- The exact value of a finite number in units of `2 ^ -1074`. -/
def units (x : Number) : Int :=
  if x.isNegative then -(magnitudeUnits x.magnitude : Int) else magnitudeUnits x.magnitude

/-- The exact value of a finite number. -/
def toRat (x : Number) : Rat := mkRat x.units unitsPerOne

/-! ## Rounding -/

/-- The integer nearest to `num / den`, and the even one of two equally near. -/
def divNearestEven (num den : Nat) : Nat :=
  let quotient := num / den
  let twice := 2 * (num % den)
  if twice < den then quotient
  else if den < twice then quotient + 1
  else quotient + quotient % 2

/-- The largest `e` with `2 ^ e ≤ num / den`, for positive `num` and `den`. -/
def floorLog2 (num den : Nat) : Int :=
  let guess : Int := (num.log2 : Int) - den.log2
  if den * Nat.pow 2 guess.toNat ≤ num * Nat.pow 2 (-guess).toNat then guess else guess - 1

/-- The 63 bits of magnitude nearest to `num / den`; infinity from half a step above the largest
finite magnitude on.

One binade has as many steps of the last place as it has magnitudes, so a significand that rounds
up to the next power of two carries into the exponent by itself. -/
def roundMagnitude (num den : Nat) : Nat :=
  if num = 0 then 0 else
    let exponent := max (floorLog2 num den) (-1022)
    let steps :=
      if exponent ≤ 52 then divNearestEven (num * Nat.pow 2 (52 - exponent).toNat) den
      else divNearestEven num (den * Nat.pow 2 (exponent - 52).toNat)
    min ((exponent + 1022).toNat * binade + steps) infinityBits

/-- The number nearest to `± num / den`. -/
def ofFraction (negative : Bool) (num den : Nat) : Number :=
  ofParts negative (roundMagnitude num den)

/-- The number nearest to an integer. -/
def ofInt (n : Int) : Number := ofFraction (n < 0) n.natAbs 1

/-- The number nearest to a natural number. -/
def ofNat (n : Nat) : Number := ofFraction false n 1

/-- The number nearest to an exact quotient. -/
def ofRat (q : Rat) : Number := ofFraction (q.num < 0) q.num.natAbs q.den

instance (n : Nat) : OfNat Number n := ⟨ofNat n⟩

/-! ## Comparison -/

/-- A key that orders all numbers but NaN, with one place for both zeros. -/
def orderKey (x : Number) : Int :=
  if x.isNegative then -(x.magnitude : Int) else x.magnitude

/-- Equality of values: NaN differs from everything and the zeros are equal. -/
def valueEq (x y : Number) : Bool :=
  !x.isNaN && !y.isNaN && x.orderKey == y.orderKey

/-- Strictly less; false if a NaN is compared. -/
def less (x y : Number) : Bool :=
  !x.isNaN && !y.isNaN && decide (x.orderKey < y.orderKey)

/-- Less or equal; false if a NaN is compared. -/
def atMost (x y : Number) : Bool :=
  !x.isNaN && !y.isNaN && decide (x.orderKey ≤ y.orderKey)

/-- A key for the total order of all patterns: `-NaN < -inf < … < -0 < +0 < … < inf < NaN`. -/
def totalKey (x : Number) : Int :=
  if x.isNegative then -(x.magnitude : Int) - 1 else x.magnitude

theorem atMost_eq_less_or_valueEq (x y : Number) :
    atMost x y = (less x y || valueEq x y) := by
  simp only [atMost, less, valueEq]
  cases x.isNaN <;> cases y.isNaN <;> simp
  grind

/-! ## Arithmetic -/

/-- A NaN operand made quiet, which is what an operation on it gives. -/
def quieted (x : Number) : Number :=
  if x.magnitude / quietBit % 2 = 1 then x else ofParts x.isNegative (x.magnitude + quietBit)

/-- The number nearest to an exact sum of finite operands given in units of `2 ^ -1074`; an exact
zero is negative only if both operands were. -/
def ofUnits (total : Int) (zeroIsNegative : Bool) : Number :=
  ofFraction (if total = 0 then zeroIsNegative else total < 0) total.natAbs unitsPerOne

def neg (x : Number) : Number := ofParts (!x.isNegative) x.magnitude

def abs (x : Number) : Number := ofParts false x.magnitude

/-- The sum of two numbers that are not NaN. -/
def addOrdered (x y : Number) : Number :=
  match x.isFinite, y.isFinite with
  | true, true => ofUnits (x.units + y.units) (x.isNegative && y.isNegative)
  | true, false => y
  | false, true => x
  | false, false => if x.isNegative == y.isNegative then x else invalid

def add (x y : Number) : Number :=
  if x.isNaN then x.quieted else if y.isNaN then y.quieted else addOrdered x y

def sub (x y : Number) : Number :=
  if x.isNaN then x.quieted else if y.isNaN then y.quieted else addOrdered x y.neg

def mul (x y : Number) : Number :=
  if x.isNaN then x.quieted else if y.isNaN then y.quieted else
    let negative := x.isNegative != y.isNegative
    if x.isFinite && y.isFinite then
      ofFraction negative (x.units.natAbs * y.units.natAbs) (unitsPerOne * unitsPerOne)
    else if x.isZero || y.isZero then invalid
    else ofParts negative infinityBits

instance : Add Number := ⟨add⟩
instance : Sub Number := ⟨sub⟩
instance : Mul Number := ⟨mul⟩
instance : Neg Number := ⟨neg⟩

/-- The larger of two numbers; the other one if one of them is NaN. -/
def maximum (x y : Number) : Number :=
  if x.isNaN then y else if y.isNaN then x else if less x y then y else x

/-- A number moved into the interval from `lo` to `hi`; NaN stays. -/
def clamp (x lo hi : Number) : Number :=
  if less x lo then lo else if less hi x then hi else x

/-- The distance from one to the next larger number, `2 ^ -52`. -/
def epsilon : Number := ofFraction false 1 binade

/-! ## Integers -/

/-- Whether the number is finite and has no fraction. -/
def isIntegral (x : Number) : Bool := x.isFinite && x.units.natAbs % unitsPerOne == 0

/-- The number without its fraction, as an integer kept within 64 signed bits; NaN gives zero. -/
def toInt64 (x : Number) : Int :=
  let limit : Int := signBit
  if x.isNaN then 0
  else if x.isFinite then max (-limit) (min (limit - 1) (x.units.tdiv unitsPerOne))
  else if x.isNegative then -limit else limit - 1

end Number

end BehaviorTree
