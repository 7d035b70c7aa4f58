import BehaviorTree.Number.Decimal

/-!
# Arithmetic of time

Trees run on logical seconds. All that running needs of them is collected here, so that the same
definitions serve rounded numbers, with which programs run, and exact ones, about which laws of
time can be stated.
-/

namespace BehaviorTree

/-- A type of durations and points in time. -/
class Clock (T : Type) where
  ofNumber : Number → T
  toNumber : T → Number
  zero : T
  add : T → T → T
  sub : T → T → T
  mul : T → T → T
  /-- The larger one, and the second if the first is no time at all. -/
  max : T → T → T
  /-- How far apart accumulated times may be and still count as equal. -/
  tolerance : T
  less : T → T → Bool
  atMost : T → T → Bool

/-- A billionth of a second. -/
def Number.timeTolerance : Number := Decimal.toNumber false ⟨1, -9⟩

instance : Clock Number where
  ofNumber x := x
  toNumber x := x
  zero := 0
  add := Number.add
  sub := Number.sub
  mul := Number.mul
  max := Number.maximum
  tolerance := Number.timeTolerance
  less := Number.less
  atMost := Number.atMost

namespace Clock

variable {T : Type} [Clock T]

/-- Whether a time has come up to a limit, give or take the tolerance. -/
def reaches (t limit : T) : Bool := atMost limit (add t tolerance)

/-- Whether a time is before a limit by more than the tolerance. -/
def isBefore (t limit : T) : Bool := less (add t tolerance) limit

end Clock

end BehaviorTree
