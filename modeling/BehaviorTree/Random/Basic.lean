import BehaviorTree.Number.Basic
import BehaviorTree.Random.KeyStream

/-!
# Random numbers

A generator is a seed and how much was drawn since, so a run can be repeated and two generators
can be compared.
-/

namespace BehaviorTree

structure Random where
  seed : UInt64
  /-- How many numbers of 64 bits were drawn. -/
  drawn : Nat := 0
deriving DecidableEq, Inhabited

namespace Random

def ofSeed (seed : Nat) : Random := ⟨UInt64.ofNat seed, 0⟩

/-- The number of 64 bits drawn at a place of the stream. -/
def numberAt (seed : UInt64) (place : Nat) : Nat :=
  let words := block (Key.ofSeed seed) (UInt64.ofNat (place / 8))
  let word (i : Nat) : Nat := ((words[2 * (place % 8) + i]?).getD 0).toNat
  word 0 + UInt32.size * word 1

/-- Draws a number of 64 bits. -/
def next (r : Random) : Nat × Random := (numberAt r.seed r.drawn, { r with drawn := r.drawn + 1 })

/-- The probability in units of `2 ^ -64`, for a number from zero to one. -/
def threshold (probability : Number) : Nat :=
  probability.units.toNat * UInt64.size / Number.unitsPerOne

/-- Whether something of a given probability, from zero to one, happens. What is certain needs no
draw. -/
def happens (r : Random) (probability : Number) : Bool × Random :=
  if probability.valueEq 1 then (true, r)
  else
    let (n, r) := r.next
    (n < threshold probability, r)

end Random

end BehaviorTree
