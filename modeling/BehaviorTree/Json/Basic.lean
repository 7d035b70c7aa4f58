import BehaviorTree.Number.Basic

/-!
# JSON trees

What a JSON text says, before it is read as anything in particular. Whole numbers stay apart from
other numbers, since counts are read from the former alone. Object members keep their order and
their repetitions, since a record refuses a repeated field and a map does not.
-/

namespace BehaviorTree

inductive Json where
  | null
  | bool (value : Bool)
  /-- A whole number that fits 64 bits, signed or unsigned. -/
  | integer (value : Int)
  | number (value : Number)
  | string (value : String)
  | array (items : List Json)
  | object (members : List (String × Json))
  /-- Well-formed text that nothing can be read from, and which only an ignored field may hold: a
  number out of range, a string with half of a surrogate pair, an object with such a string as a
  key, or a container nested too deeply. -/
  | unreadable
deriving Inhabited

namespace Json

/-- How many containers may stand one inside the other. -/
def maxDepth : Nat := 127

/-- A whole number of at most 64 bits: an integer if it fits 64 bits with its sign, and otherwise
the nearest number. Minus zero is a number, for integers have no sign of zero. -/
def ofWhole (negative : Bool) (magnitude : Nat) : Json :=
  if negative && (magnitude == 0 || 0x8000000000000000 < magnitude) then
    .number (Number.ofFraction true magnitude 1)
  else .integer (if negative then -magnitude else magnitude)

/-- A number of any kind. -/
def number? : Json → Option Number
  | .integer n => some (Number.ofInt n)
  | .number x => some x
  | _ => none

/-- A natural number below a bound. -/
def natBelow? (bound : Nat) : Json → Option Nat
  | .integer n => if 0 ≤ n ∧ n.toNat < bound then some n.toNat else none
  | _ => none

def string? : Json → Option String
  | .string s => some s
  | _ => none

def bool? : Json → Option Bool
  | .bool b => some b
  | _ => none

def array? : Json → Option (List Json)
  | .array items => some items
  | _ => none

/-- The members of an object, read as a map. -/
def object? : Json → Option (List (String × Json))
  | .object members => some members
  | _ => none

end Json

end BehaviorTree
