import BehaviorTree.Json.Basic
import BehaviorTree.Value.Basic

/-!
# Values as JSON

A value is plain JSON. Whole numbers and other numbers become one kind of number, and of repeated
keys of an object the last stays.
-/

namespace BehaviorTree.Value

mutual

/-- The value that a JSON tree denotes. -/
def ofJson? : Json → Option Value
  | .null => some .null
  | .bool b => some (.bool b)
  | .integer n => some (.number (Number.ofInt n))
  | .number x => some (.number x)
  | .string s => some (.string s)
  | .array items => (itemsOfJson? items).map .array
  | .object members => (entriesOfJson? members).map fun entries => .object (Entries.ofList entries)
  | .unreadable => none

def itemsOfJson? : List Json → Option (List Value)
  | [] => some []
  | item :: items => do return (← ofJson? item) :: (← itemsOfJson? items)

def entriesOfJson? : List (String × Json) → Option (List (String × Value))
  | [] => some []
  | (key, j) :: members => do return (key, ← ofJson? j) :: (← entriesOfJson? members)

end

mutual

/-- The value as a JSON tree. -/
def toJson : Value → Json
  | .null => .null
  | .bool b => .bool b
  | .number x => .number x
  | .string s => .string s
  | .array items => .array (itemsToJson items)
  | .object entries => .object (entriesToJson entries)

def itemsToJson : List Value → List Json
  | [] => []
  | item :: items => toJson item :: itemsToJson items

def entriesToJson : List (String × Value) → List (String × Json)
  | [] => []
  | (key, value) :: entries => (key, toJson value) :: entriesToJson entries

end

/-- A dictionary of values as a JSON object. -/
def dictToJson (d : Dict Value) : Json := .object (entriesToJson d.entries)

/-- A dictionary of values from a JSON object: of repeated keys the last stays. -/
def dictOfJson? (j : Json) : Option (Dict Value) :=
  j.object?.bind fun members => (entriesOfJson? members).map Dict.ofList

end BehaviorTree.Value
