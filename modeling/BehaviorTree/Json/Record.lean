import BehaviorTree.Json.Basic
import BehaviorTree.Named

/-!
# Records, lists and names in JSON

A record is written as an object and read from an object or from an array of its fields in order.
In an object an unknown field is ignored and a repeated field refused; in an array every field has
its place and none may be missing, the optional ones included.
-/

namespace BehaviorTree.Json

/-- The fields found for a record. -/
structure Fields where
  /-- What stands for a field, if anything does. -/
  get? : String → Option Json
  /-- Whether the fields were given by place. -/
  byPlace : Bool

/-- How often a key occurs among members. -/
def occurrences (key : String) (members : List (String × Json)) : Nat :=
  members.countP fun member => member.1 == key

/-- The fields of a record with the given field names. -/
def fields? (names : List String) : Json → Option Fields
  | .object members =>
    if names.all fun name => occurrences name members ≤ 1 then
      some ⟨fun name => members.lookup name, false⟩
    else none
  | .array items =>
    if items.length ≤ names.length then some ⟨fun name => (names.zip items).lookup name, true⟩
    else none
  | _ => none

namespace Fields

variable {α : Type}

/-- A field that must be there. -/
def required (fields : Fields) (name : String) (read : Json → Option α) : Option α :=
  (fields.get? name).bind read

/-- A field that may be `null` or, in an object, missing. -/
def optional (fields : Fields) (name : String) (read : Json → Option α) : Option (Option α) :=
  match fields.get? name with
  | none => if fields.byPlace then none else some none
  | some .null => some none
  | some j => (read j).map some

/-- A field that has a value of its own when missing. -/
def defaulted (fields : Fields) (name : String) (value : α) (read : Json → Option α) : Option α :=
  match fields.get? name with
  | none => some value
  | some j => read j

end Fields

/-- A list of things of one kind. -/
def list? {α : Type} (read : Json → Option α) (j : Json) : Option (List α) :=
  j.array?.bind fun items => items.mapM read

/-- A member of an enumeration, given by its name or by an object with its name as the one key. -/
def named? {α : Type} [Named α] : Json → Option α
  | .string s => Named.ofName? s
  | .object [(key, .null)] => Named.ofName? key
  | _ => none

/-- A member of an enumeration by its name. -/
def ofNamed {α : Type} [Named α] (a : α) : Json := .string (Named.name a)

/-- Something that may be missing, as `null`. -/
def ofOption {α : Type} (write : α → Json) : Option α → Json
  | none => .null
  | some a => write a

end BehaviorTree.Json
