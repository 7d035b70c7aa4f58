import BehaviorTree.Dict
import BehaviorTree.Number.Basic
import BehaviorTree.Value.Kind

/-!
# Values

A value is what the blackboard stores and what a node is configured with. The entries of an object
are in ascending order of keys, as `Value.Normal` says; every reader of the library gives normal
values.
-/

namespace BehaviorTree

inductive Value where
  | null
  | bool (value : Bool)
  | number (value : Number)
  | string (value : String)
  | array (items : List Value)
  | object (entries : List (String × Value))
deriving Inhabited

namespace Value

/-! ## Equality

Two equalities differ in how they compare numbers alone: by value, where NaN differs from itself
and the zeros are equal, or by bits, which is equality of the type. -/

mutual

/-- Whether two values are alike, their numbers compared by `eq`. -/
def alike (eq : Number → Number → Bool) : Value → Value → Bool
  | .null, .null => true
  | .bool a, .bool b => a == b
  | .number a, .number b => eq a b
  | .string a, .string b => a == b
  | .array xs, .array ys => alikeItems eq xs ys
  | .object xs, .object ys => alikeEntries eq xs ys
  | _, _ => false

def alikeItems (eq : Number → Number → Bool) : List Value → List Value → Bool
  | [], [] => true
  | x :: xs, y :: ys => alike eq x y && alikeItems eq xs ys
  | _, _ => false

def alikeEntries (eq : Number → Number → Bool) :
    List (String × Value) → List (String × Value) → Bool
  | [], [] => true
  | (k, x) :: xs, (l, y) :: ys => k == l && alike eq x y && alikeEntries eq xs ys
  | _, _ => false

end

/-- Equality of values, with numbers compared by value. -/
def valueEq : Value → Value → Bool := alike Number.valueEq

mutual

theorem alike_bits_iff (v w : Value) : alike (fun a b => a == b) v w = true ↔ v = w := by
  cases v <;> cases w <;> simp [alike, alikeItems_bits_iff, alikeEntries_bits_iff]

theorem alikeItems_bits_iff (xs ys : List Value) :
    alikeItems (fun a b => a == b) xs ys = true ↔ xs = ys := by
  cases xs <;> cases ys <;> simp [alikeItems, alike_bits_iff, alikeItems_bits_iff]

theorem alikeEntries_bits_iff (xs ys : List (String × Value)) :
    alikeEntries (fun a b => a == b) xs ys = true ↔ xs = ys := by
  match xs, ys with
  | [], [] => simp [alikeEntries]
  | [], _ :: _ => simp [alikeEntries]
  | _ :: _, [] => simp [alikeEntries]
  | (k, x) :: xs, (l, y) :: ys =>
    simp [alikeEntries, alike_bits_iff x y, alikeEntries_bits_iff xs ys, and_assoc]

end

instance : DecidableEq Value := fun v w => decidable_of_iff _ (alike_bits_iff v w)

/-- Whether numbers are equal up to the resolution at one, and other values are equal. -/
def looselyEq : Value → Value → Bool
  | .number a, .number b => Number.atMost (a - b).abs Number.epsilon
  | v, w => valueEq v w

/-! ## Views -/

def isNull : Value → Bool
  | .null => true
  | _ => false

def number? : Value → Option Number
  | .number x => some x
  | _ => none

def bool? : Value → Option Bool
  | .bool b => some b
  | _ => none

def string? : Value → Option String
  | .string s => some s
  | _ => none

/-- The type a variable of this value gets. In the scope of a tree there are neither arrays nor
`any`, and what would be one counts as an object. -/
def inferType (v : Value) (scope : Scope) : ValueType :=
  match v, scope with
  | .number _, _ => .number
  | .string _, _ => .string
  | .bool _, _ => .boolean
  | .object _, _ => .object
  | .array _, .project => .array
  | .null, .project => .any
  | .array _, .tree => .object
  | .null, .tree => .object

/-! ## Normal form -/

/-- The keys of every object inside ascend. -/
inductive Normal : Value → Prop
  | null : Normal .null
  | bool (b : Bool) : Normal (.bool b)
  | number (x : Number) : Normal (.number x)
  | string (s : String) : Normal (.string s)
  | array {items : List Value} (inside : ∀ v ∈ items, Normal v) : Normal (.array items)
  | object {entries : List (String × Value)} (ordered : Entries.Ordered entries)
      (inside : ∀ entry ∈ entries, Normal entry.2) : Normal (.object entries)

end Value

end BehaviorTree
