import BehaviorTree.Named

/-!
# Scopes and types of variables

A variable lives in one of two scopes and carries the type inferred from its value. A slot of a
node declares what it takes, and `SlotType.accepts` says which variable types fit.
-/

namespace BehaviorTree

/-- Where a variable is visible. -/
inductive Scope where
  /-- In one tree. -/
  | tree
  /-- In the whole project. -/
  | project
deriving DecidableEq, Inhabited

instance : Named Scope where
  all := [.tree, .project]
  name
    | .tree => "local"
    | .project => "global"
  mem_all a := by cases a <;> decide
  name_inj {a b} h := by cases a <;> cases b <;> first | rfl | simp at h

/-- The inferred type of a variable. -/
inductive ValueType where
  | number
  | string
  | boolean
  | object
  | array
  | any
deriving DecidableEq, Inhabited

instance : Named ValueType where
  all := [.number, .string, .boolean, .object, .array, .any]
  name
    | .number => "number"
    | .string => "string"
    | .boolean => "boolean"
    | .object => "object"
    | .array => "array"
    | .any => "any"
  mem_all a := by cases a <;> decide
  name_inj {a b} h := by cases a <;> cases b <;> first | rfl | simp at h

/-- What a property slot is declared to take. -/
inductive SlotType where
  | number
  | string
  | boolean
  | select
  | object
  | array
  | any
  | blackboard
  | variable
deriving DecidableEq, Inhabited

instance : Named SlotType where
  all := [.number, .string, .boolean, .select, .object, .array, .any, .blackboard, .variable]
  name
    | .number => "number"
    | .string => "string"
    | .boolean => "boolean"
    | .select => "select"
    | .object => "object"
    | .array => "array"
    | .any => "any"
    | .blackboard => "blackboard"
    | .variable => "variable"
  mem_all a := by cases a <;> decide
  name_inj {a b} h := by cases a <;> cases b <;> first | rfl | simp at h

/-- Whether a variable of a type may stay bound to a slot: `any` fits every slot, the untyped slots
take every variable, text slots also take numbers and booleans, and a choice takes text. -/
def SlotType.accepts (slot : SlotType) (source : ValueType) : Bool :=
  source == .any || match slot with
    | .any | .blackboard | .variable => true
    | .number => source == .number
    | .boolean => source == .boolean
    | .object => source == .object
    | .array => source == .array
    | .string => source == .string || source == .number || source == .boolean
    | .select => source == .string

end BehaviorTree
