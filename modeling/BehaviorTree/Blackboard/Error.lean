import BehaviorTree.Value.Kind

/-!
# Why a blackboard refuses
-/

namespace BehaviorTree

inductive BlackboardError where
  | duplicateVariable (name : String) (scope : Scope)
  | unknownVariable (name : String) (scope : Scope)
  /-- The first value does not have the declared type. -/
  | typeMismatch (name : String) (declared found : ValueType)
deriving DecidableEq

def BlackboardError.message : BlackboardError → String
  | .duplicateVariable name scope =>
    s!"Variable '{name}' is already defined in the " ++ Named.name scope ++ " scope"
  | .unknownVariable name scope =>
    s!"Variable '{name}' is not defined in the " ++ Named.name scope ++ " scope"
  | .typeMismatch name declared found =>
    s!"Variable '{name}' is declared as " ++ Named.name declared ++ ", but its value is " ++
      Named.name found

end BehaviorTree
