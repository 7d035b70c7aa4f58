import BehaviorTree.Handler.Basic

/-!
# Builtin handlers
-/

namespace BehaviorTree.Handler

open HandlerM

/-- Gives the same status every time. -/
def static (nodeType : String) (status : Status) : Handler := ⟨nodeType, return status⟩

/-- A number as a probability. -/
def probability (x : Number) : Number := if x.isNaN then 0 else x.clamp 0 1

/-- Succeeds with the probability that the node is configured with. -/
def randomOutcome (nodeType : String) (standard : Number) : Handler where
  nodeType := nodeType
  tick := do
    let configured := (← property? "successProbability").bind Value.number?
    return .ofBool (← happens (probability (configured.getD standard)))

/-- Runs for a time and then succeeds. -/
def wait : Handler where
  nodeType := TypeId.wait
  tick := do
    let duration ← number "duration"
    return if (← read).hasRunFor duration then .success else .running

/-- Writes a variable and publishes its value. -/
def setVariable : Handler where
  nodeType := TypeId.setVariable
  tick := do
    let key ← string "key"
    let value := (← property? "value").getD .null
    HandlerM.setVariable key value (← scope)
    setOutput value
    return .success

/-- The amount that an increment adds. -/
def incrementAmount : HandlerM Number := do
  match ← property? "amount" with
  | none | some .null => return 1
  | some (.number x) => return x
  | some other => mismatch "amount" "number" other

/-- Adds to a variable, which counts from zero, and publishes its value. -/
def increment : Handler where
  nodeType := TypeId.increment
  tick := do
    let key ← string "key"
    let amount ← incrementAmount
    let scope ← scope
    let current ← match ← readVariable? key scope with
      | none | some .null => pure 0
      | some (.number x) => pure x
      | some other => mismatch key "number" other
    let next := Value.number (current + amount)
    HandlerM.setVariable key next scope
    setOutput next
    return .success

/-- Writes a log line. -/
def log : Handler where
  nodeType := TypeId.log
  tick := do
    let message := match ← property? "message" with
      | some (.string s) => s
      | some .null | none => ""
      | some other => other.text
    HandlerM.log .info message
    return .success

def builtins : List Handler :=
  [static TypeId.succeed .success, static TypeId.fail .failure, static TypeId.running .running,
    randomOutcome TypeId.randomOutcome (Number.ofFraction false 1 2), wait, setVariable,
    increment, log]

end BehaviorTree.Handler
