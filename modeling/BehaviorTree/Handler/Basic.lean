import BehaviorTree.Compilation.Binding
import BehaviorTree.Execution.Status
import BehaviorTree.Graph.Node
import BehaviorTree.Random.Basic
import BehaviorTree.Value.Text

/-!
# Handlers

A handler is the logic of one type of leaf. Once a tick it is given its node and may read and
write the blackboard, keep values in the node's memory, publish an output, draw random numbers and
write log lines; then it gives a status or fails. What it did before it failed stays done.
-/

namespace BehaviorTree

/-- Why a node failed. -/
inductive NodeError where
  | missingProperty (node slot : String)
  | typeMismatch (node slot expected : String) (found : Value)
  | failed (node detail : String)
deriving DecidableEq

def NodeError.message : NodeError → String
  | .missingProperty node slot => s!"Node '{node}' requires the property '{slot}'"
  | .typeMismatch node slot expected found =>
    s!"Property '{slot}' on node '{node}' has the wrong type: expected {expected}, " ++
      "but found value '" ++ found.text ++ "'"
  | .failed node detail => s!"Node '{node}' failed: {detail}"

inductive LogLevel where
  | info
  | warning
  | error
deriving DecidableEq

instance : Named LogLevel where
  all := [.info, .warning, .error]
  name
    | .info => "info"
    | .warning => "warn"
    | .error => "error"
  mem_all a := by cases a <;> decide
  name_inj {a b} h := by cases a <;> cases b <;> first | rfl | simp at h

/-- A line that a node wrote during a tick. -/
structure LogLine where
  tick : Nat
  node : String
  level : LogLevel
  message : String
deriving DecidableEq

/-- The line as it is shown. -/
def LogLine.text (line : LogLine) : String :=
  "[" ++ Named.name line.level ++ "] " ++ line.node ++ ": " ++ line.message

/-- What a handler knows of its node and of time. -/
structure HandlerContext where
  node : NodeInfo
  /-- What the nodes had published before this handler was called. -/
  outputs : Outputs
  /-- Logical seconds in this tick. -/
  deltaTime : Number
  /-- Logical seconds for which the node has been running, this tick included. -/
  runningTime : Number
  /-- Whether the node has been running for a number of seconds, up to the tolerance of time. -/
  hasRunFor : Number → Bool
  tick : Nat

/-- What a handler may change. Its log lines and type changes begin empty and are added to those of
the tick. -/
structure HandlerState where
  board : Blackboard
  random : Random
  /-- Values kept until the run ends or the node is cut short. -/
  memory : Dict Value
  /-- What the handler published. -/
  output : Option Value := none
  logs : List (LogLevel × String) := []
  typeChanges : List TypeChange := []

/-- The actions of a handler. -/
abbrev HandlerM := ReaderT HandlerContext (ExceptT NodeError (StateM HandlerState))

/-- The logic of a type of node. -/
structure Handler where
  nodeType : String
  tick : HandlerM Status

namespace HandlerM

def nodeId : HandlerM String := return (← read).node.id

/-- What the nodes published last, this one included. -/
def outputs : HandlerM Outputs := do
  let context ← read
  match (← get).output with
  | some value => return context.outputs.insert context.node.id value
  | none => return context.outputs

/-- The value of a slot, if it has one. -/
def property? (slot : String) : HandlerM (Option Value) := do
  return (← read).node.property? (← get).board (← outputs) slot

/-- The value of a slot that must have one other than null. -/
def require (slot : String) : HandlerM Value := do
  match ← property? slot with
  | some value => if value.isNull then throw (.missingProperty (← nodeId) slot) else return value
  | none => throw (.missingProperty (← nodeId) slot)

def mismatch {α : Type} (slot expected : String) (found : Value) : HandlerM α := do
  throw (.typeMismatch (← nodeId) slot expected found)

/-- The value of a slot that must be a number. -/
def number (slot : String) : HandlerM Number := do
  match ← require slot with
  | .number x => return x
  | other => mismatch slot "number" other

/-- The value of a slot that must be text. -/
def string (slot : String) : HandlerM String := do
  match ← require slot with
  | .string s => return s
  | other => mismatch slot "string" other

/-- The scope that the node is configured with. -/
def scope : HandlerM Scope := return Node.scopeNamed (← property? "scope")

/-- The value of a variable. -/
def readVariable? (name : String) (scope : Scope) : HandlerM (Option Value) :=
  return (← get).board.get? name scope

/-- Changes the blackboard without telling of changed types. -/
def modifyBoard (change : Blackboard → Blackboard) : HandlerM Unit :=
  modify fun s => { s with board := change s.board }

/-- Writes a variable; a changed type stands in the report of the tick. -/
def setVariable (name : String) (value : Value) (scope : Scope) : HandlerM Unit :=
  modify fun s =>
    let (change, board) := s.board.set name value scope
    { s with board := board, typeChanges := s.typeChanges ++ change.toList }

def setOutput (value : Value) : HandlerM Unit := modify fun s => { s with output := some value }

def log (level : LogLevel) (message : String) : HandlerM Unit :=
  modify fun s => { s with logs := s.logs ++ [(level, message)] }

/-- A value kept in the node's memory. -/
def remembered? (key : String) : HandlerM (Option Value) := return (← get).memory.get? key

def remember (key : String) (value : Value) : HandlerM Unit :=
  modify fun s => { s with memory := s.memory.insert key value }

/-- Whether something of a probability from zero to one happens. -/
def happens (probability : Number) : HandlerM Bool :=
  modifyGet fun s =>
    let (outcome, random) := s.random.happens probability
    (outcome, { s with random := random })

end HandlerM

namespace Handler

/-- Runs a handler: its result and what it changed. -/
def run (h : Handler) (context : HandlerContext) (state : HandlerState) :
    Except NodeError Status × HandlerState :=
  h.tick context state

end Handler

end BehaviorTree
