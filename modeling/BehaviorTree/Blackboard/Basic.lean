import BehaviorTree.Blackboard.Error
import BehaviorTree.Value.Basic

/-!
# The blackboard

A store of typed variables in two scopes, with a queue of writes from outside that wait for the
next tick. Every change raises an event. The operations here only add the events to those raised
and not yet delivered; `SharedBlackboard` delivers them.
-/

namespace BehaviorTree

structure Variable where
  name : String
  scope : Scope
  type : ValueType
  value : Value
deriving DecidableEq

/-- A write that changed the inferred type of a variable. -/
structure TypeChange where
  name : String
  scope : Scope
  former : ValueType
  current : ValueType
deriving DecidableEq

/-- What happened to a blackboard. -/
inductive BlackboardEvent where
  | defined (name : String) (scope : Scope)
  | changed (name : String) (scope : Scope) (value : Value) (typeChange : Option TypeChange)
  | removed (name : String) (scope : Scope)
  | renamed (former current : String) (scope : Scope)
  | restored (scope : Scope)
deriving DecidableEq

/-- A copy of both scopes. -/
structure BlackboardSnapshot where
  tree : Dict Variable := .empty
  project : Dict Variable := .empty
deriving DecidableEq

/-- A write that waits. -/
structure QueuedWrite where
  name : String
  value : Value
  scope : Scope
deriving DecidableEq

structure Blackboard where
  /-- The variables of the tree. -/
  tree : Dict Variable := .empty
  /-- The variables of the project. -/
  project : Dict Variable := .empty
  /-- The writes that wait, oldest first. -/
  queue : List QueuedWrite := []
  /-- The events raised and not yet delivered, oldest first. -/
  raised : List BlackboardEvent := []
deriving DecidableEq

namespace BlackboardSnapshot

def vars (s : BlackboardSnapshot) : Scope → Dict Variable
  | .tree => s.tree
  | .project => s.project

def contains (s : BlackboardSnapshot) (name : String) (scope : Scope) : Bool :=
  (s.vars scope).contains name

def get? (s : BlackboardSnapshot) (name : String) (scope : Scope) : Option Value :=
  ((s.vars scope).get? name).map (·.value)

end BlackboardSnapshot

namespace Blackboard

/-! ## Reading -/

def vars (b : Blackboard) : Scope → Dict Variable
  | .tree => b.tree
  | .project => b.project

def find? (b : Blackboard) (name : String) (scope : Scope) : Option Variable :=
  (b.vars scope).get? name

/-- The value of a variable. -/
def get? (b : Blackboard) (name : String) (scope : Scope) : Option Value :=
  (b.find? name scope).map (·.value)

def contains (b : Blackboard) (name : String) (scope : Scope) : Bool :=
  (b.vars scope).contains name

/-- The variables of a scope by name. -/
def list (b : Blackboard) (scope : Scope) : List Variable := (b.vars scope).values

def snapshot (b : Blackboard) : BlackboardSnapshot := ⟨b.tree, b.project⟩

/-! ## Changing -/

def withVars (b : Blackboard) (scope : Scope) (vars : Dict Variable) : Blackboard :=
  match scope with
  | .tree => { b with tree := vars }
  | .project => { b with project := vars }

/-- Stores a variable under its name and scope. -/
def store (b : Blackboard) (v : Variable) : Blackboard :=
  b.withVars v.scope ((b.vars v.scope).insert v.name v)

def raise (b : Blackboard) (event : BlackboardEvent) : Blackboard :=
  { b with raised := b.raised ++ [event] }

/-- Defines a new variable. A first value other than null must have the declared type, unless that
is `any`. -/
def define (b : Blackboard) (name : String) (type : ValueType) (initial : Value) (scope : Scope) :
    Except BlackboardError Blackboard :=
  if b.contains name scope then .error (.duplicateVariable name scope)
  else if type ≠ .any ∧ !initial.isNull ∧ initial.inferType scope ≠ type then
    .error (.typeMismatch name type (initial.inferType scope))
  else .ok ((b.store ⟨name, scope, type, initial⟩).raise (.defined name scope))

/-- The type of a variable after a write: that of the value, but null keeps the type. -/
def typeAfter (before : ValueType) (value : Value) (scope : Scope) : ValueType :=
  if value.isNull then before else value.inferType scope

/-- Writes a variable, defining it if there is none, and tells if its type changed. -/
def set (b : Blackboard) (name : String) (value : Value) (scope : Scope) :
    Option TypeChange × Blackboard :=
  match b.find? name scope with
  | none =>
    (none, (b.store ⟨name, scope, value.inferType scope, value⟩).raise (.defined name scope))
  | some v =>
    let type := typeAfter v.type value scope
    let change := if v.type = type then none else some ⟨name, scope, v.type, type⟩
    (change, (b.store ⟨name, scope, type, value⟩).raise
      (.changed name scope value change))

/-- Removes a variable and gives what it was. -/
def remove (b : Blackboard) (name : String) (scope : Scope) : Option Variable × Blackboard :=
  match b.find? name scope with
  | none => (none, b)
  | some v =>
    (some v, (b.withVars scope ((b.vars scope).erase name)).raise (.removed name scope))

/-- Gives a variable another name, which must be free. -/
def rename (b : Blackboard) (former current : String) (scope : Scope) :
    Except BlackboardError Blackboard :=
  if b.contains current scope then .error (.duplicateVariable current scope)
  else match b.find? former scope with
    | none => .error (.unknownVariable former scope)
    | some v =>
      let others := (b.vars scope).erase former
      .ok ((b.withVars scope (others.insert current { v with name := current })).raise
        (.renamed former current scope))

/-- Brings the tree's scope back to what a snapshot holds. -/
def restore (b : Blackboard) (s : BlackboardSnapshot) : Blackboard :=
  { b with tree := s.tree }.raise (.restored .tree)

/-- Leaves a write for the next tick. -/
def enqueue (b : Blackboard) (name : String) (value : Value) (scope : Scope) : Blackboard :=
  { b with queue := b.queue ++ [⟨name, value, scope⟩] }

/-- Does one write and adds the type change to those before it. -/
def applyWrite (state : List TypeChange × Blackboard) (write : QueuedWrite) :
    List TypeChange × Blackboard :=
  let (change, b) := state.2.set write.name write.value write.scope
  (state.1 ++ change.toList, b)

/-- Does all writes that wait, in order, and gives the type changes they caused. -/
def applyQueue (b : Blackboard) : List TypeChange × Blackboard :=
  b.queue.foldl applyWrite ([], { b with queue := [] })

end Blackboard

end BehaviorTree
