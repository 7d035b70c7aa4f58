import BehaviorTree.Named

/-!
# Connections between nodes
-/

namespace BehaviorTree

inductive ConnectionKind where
  /-- From a parent to a child. -/
  | child
  /-- From a source of values into a named slot. -/
  | binding
deriving DecidableEq, Inhabited

instance : Named ConnectionKind where
  all := [.child, .binding]
  name
    | .child => "node"
    | .binding => "property"
  mem_all a := by cases a <;> decide
  name_inj {a b} h := by cases a <;> cases b <;> first | rfl | simp at h

structure Connection where
  source : String
  target : String
  sourceSlot : Option String := none
  targetSlot : Option String := none
  kind : ConnectionKind := .child
deriving DecidableEq

namespace Connection

/-- The connection of a parent and a child. -/
def toChild (parent child : String) : Connection := { source := parent, target := child }

/-- A connection from a node's output into a slot. -/
def toSlot (source target slot : String) : Connection :=
  { source := source, target := target, targetSlot := some slot, kind := .binding }

/-- A node with one of its slots, if the slot is named. -/
def endpoint (node : String) : Option String → String
  | some slot => node ++ "." ++ slot
  | none => node

/-- The text that identifies a connection by its ends. -/
def id (c : Connection) : String :=
  match c.kind with
  | .child => c.source ++ "->" ++ c.target
  | .binding => endpoint c.source c.sourceSlot ++ "=>" ++ endpoint c.target c.targetSlot

def isChild (c : Connection) : Bool := c.kind == .child

/-- Whether a node is at either end. -/
def touches (c : Connection) (node : String) : Bool := c.source == node || c.target == node

/-- Whether a connection has the given ends, of whatever kind it is. -/
def hasEnds (c : Connection) (source target : String) (sourceSlot targetSlot : Option String) :
    Bool :=
  c.source == source && c.target == target && c.sourceSlot == sourceSlot &&
    c.targetSlot == targetSlot

end Connection

end BehaviorTree
