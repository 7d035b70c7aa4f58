import BehaviorTree.Handler.Basic
import BehaviorTree.Tree

/-!
# Compiled trees

A compiled tree holds the nodes that can run, each with what it does. Numbered in pre-order, with
the root at zero, the descendants of a node follow it without a gap. An `ExecutableTree` is the list
of the nodes by these numbers, as the compiler makes it.
-/

namespace BehaviorTree

/-- What a compiled node does when it is evaluated. -/
inductive Behavior where
  /-- Passes on the status of its child. -/
  | root
  | composite (kind : CompositeKind)
  | decorator (kind : DecoratorKind)
  /-- Compares a variable with a configured value. -/
  | condition
  | handler (handler : Handler)

structure CompiledNode extends NodeInfo where
  behavior : Behavior

/-- A compiled tree as it is run, with its nodes nested. -/
structure CompiledTree where
  root : Tree CompiledNode
  /-- The nodes of the graph, other than data nodes, that are no part of the tree. -/
  excluded : List String

namespace CompiledTree

/-- The nodes in pre-order. -/
def nodes (t : CompiledTree) : List CompiledNode := t.root.preorder

def size (t : CompiledTree) : Nat := t.root.size

/-- The node at a place in pre-order. -/
def node? (t : CompiledTree) (index : Nat) : Option CompiledNode := t.nodes[index]?

/-- The place of a node in pre-order. -/
def index? (t : CompiledTree) (id : String) : Option Nat := t.nodes.findIdx? fun n => n.id == id

def find? (t : CompiledTree) (id : String) : Option CompiledNode :=
  t.nodes.find? fun n => n.id == id

/-- The places of the children of the node at a place. -/
def children (t : CompiledTree) (index : Nat) : List Nat :=
  match t.root.subtrees[index]? with
  | some s => Tree.places (index + 1) s.children
  | none => []

/-- The places of a node and all its descendants. -/
def subtree (t : CompiledTree) (index : Nat) : List Nat :=
  match t.root.subtrees[index]? with
  | some s => List.range' index s.size
  | none => []

end CompiledTree

end BehaviorTree
