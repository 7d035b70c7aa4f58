import BehaviorTree.Graph.Connection
import BehaviorTree.Graph.Node

/-!
# The node graph

A graph lists its nodes in the order in which they were added and its connections in the order in
which they were made. Structure is expressed twice, by the children of a node and by the
connections to them; `Graph.validate` says when the two agree.

Several histories that edit one graph may bring a node back that is there already. The list then
holds the id twice with one and the same node, and looking up an id finds that node.
-/

namespace BehaviorTree

structure Graph where
  nodes : List Node := []
  connections : List Connection := []
  /-- The last number given out for a new id. -/
  lastId : Nat := 0
deriving DecidableEq

namespace Graph

/-- The graph of a root node alone. -/
def new (rootTemplate : NodeTemplate) : Graph where
  nodes := [.ofTemplate Node.rootId rootTemplate {} .empty]

/-! ## Looking up -/

def node? (g : Graph) (id : String) : Option Node := g.nodes.find? fun n => n.id == id

def contains (g : Graph) (id : String) : Bool := (g.node? id).isSome

def root? (g : Graph) : Option Node := g.node? Node.rootId

/-- The ids of the nodes, each once. -/
def ids (g : Graph) : List String := (g.nodes.map (·.id)).eraseDups

/-- How many nodes there are. -/
def size (g : Graph) : Nat := g.ids.length

def isEmpty (g : Graph) : Bool := g.nodes.isEmpty

/-- The children of a node; none if there is no such node. -/
def children (g : Graph) (id : String) : List String :=
  ((g.node? id).map (·.children)).getD []

/-- The first node that has `id` among its children. -/
def parent? (g : Graph) (id : String) : Option String :=
  (g.nodes.find? fun n => n.children.contains id).map (·.id)

def connection? (g : Graph) (id : String) : Option Connection :=
  g.connections.find? fun c => c.id == id

/-- The connections into slots of a node. -/
def bindingsInto (g : Graph) (id : String) : List Connection :=
  g.connections.filter fun c => !c.isChild && c.target == id

/-- The type of the slot that a connection leads into, if the target declares it. -/
def targetSlotType? (g : Graph) (c : Connection) : Option SlotType := do
  let target ← g.node? c.target
  let slot ← target.template.slot? (← c.targetSlot)
  return slot.slotType

/-- The variable that feeds a connection. -/
def variableFeeding? (g : Graph) (c : Connection) : Option (String × Scope) :=
  (g.node? c.source).bind Node.variableReference?

/-- The connections from a variable into slots that do not take the given type. -/
def incompatibleBindings (g : Graph) (name : String) (scope : Scope) (newType : ValueType) :
    List Connection :=
  g.connections.filter fun c =>
    !c.isChild && g.variableFeeding? c == some (name, scope) &&
      (match g.targetSlotType? c with
        | some slotType => !slotType.accepts newType
        | none => false)

/-! ## Equality -/

/-- Equality as a comparison of contents: nodes and connections in their orders, with numbers
compared by value. The numbering of new ids does not count. -/
def sameContents (g h : Graph) : Bool :=
  g.nodes.length == h.nodes.length && (g.nodes.zip h.nodes).all (fun p => p.1.sameContents p.2) &&
    g.connections == h.connections

end Graph

end BehaviorTree
