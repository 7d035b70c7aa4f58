import BehaviorTree.Graph.Builtin

/-!
# Nodes of a graph
-/

namespace BehaviorTree

/-- Where a node stands in the editor. Positions order siblings and do nothing else. -/
structure Position where
  x : Number := 0
  y : Number := 0
deriving DecidableEq

/-- An authored node. -/
structure Node where
  id : String
  template : NodeTemplate
  /-- The configuration, by slot. -/
  data : Dict Value
  position : Position
  /-- The ids of the children in the order in which they run. -/
  children : List String
deriving DecidableEq

namespace Node

/-- The id that the root node has and no other node may have. -/
def rootId : String := "root"

/-- A node without children, configured by its template and, before that, by `initial`. -/
def ofTemplate (id : String) (template : NodeTemplate) (position : Position)
    (initial : Dict Value) : Node where
  id := id
  template := template
  data := initial.entries.foldl (fun data entry => data.insert entry.1 entry.2)
    template.defaultConfig
  position := position
  children := []

def kind (n : Node) : NodeKind := n.template.kind

def typeId (n : Node) : String := n.template.id

/-- The scope that a configuration names; a tree's own scope where it names none. -/
def scopeNamed (v : Option Value) : Scope :=
  ((v.bind Value.string?).bind Named.ofName?).getD .tree

/-- The variable that a configuration points at, with its scope. -/
def variableIn (data : Dict Value) : Option (String × Scope) :=
  ((data.get? "variableName").bind Value.string?).map fun name =>
    (name, scopeNamed (data.get? "scope"))

/-- The variable that a blackboard variable node points at. -/
def variableReference? (n : Node) : Option (String × Scope) :=
  if n.typeId = TypeId.blackboardVariable then variableIn n.data else none

/-- Equality as a comparison of contents: numbers are compared by value. -/
def sameContents (m n : Node) : Bool :=
  m.id == n.id && m.template.sameContents n.template &&
    Value.alikeEntries Number.valueEq m.data.entries n.data.entries &&
    m.position.x.valueEq n.position.x && m.position.y.valueEq n.position.y &&
    m.children == n.children

end Node

end BehaviorTree
