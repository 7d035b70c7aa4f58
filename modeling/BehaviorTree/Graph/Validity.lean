import BehaviorTree.Graph.Error
import BehaviorTree.Graph.Reachability

/-!
# Valid graphs

`Graph.validate` checks a whole graph and names the first thing wrong with it. `Graph.ofParts`
makes a graph of stored nodes and connections, if they form a valid one.
-/

namespace BehaviorTree.Graph

/-- There is one node of the root's kind, it has the root's id, and at most one child. -/
def checkRoot (g : Graph) : Except GraphError Unit :=
  match g.root? with
  | none => .error (.missingRoot Node.rootId)
  | some root =>
    if root.kind ≠ .root then .error (.reservedRootId Node.rootId)
    else if 1 < ((g.nodes.filter fun n => n.kind == .root).map (·.id)).eraseDups.length then
      .error .duplicateRoot
    else if 1 < root.children.length then .error (.multipleRootChildren root.children.length)
    else .ok ()

/-- The parents found so far, by child. -/
abbrev Parents := List (String × String)

/-- A child of `parent` exists, is not the root, has no other parent and is connected. -/
def checkChild (g : Graph) (parent : String) (parents : Parents) (child : String) :
    Except GraphError Parents :=
  if !g.contains child then .error (.nodeNotFound child)
  else if child = Node.rootId then .error .rootAsChild
  else match parents.lookup child with
    | some previous => .error (.alreadyParented child previous)
    | none =>
      if g.connections.any fun c => c.isChild && c.source == parent && c.target == child then
        .ok ((child, parent) :: parents)
      else .error (.childWithoutConnection child parent)

/-- The children of a node are as its kind allows, and each is in order. -/
def checkChildren (g : Graph) (parents : Parents) (n : Node) : Except GraphError Parents :=
  if !n.children.isEmpty && !n.kind.acceptsChildren then
    .error (.childrenNotAllowed n.id n.kind)
  else if n.kind = .decorator ∧ 1 < n.children.length then .error (.decoratorHasChild n.id)
  else n.children.foldlM (checkChild g n.id) parents

/-- Both ends of a connection exist, and a child connection stands for a child. -/
def checkEnds (g : Graph) (c : Connection) : Except GraphError Unit :=
  if !g.contains c.source then .error (.nodeNotFound c.source)
  else if !g.contains c.target then .error (.nodeNotFound c.target)
  else if c.isChild && !(g.children c.source).contains c.target then
    .error (.connectionWithoutChild c.id c.source)
  else .ok ()

/-- No child of a node leads back to it. -/
def checkAcyclic (g : Graph) (n : Node) : Except GraphError Unit :=
  n.children.forM fun child =>
    if g.isReachable child n.id then .error (.cycle n.id child) else .ok ()

/-- Whether the graph is one tree under its root and any number of detached ones, with children
and connections that agree. -/
def validate (g : Graph) : Except GraphError Unit := do
  g.checkRoot
  let _ ← g.nodes.foldlM g.checkChildren []
  g.connections.forM g.checkEnds
  g.nodes.forM g.checkAcyclic

/-- Adds a stored node to those before it. -/
def addStored (nodes : List Node) (n : Node) : Except GraphError (List Node) :=
  if nodes.any fun m => m.id == n.id then .error (.duplicateNode n.id) else .ok (nodes ++ [n])

/-- Adds the id of a stored connection to those before it. -/
def addStoredConnection (seen : List String) (c : Connection) : Except GraphError (List String) :=
  if c.source = c.target then .error (.selfConnection c.source)
  else if seen.contains c.id then .error (.duplicateConnection c.id)
  else .ok (c.id :: seen)

/-- The graph of stored nodes and connections. -/
def ofParts (nodes : List Node) (connections : List Connection) : Except GraphError Graph := do
  let nodes ← nodes.foldlM addStored []
  let _ ← connections.foldlM addStoredConnection []
  let g : Graph := { nodes := nodes, connections := connections }
  g.validate
  return g

end BehaviorTree.Graph
