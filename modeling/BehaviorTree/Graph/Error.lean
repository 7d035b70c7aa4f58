import BehaviorTree.Graph.Template

/-!
# Why a graph refuses
-/

namespace BehaviorTree

inductive GraphError where
  | nodeNotFound (node : String)
  | duplicateNode (node : String)
  | duplicateRoot
  | rootRemoval
  /-- There is no node with the root's id. -/
  | missingRoot (rootId : String)
  | multipleRootChildren (count : Nat)
  | selfConnection (node : String)
  | duplicateConnection (connection : String)
  /-- No connection has this id. -/
  | connectionNotFound (source target : String)
  | rootAlreadyHasChild (existing : String)
  | rootAsChild
  | alreadyParented (child parent : String)
  | childrenNotAllowed (node : String) (kind : NodeKind)
  | decoratorHasChild (node : String)
  | cycle (source target : String)
  | missingTargetSlot (node : String)
  | unknownSlot (node slot : String)
  | slotOccupied (node slot : String)
  /-- A node other than a root has the root's id. -/
  | reservedRootId (rootId : String)
  /-- A root has another id than the root's. -/
  | misnamedRoot (rootId : String)
  | dataChild (node : String)
  | childWithoutConnection (child parent : String)
  | connectionWithoutChild (connection parent : String)
deriving DecidableEq

namespace GraphError

/-- What is said of a graph whose parts contradict each other. -/
def inconsistent (detail : String) : String := "The graph is inconsistent: " ++ detail

def message : GraphError → String
  | nodeNotFound node => s!"Node '{node}' not found in the graph"
  | duplicateNode node => s!"A node with id '{node}' already exists"
  | duplicateRoot => "The graph already has a root node"
  | rootRemoval => "The root node cannot be removed"
  | missingRoot rootId => s!"The graph has no root node '{rootId}'"
  | multipleRootChildren count =>
    s!"The root node has {count} children, but at most one is allowed"
  | selfConnection node => s!"Node '{node}' cannot be connected to itself"
  | duplicateConnection connection => s!"Connection '{connection}' already exists"
  | connectionNotFound source target => s!"Connection from '{source}' to '{target}' not found"
  | rootAlreadyHasChild existing => s!"The root node already has a child ('{existing}')"
  | rootAsChild => "The root node cannot be the child of another node"
  | alreadyParented child parent => s!"Node '{child}' already has the parent '{parent}'"
  | childrenNotAllowed node kind =>
    s!"Node '{node}' of kind '" ++ Named.name kind ++ "' cannot have children"
  | decoratorHasChild node => s!"Decorator '{node}' already has a child"
  | cycle source target => s!"Connecting '{source}' to '{target}' would create a cycle"
  | missingTargetSlot node => s!"Property connections into '{node}' must name a target slot"
  | unknownSlot node slot => s!"Node '{node}' has no property slot named '{slot}'"
  | slotOccupied node slot =>
    s!"Slot '{slot}' on node '{node}' is already connected and does not accept multiple " ++
      "connections"
  | reservedRootId rootId => inconsistent s!"'{rootId}' is reserved for the root node"
  | misnamedRoot rootId => inconsistent s!"the root node must use the id '{rootId}'"
  | dataChild node => inconsistent s!"data node '{node}' cannot be a child"
  | childWithoutConnection child parent =>
    inconsistent s!"child '{child}' of '{parent}' has no node connection"
  | connectionWithoutChild connection parent =>
    inconsistent s!"connection '{connection}' is missing from the children of '{parent}'"

end GraphError

end BehaviorTree
