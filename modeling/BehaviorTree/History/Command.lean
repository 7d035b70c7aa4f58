import BehaviorTree.Graph.Edit

/-!
# Commands

A command is an edit that can be done, taken back and done again. Doing it gives a receipt, and the
receipt says all that taking it back needs.
-/

namespace BehaviorTree

/-- Connections of which no two have one id. -/
def firstOfEachId (connections : List Connection) : List Connection :=
  connections.foldl (fun kept c => if kept.any fun d => d.id == c.id then kept else kept ++ [c]) []

inductive Command where
  /-- Adds a node under the id it already has, so that doing it again gives the same node. -/
  | addNode (node : Node)
  | removeNodes (ids : List String)
  | moveNodes (moves : Dict Position)
  | addConnection (connection : Connection)
  | removeConnections (connections : List Connection)
  /-- Writes or clears an entry of a node's configuration. -/
  | setProperty (node key : String) (value : Option Value)
deriving DecidableEq

/-- What doing a command leaves for taking it back. -/
inductive Receipt where
  | added (node : String)
  | removed (nodes : RemovedNodes)
  | moved (before : Dict Position)
  | connected (change : ConnectionChange)
  /-- The changes, the last one first. -/
  | disconnected (changes : List ConnectionChange)
  | wrote (node key : String) (before : Option Value)
deriving DecidableEq

namespace Command

/-- The command that removes the given connections, each id once. -/
def disconnect (connections : List Connection) : Command :=
  .removeConnections (firstOfEachId connections)

/-- What the command is called in a menu. -/
def label : Command → String
  | addNode node => "Add " ++ node.template.displayName
  | removeNodes [_] => "Remove node"
  | removeNodes ids => s!"Remove {ids.length} nodes"
  | moveNodes moves => if moves.size = 1 then "Move node" else s!"Move {moves.size} nodes"
  | addConnection connection => "Connect " ++ connection.id
  | removeConnections [connection] => "Disconnect " ++ connection.id
  | removeConnections connections => s!"Remove {connections.length} connections"
  | setProperty node key _ => s!"Set {node}.{key}"

/-- Refuses a connection that the graph does not have. -/
def checkConnected (g : Graph) (c : Connection) : Except GraphError Unit :=
  if (g.connection? c.id).isSome then .ok () else .error (.connectionNotFound c.source c.target)

/-- Removes one connection and adds the change to those before it. -/
def disconnectStep (state : Graph × List ConnectionChange) (c : Connection) :
    Except GraphError (Graph × List ConnectionChange) := do
  let (g, change) ← state.1.disconnect c.id
  return (g, change :: state.2)

/-- Does the command. A graph on which it fails stays as it is. -/
def execute (g : Graph) : Command → Except GraphError (Graph × Receipt)
  | addNode node => do return (← g.addNode node, .added node.id)
  | removeNodes ids => do
    let (g, removed) ← g.removeNodes ids
    return (g, .removed removed)
  | moveNodes moves => do
    let (g, before) ← g.moveNodes moves
    return (g, .moved before)
  | addConnection connection => do
    let (g, change) ← g.connect connection
    return (g, .connected change)
  | removeConnections connections => do
    connections.forM (checkConnected g)
    let (g, changes) ← connections.foldlM disconnectStep (g, [])
    return (g, .disconnected changes)
  | setProperty node key value => do
    let (g, before) ← g.setProperty node key value
    return (g, .wrote node key before)

end Command

namespace Receipt

/-- The graph that an edit gives, or the old one if the edit fails. -/
def orElse {α : Type} (g : Graph) (result : Except GraphError (Graph × α)) : Graph :=
  match result with
  | .ok (edited, _) => edited
  | .error _ => g

/-- Takes back what the receipt is for. On a graph where that cannot be done nothing happens. -/
def undo (g : Graph) : Receipt → Graph
  | added node => orElse g (g.removeNodes [node])
  | removed nodes => g.restoreNodes nodes
  | moved before => orElse g (g.moveNodes before)
  | connected change => g.revertConnect change
  | disconnected changes => changes.foldl Graph.revertDisconnect g
  | wrote node key before => orElse g (g.setProperty node key before)

end Receipt

end BehaviorTree
