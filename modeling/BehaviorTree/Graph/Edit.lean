import BehaviorTree.Graph.Error
import BehaviorTree.Graph.Reachability

/-!
# Editing a graph

Each edit that succeeds gives the graph after it and a record from which the edit can be taken
back exactly: the places and contents of what was removed, and the children of a parent before the
change. An edit that fails changes nothing.
-/

namespace BehaviorTree

/-- What a removal of nodes took away. -/
structure RemovedNodes where
  /-- The nodes with their places among the nodes, ascending. -/
  nodes : List (Nat × Node)
  /-- The connections with their places among the connections, ascending. -/
  connections : List (Nat × Connection)
  /-- The former children of the parents that stay. -/
  parents : List (String × List String)
deriving DecidableEq

/-- A connection that was made or removed. -/
structure ConnectionChange where
  /-- The place of the connection. -/
  index : Nat
  connection : Connection
  /-- The parent's children before, if the connection is one to a child. -/
  priorChildren : Option (List String)
deriving DecidableEq

namespace Graph

/-- Changes every node of an id. -/
def update (g : Graph) (id : String) (f : Node → Node) : Graph :=
  { g with nodes := g.nodes.map fun n => if n.id = id then f n else n }

def setChildren (g : Graph) (id : String) (children : List String) : Graph :=
  g.update id fun n => { n with children := children }

/-- Inserts at a place, or at the end if the list is shorter. -/
def insertAt {α : Type} (xs : List α) (place : Nat) (x : α) : List α :=
  xs.insertIdx (min place xs.length) x

/-- Takes out the entries at ascending places. The last one goes first, so that the others still
stand where they stood. -/
def eraseAll {α : Type} (xs : List α) (places : List Nat) : List α :=
  places.foldr (fun place xs => xs.eraseIdx place) xs

/-! ## New ids -/

/-- The first number after `last` whose id no node has, tried at most `fuel` times. -/
def freshNumber (g : Graph) (typeId : String) : Nat → Nat → Nat
  | 0, last => last + 1
  | fuel + 1, last =>
    if g.contains (typeId ++ "-" ++ toString (last + 1)) then freshNumber g typeId fuel (last + 1)
    else last + 1

/-- Gives out an id for a node of a type. Among as many numbers as there are nodes and one more,
one is free. -/
def allocateId (g : Graph) (typeId : String) : String × Graph :=
  let number := g.freshNumber typeId g.nodes.length g.lastId
  (typeId ++ "-" ++ toString number, { g with lastId := number })

/-! ## Nodes -/

/-- Whether a node may be added. -/
def checkNewNode (g : Graph) (n : Node) : Except GraphError Unit :=
  if g.contains n.id then .error (.duplicateNode n.id)
  else if n.kind = .root then
    if g.nodes.any fun m => m.kind == .root then .error .duplicateRoot
    else if n.id ≠ Node.rootId then .error (.misnamedRoot Node.rootId)
    else .ok ()
  else if n.id = Node.rootId then .error (.reservedRootId Node.rootId)
  else .ok ()

/-- Adds a node after all others. -/
def addNode (g : Graph) (n : Node) : Except GraphError Graph := do
  g.checkNewNode n
  return { g with nodes := g.nodes ++ [n] }

/-- Whether a node may be removed. -/
def checkRemovable (g : Graph) (id : String) : Except GraphError Unit :=
  if id = Node.rootId then .error .rootRemoval
  else if !g.contains id then .error (.nodeNotFound id)
  else .ok ()

/-- What leaves the graph together with the nodes of the given ids. -/
def removalOf (g : Graph) (ids : List String) : RemovedNodes where
  nodes := (g.nodes.zipIdx.filter fun p => ids.contains p.1.id).map fun p => (p.2, p.1)
  connections := (g.connections.zipIdx.filter fun p =>
    ids.contains p.1.source || ids.contains p.1.target).map fun p => (p.2, p.1)
  parents := (g.nodes.filter fun n =>
    !ids.contains n.id && n.children.any ids.contains).map fun n => (n.id, n.children)

/-- Takes away what is recorded of a removal: connections and nodes where they stand, and the removed
ids among the children of the parents that stay. -/
def takeAway (g : Graph) (ids : List String) (removed : RemovedNodes) : Graph :=
  let connections := eraseAll g.connections (removed.connections.map (·.1))
  let unlink (g : Graph) (p : String × List String) : Graph :=
    g.update p.1 fun n =>
      { n with children := n.children.filter fun child => !ids.contains child }
  let g := removed.parents.foldl unlink { g with connections := connections }
  { g with nodes := eraseAll g.nodes (removed.nodes.map (·.1)) }

/-- Removes nodes with their connections. -/
def removeNodes (g : Graph) (ids : List String) : Except GraphError (Graph × RemovedNodes) := do
  ids.forM g.checkRemovable
  let removed := g.removalOf ids
  return (g.takeAway ids removed, removed)

/-- Puts a removed node back; a node of its id that is there already becomes it. -/
def restoreNode (g : Graph) (place : Nat) (n : Node) : Graph :=
  { g with nodes := insertAt g.nodes place n }.update n.id fun _ => n

/-- Takes a removal back. -/
def restoreNodes (g : Graph) (removed : RemovedNodes) : Graph :=
  let g := removed.nodes.foldl (fun g p => g.restoreNode p.1 p.2) g
  let connections := removed.connections.foldl (fun cs p => insertAt cs p.1 p.2) g.connections
  removed.parents.foldl (fun g p => g.setChildren p.1 p.2) { g with connections := connections }

/-- The position of a node that must exist. -/
def positionOf (g : Graph) (id : String) : Except GraphError (String × Position) :=
  match g.node? id with
  | some n => .ok (id, n.position)
  | none => .error (.nodeNotFound id)

/-- Moves nodes and gives their positions before. The order of siblings stays. -/
def moveNodes (g : Graph) (moves : Dict Position) : Except GraphError (Graph × Dict Position) := do
  let before ← moves.keys.mapM g.positionOf
  let place (g : Graph) (p : String × Position) : Graph :=
    g.update p.1 fun n => { n with position := p.2 }
  return (moves.entries.foldl place g, Dict.ofList before)

/-- Writes or clears one entry of a node's configuration and gives what stood there. -/
def setProperty (g : Graph) (id key : String) (value : Option Value) :
    Except GraphError (Graph × Option Value) :=
  match g.node? id with
  | none => .error (.nodeNotFound id)
  | some n =>
    let data := match value with
      | some value => n.data.insert key value
      | none => n.data.erase key
    .ok (g.update id fun n => { n with data := data }, n.data.get? key)

/-! ## The order of siblings -/

/-- The place of a node, counted from one; zero if there is no such node. -/
def rank (g : Graph) (id : String) : Nat :=
  g.nodes.zipIdx.foldl (fun found p => if p.1.id = id then p.2 + 1 else found) 0

/-- Siblings go by ascending x, then ascending y, then the order in which they were added. -/
def siblingLe (g : Graph) (a b : String) : Bool :=
  let position (id : String) : Position := ((g.node? id).map (·.position)).getD {}
  let (ax, bx) := ((position a).x.totalKey, (position b).x.totalKey)
  let (ay, byy) := ((position a).y.totalKey, (position b).y.totalKey)
  ax < bx || (ax == bx && (ay < byy || (ay == byy && g.rank a ≤ g.rank b)))

/-- Puts the children of a node into the order of siblings. -/
def sortChildren (g : Graph) (parent : String) : Graph :=
  g.setChildren parent ((g.children parent).mergeSort g.siblingLe)

/-! ## Connections -/

/-- Whether a parent may get a child. -/
def checkNewChild (g : Graph) (source target : Node) : Except GraphError Unit :=
  if target.kind = .root then .error .rootAsChild
  else if target.kind = .data then .error (.dataChild target.id)
  else if !source.kind.acceptsChildren then .error (.childrenNotAllowed source.id source.kind)
  else if source.kind = .decorator ∧ source.children ≠ [] then
    .error (.decoratorHasChild source.id)
  else match g.parent? target.id with
    | some parent => .error (.alreadyParented target.id parent)
    | none =>
      if g.isReachable target.id source.id then .error (.cycle source.id target.id) else .ok ()

/-- Whether a slot may get another source. -/
def checkNewBinding (g : Graph) (target : Node) (slotName : Option String) :
    Except GraphError Unit :=
  match slotName with
  | none => .error (.missingTargetSlot target.id)
  | some slotName =>
    match target.template.slot? slotName with
    | none => .error (.unknownSlot target.id slotName)
    | some slot =>
      let occupied := (g.bindingsInto target.id).any fun c => c.targetSlot == some slotName
      if occupied && !slot.multiple then .error (.slotOccupied target.id slotName) else .ok ()

/-- The child that keeps a root from getting another. -/
def rootChild? (source : Node) : Option String :=
  if source.kind = .root then source.children.head? else none

/-- Whether a connection may be made. -/
def checkConnection (g : Graph) (c : Connection) : Except GraphError Unit :=
  match g.node? c.source, g.node? c.target with
  | none, _ => .error (.nodeNotFound c.source)
  | some _, none => .error (.nodeNotFound c.target)
  | some source, some target =>
    match (if c.isChild then rootChild? source else none) with
    | some existing => .error (.rootAlreadyHasChild existing)
    | none =>
      if c.source = c.target then .error (.selfConnection c.source)
      else if g.connections.any fun d => d.id == c.id then .error (.duplicateConnection c.id)
      else match c.kind with
        | .child => g.checkNewChild source target
        | .binding => g.checkNewBinding target c.targetSlot

/-- Makes a connection after all others; a new child takes its place among its siblings. -/
def connect (g : Graph) (c : Connection) : Except GraphError (Graph × ConnectionChange) := do
  g.checkConnection c
  let change (prior : Option (List String)) : ConnectionChange :=
    ⟨g.connections.length, c, prior⟩
  let connected : Graph := { g with connections := g.connections ++ [c] }
  if c.isChild then
    let prior := g.children c.source
    return ((connected.setChildren c.source (prior ++ [c.target])).sortChildren c.source,
      change (some prior))
  else return (connected, change none)

/-- The graph without the connection at a place. A child connection takes the child with it. -/
def disconnectAt (g : Graph) (index : Nat) (c : Connection) : Graph × ConnectionChange :=
  let cut : Graph := { g with connections := g.connections.eraseIdx index }
  if c.isChild && g.contains c.source then
    let prior := g.children c.source
    let rest := prior.filter fun child => child != c.target
    ((cut.setChildren c.source rest).sortChildren c.source, ⟨index, c, some prior⟩)
  else (cut, ⟨index, c, none⟩)

/-- Removes the first connection of an id. -/
def disconnect (g : Graph) (id : String) : Except GraphError (Graph × ConnectionChange) :=
  match g.connections.zipIdx.find? fun p => p.1.id == id with
  | some (c, index) => .ok (g.disconnectAt index c)
  | none => .error (.connectionNotFound id id)

/-- Gives the parent of a changed connection its former children. -/
def restoreChildren (g : Graph) (change : ConnectionChange) : Graph :=
  match change.priorChildren with
  | some prior => g.setChildren change.connection.source prior
  | none => g

/-- Takes `connect` back. -/
def revertConnect (g : Graph) (change : ConnectionChange) : Graph :=
  let connections := g.connections.eraseP fun c => c.id == change.connection.id
  { g with connections := connections }.restoreChildren change

/-- Takes `disconnect` back. -/
def revertDisconnect (g : Graph) (change : ConnectionChange) : Graph :=
  let connections := insertAt g.connections change.index change.connection
  { g with connections := connections }.restoreChildren change

end Graph

end BehaviorTree
