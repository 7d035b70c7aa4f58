import BehaviorTree.Blackboard.Shared
import BehaviorTree.Compilation.Executable
import BehaviorTree.Execution.Executor
import BehaviorTree.Graph.Validity
import BehaviorTree.History.Basic

/-!
# Workspaces

A workspace is one authored tree with what belongs to it: the graph, its history, the blackboard
and the templates. Every change of the graph goes through the history. A call that fails leaves
graph, history and blackboard as they were; only the number of an id that was given out stays used.
-/

namespace BehaviorTree

structure TreeMetadata where
  name : String
  description : String
deriving DecidableEq

inductive WorkspaceError where
  | unknownTemplate (typeId : String)
  | graph (cause : GraphError)
  | blackboard (cause : BlackboardError)
deriving DecidableEq

def WorkspaceError.message : WorkspaceError → String
  | .unknownTemplate typeId => s!"Unknown node template: '{typeId}'"
  | .graph cause => cause.message
  | .blackboard cause => cause.message

/-- What a change of type removed. -/
structure CompatibilityWarning where
  name : String
  scope : Scope
  newType : ValueType
  removed : List Connection
deriving DecidableEq

def CompatibilityWarning.text (w : CompatibilityWarning) : String :=
  s!"Removed {w.removed.length} connection(s) bound to '{w.name}': slots cannot accept " ++
    Named.name w.newType

structure Workspace where
  metadata : TreeMetadata
  graph : Graph
  history : History := {}
  shared : SharedBlackboard := {}
  registry : TemplateRegistry

namespace Workspace

/-- A workspace with the given templates, one of which must be the root's. -/
def withRegistry (name : String) (registry : TemplateRegistry) : Except WorkspaceError Workspace :=
  match registry.get? TypeId.root with
  | none => .error (.unknownTemplate TypeId.root)
  | some root => .ok { metadata := ⟨name, ""⟩, graph := .new root, registry := registry }

/-- A workspace with the builtin templates. -/
def new (name : String) : Workspace where
  metadata := ⟨name, ""⟩
  graph := match TemplateRegistry.builtin.get? TypeId.root with
    | some root => .new root
    | none => {}
  registry := .builtin

/-- The workspace with an empty history of a depth. -/
def withHistoryDepth (ws : Workspace) (depth : Nat) : Workspace :=
  { ws with history := .withDepth depth }

def board (ws : Workspace) : Blackboard := ws.shared.board

/-! ## Editing the graph -/

/-- Does a command through the history. -/
def execute (ws : Workspace) (command : Command) : Except WorkspaceError Unit × Workspace :=
  match ws.history.execute ws.graph command with
  | .ok (history, graph) => (.ok (), { ws with history := history, graph := graph })
  | .error e => (.error (.graph e), ws)

/-- Adds a node of a type and gives its new id. -/
def addNode (ws : Workspace) (typeId : String) (position : Position) (data : Dict Value) :
    Except WorkspaceError String × Workspace :=
  match ws.registry.get? typeId with
  | none => (.error (.unknownTemplate typeId), ws)
  | some template =>
    let (id, graph) := ws.graph.allocateId typeId
    let (result, ws) :=
      execute { ws with graph := graph } (.addNode (.ofTemplate id template position data))
    (result.map fun _ => id, ws)

def removeNodes (ws : Workspace) (ids : List String) : Except WorkspaceError Unit × Workspace :=
  ws.execute (.removeNodes ids)

def moveNodes (ws : Workspace) (moves : Dict Position) : Except WorkspaceError Unit × Workspace :=
  ws.execute (.moveNodes moves)

/-- Makes a connection and gives its id. -/
def addConnection (ws : Workspace) (c : Connection) : Except WorkspaceError String × Workspace :=
  let (result, ws) := ws.execute (.addConnection c)
  (result.map fun _ => c.id, ws)

/-- Makes a node the child of another. -/
def connect (ws : Workspace) (parent child : String) :
    Except WorkspaceError String × Workspace :=
  ws.addConnection (.toChild parent child)

/-- Leads the output of a node into a slot of another. -/
def bind (ws : Workspace) (source target slot : String) :
    Except WorkspaceError String × Workspace :=
  ws.addConnection (.toSlot source target slot)

/-- Removes the first connection with the given ends. -/
def removeConnection (ws : Workspace) (source target : String)
    (sourceSlot targetSlot : Option String) : Except WorkspaceError Unit × Workspace :=
  match ws.graph.connections.find? fun c => c.hasEnds source target sourceSlot targetSlot with
  | some c => ws.execute (.disconnect [c])
  | none => (.error (.graph (.connectionNotFound source target)), ws)

/-- Writes or clears an entry of a node's configuration. -/
def setProperty (ws : Workspace) (node key : String) (value : Option Value) :
    Except WorkspaceError Unit × Workspace :=
  ws.execute (.setProperty node key value)

def undo (ws : Workspace) : Bool × Workspace :=
  let (done, history, graph) := ws.history.undo ws.graph
  (done, { ws with history := history, graph := graph })

def redo (ws : Workspace) : Bool × Workspace :=
  let (done, history, graph) := ws.history.redo ws.graph
  (done, { ws with history := history, graph := graph })

/-! ## Variables -/

def defineVariable (ws : Workspace) (name : String) (type : ValueType) (initial : Value)
    (scope : Scope) : Except WorkspaceError Unit × Workspace :=
  let defined := ws.shared.transactExcept fun board =>
    (board.define name type initial scope).map fun board => ((), board)
  match defined with
  | .ok ((), shared) => (.ok (), { ws with shared := shared })
  | .error e => (.error (.blackboard e), ws)

/-- Removes the connections from a variable into slots that do not take its present type, as one
command. -/
def cascade (ws : Workspace) (name : String) (scope : Scope) :
    Except WorkspaceError (Option CompatibilityWarning) × Workspace :=
  match ws.board.find? name scope with
  | none => (.ok none, ws)
  | some v =>
    let removed := ws.graph.incompatibleBindings name scope v.type
    if removed.isEmpty then (.ok none, ws)
    else
      let (result, ws) := ws.execute (.disconnect removed)
      (result.map fun _ => some ⟨name, scope, v.type, removed⟩, ws)

/-- Writes a variable. If that changes its type, the connections that no longer fit are removed and
a warning tells of them. -/
def setVariable (ws : Workspace) (name : String) (value : Value) (scope : Scope) :
    Except WorkspaceError (Option CompatibilityWarning) × Workspace :=
  let (change, shared) := ws.shared.transact fun board => board.set name value scope
  let ws := { ws with shared := shared }
  match change with
  | some change => ws.cascade change.name change.scope
  | none => (.ok none, ws)

/-- The variables that type changes are about, each once. -/
def changedVariables (changes : List TypeChange) : List (String × Scope) :=
  (changes.map fun change => (change.name, change.scope)).eraseDups

/-- Removes what no longer fits for each of a list of variables. -/
def cascadeAll (ws : Workspace) :
    List (String × Scope) → Except WorkspaceError (List CompatibilityWarning) × Workspace
  | [] => (.ok [], ws)
  | (name, scope) :: rest =>
    match ws.cascade name scope with
    | (.error e, ws) => (.error e, ws)
    | (.ok warning, ws) =>
      let (result, ws) := cascadeAll ws rest
      (result.map (warning.toList ++ ·), ws)

/-- Removes what no longer fits after changes of type that were made elsewhere. -/
def reconcile (ws : Workspace) (changes : List TypeChange) :
    Except WorkspaceError (List CompatibilityWarning) × Workspace :=
  ws.cascadeAll (changedVariables changes)

def removeVariable (ws : Workspace) (name : String) (scope : Scope) :
    Option Variable × Workspace :=
  let (removed, shared) := ws.shared.transact fun board => board.remove name scope
  (removed, { ws with shared := shared })

/-- Points nodes at a variable of another name. -/
def repoint (ws : Workspace) (name : String) :
    List String → Except WorkspaceError Unit × Workspace
  | [] => (.ok (), ws)
  | id :: rest =>
    match ws.setProperty id "variableName" (some (.string name)) with
    | (.error e, ws) => (.error e, ws)
    | (.ok (), ws) => repoint ws name rest

/-- Gives a variable another name and points the nodes that referred to it at the new one. -/
def renameVariable (ws : Workspace) (former current : String) (scope : Scope) :
    Except WorkspaceError Unit × Workspace :=
  let renamed := ws.shared.transactExcept fun board =>
    (board.rename former current scope).map fun board => ((), board)
  match renamed with
  | .error e => (.error (.blackboard e), ws)
  | .ok ((), shared) =>
    let referring := ws.graph.nodes.filter fun n => n.variableReference? == some (former, scope)
    repoint { ws with shared := shared } current (referring.map Node.id)

/-- Leaves a write for the next tick. -/
def enqueueVariable (ws : Workspace) (name : String) (value : Value) (scope : Scope) : Workspace :=
  { ws with shared := { ws.shared with board := ws.board.enqueue name value scope } }

/-! ## Running -/

/-- Compiles the graph against the present blackboard, into a tree to run. -/
def build (ws : Workspace) (builder : TreeBuilder) : Except BuildError CompiledTree :=
  builder.build ws.graph ws.board.snapshot

/-- Compiles the graph against the present blackboard, into a list of nodes. -/
def compile (ws : Workspace) (builder : TreeBuilder) : Except BuildError ExecutableTree :=
  builder.compile ws.graph ws.board.snapshot

end Workspace

end BehaviorTree
