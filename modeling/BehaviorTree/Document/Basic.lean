import BehaviorTree.Workspace.Basic

/-!
# Documents

A document is what is stored of a workspace: names of types instead of templates, and the variables
of both scopes. Opening one checks the graph and defines the variables anew.
-/

namespace BehaviorTree

/-- A stored node. -/
structure NodeRecord where
  id : String
  typeId : String
  config : Dict Value
  children : List String
  position : Position
deriving DecidableEq

structure TreeDocument where
  metadata : TreeMetadata
  nodes : List NodeRecord
  connections : List Connection
  vars : List Variable
deriving DecidableEq

inductive DocumentError where
  /-- The text is no document in JSON. -/
  | malformedJson
  /-- The bytes do not begin as a binary document does. -/
  | missingHeader
  /-- The bytes are no document in binary form. -/
  | malformedBinary
  /-- Bytes follow the document. -/
  | trailingBytes (count : Nat)
  | unknownTemplate (node typeId : String)
  | graph (cause : GraphError)
  | blackboard (cause : BlackboardError)
deriving DecidableEq

def DocumentError.message : DocumentError → String
  | .malformedJson => "Failed to process tree document JSON"
  | .missingHeader => "Binary decoding failed: missing the binary document header"
  | .malformedBinary => "Binary decoding failed"
  | .trailingBytes count => s!"Binary decoding failed: {count} trailing bytes after the document"
  | .unknownTemplate node typeId =>
    s!"Node '{node}' references an unknown template: '{typeId}'"
  | .graph cause => "Invalid tree document: " ++ cause.message
  | .blackboard cause => "Invalid blackboard variable in document: " ++ cause.message

namespace NodeRecord

def ofNode (n : Node) : NodeRecord := ⟨n.id, n.typeId, n.data, n.children, n.position⟩

/-- The node of a record, with the template of its type. -/
def toNode (registry : TemplateRegistry) (r : NodeRecord) : Except DocumentError Node :=
  match registry.get? r.typeId with
  | none => .error (.unknownTemplate r.id r.typeId)
  | some template =>
    .ok { id := r.id, template := template, data := r.config, position := r.position,
          children := r.children }

/-- Equality as a comparison of contents: numbers are compared by value. -/
def sameContents (r s : NodeRecord) : Bool :=
  r.id == s.id && r.typeId == s.typeId &&
    Value.alikeEntries Number.valueEq r.config.entries s.config.entries &&
    r.children == s.children && r.position.x.valueEq s.position.x &&
    r.position.y.valueEq s.position.y

end NodeRecord

namespace TreeDocument

/-- The document of a workspace: the variables of the tree before those of the project, each scope
by name. -/
def ofWorkspace (ws : Workspace) : TreeDocument where
  metadata := ws.metadata
  nodes := ws.graph.nodes.map .ofNode
  connections := ws.graph.connections
  vars := ws.board.list .tree ++ ws.board.list .project

/-- Defines a stored variable. -/
def defineStored (board : Blackboard) (v : Variable) : Except BlackboardError Blackboard :=
  (board.define v.name v.type v.value v.scope).map fun board => { board with raised := [] }

/-- The workspace of a document. -/
def toWorkspace (d : TreeDocument) (registry : TemplateRegistry) :
    Except DocumentError Workspace := do
  let nodes ← d.nodes.mapM (NodeRecord.toNode registry)
  let graph ← (Graph.ofParts nodes d.connections).mapError .graph
  let board ← (d.vars.foldlM defineStored {}).mapError .blackboard
  return { metadata := d.metadata, graph := graph, shared := { board := board },
           registry := registry }

/-- Equality of variables as a comparison of contents. -/
def sameVariable (v w : Variable) : Bool :=
  v.name == w.name && v.scope == w.scope && v.type == w.type && v.value.valueEq w.value

/-- Equality as a comparison of contents: numbers are compared by value. -/
def sameContents (d e : TreeDocument) : Bool :=
  d.metadata == e.metadata &&
    d.nodes.length == e.nodes.length &&
    (d.nodes.zip e.nodes).all (fun p => p.1.sameContents p.2) &&
    d.connections == e.connections &&
    d.vars.length == e.vars.length &&
    (d.vars.zip e.vars).all (fun p => sameVariable p.1 p.2)

end TreeDocument

end BehaviorTree
