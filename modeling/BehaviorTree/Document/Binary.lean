import BehaviorTree.Document.Text
import BehaviorTree.Value.Binary

/-!
# Documents in binary form

The binary form begins with four characters, by which it is told apart from JSON text.
-/

namespace BehaviorTree

namespace Codec

def position : Codec Position :=
  (pair number number).map (fun (x, y) => ⟨x, y⟩) fun p => (p.x, p.y)

def metadata : Codec TreeMetadata :=
  (pair string string).map (fun (name, description) => ⟨name, description⟩)
    fun m => (m.name, m.description)

def nodeRecord : Codec NodeRecord :=
  (pair string (pair string (pair (dict Value.codec) (pair (list string) position)))).map
    (fun (id, typeId, config, children, position) => ⟨id, typeId, config, children, position⟩)
    fun r => (r.id, r.typeId, r.config, r.children, r.position)

def connection : Codec Connection :=
  (pair string (pair string (pair (option string) (pair (option string) named)))).map
    (fun (source, target, sourceSlot, targetSlot, kind) =>
      ⟨source, target, sourceSlot, targetSlot, kind⟩)
    fun c => (c.source, c.target, c.sourceSlot, c.targetSlot, c.kind)

/-- A variable: its name, scope, type and value. -/
def blackboardVariable : Codec Variable :=
  (pair string (pair named (pair named Value.codec))).map
    (fun (name, scope, type, value) => ⟨name, scope, type, value⟩)
    fun v => (v.name, v.scope, v.type, v.value)

def document : Codec TreeDocument :=
  (pair metadata (pair (list nodeRecord) (pair (list connection) (list blackboardVariable)))).map
    (fun (metadata, nodes, connections, vars) => ⟨metadata, nodes, connections, vars⟩)
    fun d => (d.metadata, d.nodes, d.connections, d.vars)

end Codec

namespace TreeDocument

/-- The characters at the beginning of a binary document: `KDT1`. -/
def header : List UInt8 := [75, 68, 84, 49]

def toBytes (d : TreeDocument) : List UInt8 := header ++ Codec.document.write d

/-- The document that bytes in binary form hold, with nothing after it. -/
def ofBytes (bytes : List UInt8) : Except DocumentError TreeDocument :=
  if header.isPrefixOf bytes then
    match Codec.document.read.run (bytes.drop header.length) with
    | none => .error .malformedBinary
    | some (d, []) => .ok d
    | some (_, rest) => .error (.trailingBytes rest.length)
  else .error .missingHeader

def isBinary (bytes : List UInt8) : Bool := header.isPrefixOf bytes

/-- The document that bytes of either form hold. -/
def decode (bytes : List UInt8) : Except DocumentError TreeDocument :=
  if isBinary bytes then ofBytes bytes
  else match String.fromUTF8? ⟨bytes.toArray⟩ with
    | some text => ofText text
    | none => .error .malformedJson

end TreeDocument

end BehaviorTree
