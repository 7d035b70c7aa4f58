import BehaviorTree.Document.Basic
import BehaviorTree.Json.Reader
import BehaviorTree.Json.Record
import BehaviorTree.Json.Writer
import BehaviorTree.Value.Json

/-!
# Documents as JSON text
-/

namespace BehaviorTree

namespace Position

def toJson (p : Position) : Json := .object [("x", .number p.x), ("y", .number p.y)]

def ofJson? (j : Json) : Option Position := do
  let fields ← j.fields? ["x", "y"]
  return ⟨← fields.required "x" Json.number?, ← fields.required "y" Json.number?⟩

end Position

namespace TreeMetadata

def toJson (m : TreeMetadata) : Json :=
  .object [("name", .string m.name), ("description", .string m.description)]

def ofJson? (j : Json) : Option TreeMetadata := do
  let fields ← j.fields? ["name", "description"]
  return ⟨← fields.required "name" Json.string?, ← fields.required "description" Json.string?⟩

end TreeMetadata

namespace NodeRecord

def toJson (r : NodeRecord) : Json :=
  .object [("id", .string r.id), ("node_type", .string r.typeId),
    ("config", Value.dictToJson r.config), ("children", .array (r.children.map .string)),
    ("position", r.position.toJson)]

def ofJson? (j : Json) : Option NodeRecord := do
  let fields ← j.fields? ["id", "node_type", "config", "children", "position"]
  return {
    id := ← fields.required "id" Json.string?
    typeId := ← fields.required "node_type" Json.string?
    config := ← fields.required "config" Value.dictOfJson?
    children := ← fields.required "children" (Json.list? Json.string?)
    position := ← fields.required "position" Position.ofJson? }

end NodeRecord

namespace Connection

def toJson (c : Connection) : Json :=
  .object [("from", .string c.source), ("to", .string c.target),
    ("from_property", Json.ofOption .string c.sourceSlot),
    ("to_property", Json.ofOption .string c.targetSlot),
    ("connection_type", Json.ofNamed c.kind)]

def ofJson? (j : Json) : Option Connection := do
  let fields ← j.fields? ["from", "to", "from_property", "to_property", "connection_type"]
  return {
    source := ← fields.required "from" Json.string?
    target := ← fields.required "to" Json.string?
    sourceSlot := ← fields.optional "from_property" Json.string?
    targetSlot := ← fields.optional "to_property" Json.string?
    kind := ← fields.required "connection_type" Json.named? }

end Connection

namespace Variable

def toJson (v : Variable) : Json :=
  .object [("name", .string v.name), ("scope", Json.ofNamed v.scope),
    ("value_type", Json.ofNamed v.type), ("value", v.value.toJson)]

def ofJson? (j : Json) : Option Variable := do
  let fields ← j.fields? ["name", "scope", "value_type", "value"]
  return {
    name := ← fields.required "name" Json.string?
    scope := ← fields.required "scope" Json.named?
    type := ← fields.required "value_type" Json.named?
    value := ← fields.required "value" Value.ofJson? }

end Variable

namespace TreeDocument

def toJson (d : TreeDocument) : Json :=
  .object [("metadata", d.metadata.toJson), ("nodes", .array (d.nodes.map NodeRecord.toJson)),
    ("connections", .array (d.connections.map Connection.toJson)),
    ("variables", .array (d.vars.map Variable.toJson))]

def ofJson? (j : Json) : Option TreeDocument := do
  let fields ← j.fields? ["metadata", "nodes", "connections", "variables"]
  return {
    metadata := ← fields.required "metadata" TreeMetadata.ofJson?
    nodes := ← fields.required "nodes" (Json.list? NodeRecord.ofJson?)
    connections := ← fields.required "connections" (Json.list? Connection.ofJson?)
    vars := ← fields.required "variables" (Json.list? Variable.ofJson?) }

/-- The document as pretty JSON text. -/
def toText (d : TreeDocument) : String := String.ofList (d.toJson.pretty 0)

/-- The document that a JSON text holds. -/
def ofText (text : String) : Except DocumentError TreeDocument :=
  match (Json.read text.toList).bind ofJson? with
  | some d => .ok d
  | none => .error .malformedJson

end TreeDocument

end BehaviorTree
