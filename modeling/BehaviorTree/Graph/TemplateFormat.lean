import BehaviorTree.Graph.Template
import BehaviorTree.Json.Record
import BehaviorTree.Value.Binary
import BehaviorTree.Value.Json

/-!
# Written forms of templates
-/

namespace BehaviorTree

def SlotDef.toJson (slot : SlotDef) : Json :=
  .object [("name", .string slot.name), ("property_type", Json.ofNamed slot.slotType),
    ("default", Json.ofOption Value.toJson slot.default),
    ("options", .array (slot.options.map .string)),
    ("allow_multiple_connections", .bool slot.multiple)]

def NodeTemplate.toJson (t : NodeTemplate) : Json :=
  .object [("id", .string t.id), ("kind", Json.ofNamed t.kind),
    ("display_name", .string t.displayName), ("category", .string t.category),
    ("default_config", Value.dictToJson t.defaultConfig),
    ("properties", .array (t.slots.map SlotDef.toJson))]

namespace Codec

def slotDef : Codec SlotDef :=
  (pair string (pair named (pair (option Value.codec) (pair (list string) bool)))).map
    (fun (name, slotType, default, options, multiple) =>
      ⟨name, slotType, default, options, multiple⟩)
    fun slot => (slot.name, slot.slotType, slot.default, slot.options, slot.multiple)

def template : Codec NodeTemplate :=
  (pair string (pair named (pair string (pair string (pair (dict Value.codec)
    (list slotDef)))))).map
    (fun (id, kind, displayName, category, defaultConfig, slots) =>
      ⟨id, kind, displayName, category, defaultConfig, slots⟩)
    fun t => (t.id, t.kind, t.displayName, t.category, t.defaultConfig, t.slots)

end Codec

end BehaviorTree
