import BehaviorTree.Value.Basic

/-!
# Node templates

A template describes a type of node: its role in the tree, how it is shown, and the slots it is
configured through. A registry holds templates by their type id.
-/

namespace BehaviorTree

/-- The role of a node in a tree. -/
inductive NodeKind where
  | root
  | composite
  | decorator
  | condition
  | action
  /-- Supplies values to other nodes and is never run. -/
  | data
deriving DecidableEq, Inhabited

instance : Named NodeKind where
  all := [.root, .composite, .decorator, .condition, .action, .data]
  name
    | .root => "root"
    | .composite => "composite"
    | .decorator => "decorator"
    | .condition => "condition"
    | .action => "action"
    | .data => "data"
  mem_all a := by cases a <;> decide
  name_inj {a b} h := by cases a <;> cases b <;> first | rfl | simp at h

def NodeKind.acceptsChildren : NodeKind → Bool
  | .root | .composite | .decorator => true
  | .condition | .action | .data => false

/-- A named and typed property slot. -/
structure SlotDef where
  name : String
  slotType : SlotType
  default : Option Value := none
  /-- The texts a choice offers. -/
  options : List String := []
  /-- Whether more than one connection may lead into the slot. -/
  multiple : Bool := false
deriving DecidableEq

structure NodeTemplate where
  /-- The type id. -/
  id : String
  kind : NodeKind
  displayName : String
  category : String
  /-- What a new node is configured with. -/
  defaultConfig : Dict Value
  slots : List SlotDef
deriving DecidableEq

namespace NodeTemplate

/-- A template without slots, in the category of its kind. -/
def new (id : String) (kind : NodeKind) (displayName : String) : NodeTemplate where
  id := id
  kind := kind
  displayName := displayName
  category := Named.name kind
  defaultConfig := .empty
  slots := []

def withCategory (t : NodeTemplate) (category : String) : NodeTemplate :=
  { t with category := category }

/-- Adds a slot; its default value becomes part of the configuration of new nodes. -/
def withSlot (t : NodeTemplate) (slot : SlotDef) : NodeTemplate where
  id := t.id
  kind := t.kind
  displayName := t.displayName
  category := t.category
  defaultConfig := match slot.default with
    | some value => t.defaultConfig.insert slot.name value
    | none => t.defaultConfig
  slots := t.slots ++ [slot]

/-- The first slot of a name. -/
def slot? (t : NodeTemplate) (name : String) : Option SlotDef :=
  t.slots.find? fun slot => slot.name == name

/-- Equality as a comparison of contents: numbers in defaults are compared by value. -/
def sameContents (s t : NodeTemplate) : Bool :=
  let sameDefault (a b : Option Value) : Bool := match a, b with
    | none, none => true
    | some a, some b => a.valueEq b
    | _, _ => false
  let sameSlot (a b : SlotDef) : Bool :=
    a.name == b.name && a.slotType == b.slotType && sameDefault a.default b.default &&
      a.options == b.options && a.multiple == b.multiple
  s.id == t.id && s.kind == t.kind && s.displayName == t.displayName &&
    s.category == t.category &&
    Value.alikeEntries Number.valueEq s.defaultConfig.entries t.defaultConfig.entries &&
    s.slots.length == t.slots.length && (s.slots.zip t.slots).all fun p => sameSlot p.1 p.2

end NodeTemplate

/-- Templates by type id. -/
structure TemplateRegistry where
  templates : Dict NodeTemplate := .empty
  /-- A template is found under its own type id. -/
  keyed : ∀ id t, templates.get? id = some t → t.id = id := by exact fun _ _ h => nomatch h

namespace TemplateRegistry

def get? (r : TemplateRegistry) (id : String) : Option NodeTemplate := r.templates.get? id

def contains (r : TemplateRegistry) (id : String) : Bool := r.templates.contains id

def size (r : TemplateRegistry) : Nat := r.templates.size

def isEmpty (r : TemplateRegistry) : Bool := r.templates.isEmpty

/-- Adds a template, in place of the one with its id. -/
def register (r : TemplateRegistry) (t : NodeTemplate) : TemplateRegistry where
  templates := r.templates.insert t.id t
  keyed id u found := by
    by_cases same : id = t.id
    · subst same
      rw [Dict.get?_insert_self] at found
      exact Option.some.inj found ▸ rfl
    · rw [Dict.get?_insert_of_ne _ same] at found
      exact r.keyed id u found

/-- The order of a palette: by category and then by id. -/
def paletteLe (s t : NodeTemplate) : Bool :=
  s.category < t.category || (s.category == t.category && s.id ≤ t.id)

/-- All templates in palette order. -/
def palette (r : TemplateRegistry) : List NodeTemplate := r.templates.values.mergeSort paletteLe

end TemplateRegistry

end BehaviorTree
