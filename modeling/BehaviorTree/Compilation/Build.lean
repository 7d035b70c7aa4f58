import BehaviorTree.Compilation.Error
import BehaviorTree.Compilation.Tree
import BehaviorTree.Graph.Basic
import BehaviorTree.Handler.Builtin

/-!
# Compiling a graph

The compiler follows the children of a node depth first, each node once, and finds out what each
node does and where its bound slots take their values from. Nodes that it does not meet do not
matter, whatever is wrong with them.
-/

namespace BehaviorTree

/-- What becomes of an action without a handler. -/
inductive Fallback where
  | reject
  | succeed
  | fail
  /-- Succeeds with a probability; meant for trial runs. -/
  | random (probability : Number)
deriving DecidableEq

structure TreeBuilder where
  /-- The id of the node at which the tree begins. -/
  rootId : String := Node.rootId
  /-- Handlers by node type. -/
  handlers : Dict Handler := .ofList (Handler.builtins.map fun h => (h.nodeType, h))
  /-- Builtin types that stand for other types. -/
  mapping : Dict String := .empty
  fallback : Fallback := .reject

/-- An output that a slot reads. -/
structure OutputUse where
  node : String
  slot : String
  source : String
deriving DecidableEq

/-- What the compiler has found so far. -/
structure Found where
  /-- The ids of the nodes met, latest first. -/
  met : List String := []
  /-- The outputs read, first one first. -/
  outputUses : List OutputUse := []

namespace TreeBuilder

def withRoot (b : TreeBuilder) (rootId : String) : TreeBuilder := { b with rootId := rootId }

/-- Treats nodes of a type as those of a builtin type. -/
def withMapping (b : TreeBuilder) (typeId builtin : String) : TreeBuilder :=
  { b with mapping := b.mapping.insert typeId builtin }

/-- Adds a handler, in place of the one for its node type. -/
def withHandler (b : TreeBuilder) (h : Handler) : TreeBuilder :=
  { b with handlers := b.handlers.insert h.nodeType h }

def withFallback (b : TreeBuilder) (fallback : Fallback) : TreeBuilder :=
  { b with fallback := fallback }

/-- The type that a type is treated as. -/
def canonical (b : TreeBuilder) (typeId : String) : String := (b.mapping.get? typeId).getD typeId

/-! ## Behavior -/

/-- What an action without a handler does. -/
def fallbackHandler? (b : TreeBuilder) (typeId : String) : Option Handler :=
  match b.fallback with
  | .reject => none
  | .succeed => some (.static typeId .success)
  | .fail => some (.static typeId .failure)
  | .random probability => some (.randomOutcome typeId probability)

/-- What a node does. -/
def behavior (b : TreeBuilder) (n : Node) : Except BuildError Behavior :=
  let typeId := b.canonical n.typeId
  let unknown : Except BuildError Behavior := .error (.unknownNodeType n.id n.typeId)
  match n.kind with
  | .root => .ok .root
  | .composite => match Named.ofName? typeId with
    | some kind => .ok (.composite kind)
    | none => unknown
  | .decorator =>
    if n.children.length ≠ 1 then
      .error (.invalidStructure n.id (.decoratorChildren n.children.length))
    else match Named.ofName? typeId with
      | some kind => .ok (.decorator kind)
      | none => unknown
  | .condition => match b.handlers.get? typeId with
    | some h => .ok (.handler h)
    | none => .ok .condition
  | .action => match (b.handlers.get? typeId).or (b.fallbackHandler? n.typeId) with
    | some h => .ok (.handler h)
    | none => unknown
  | .data => .error (.invalidStructure n.id .dataNode)

/-! ## Bindings -/

/-- The source that a connection from a node stands for. Variables must be defined. -/
def source (b : TreeBuilder) (snapshot : BlackboardSnapshot) (n : Node) :
    Except SourceFault ValueSource :=
  let typeId := b.canonical n.typeId
  if typeId = TypeId.blackboardVariable then
    match n.variableReference? with
    | none => .error (.namesNoVariable n.id)
    | some (name, scope) =>
      if snapshot.contains name scope then .ok (.variable name scope)
      else .error (.undefinedVariable name scope)
  else if typeId = TypeId.constant then .ok (.constant ((n.data.get? "value").getD .null))
  else if n.kind = .data then .error (.noValue n.id n.typeId)
  else .ok (.output n.id)

/-- The slot and source of a connection into a node; none if it names no slot. -/
def slotSource (b : TreeBuilder) (g : Graph) (snapshot : BlackboardSnapshot) (n : Node)
    (c : Connection) : Except BuildError (Option (String × ValueSource)) :=
  match c.targetSlot with
  | none => .ok none
  | some slot =>
    let resolved : Except SourceFault ValueSource := match g.node? c.source with
      | none => .error (.missing c.source)
      | some node => b.source snapshot node
    match resolved with
    | .ok source => .ok (some (slot, source))
    | .error fault => .error (.unresolvedBinding n.id slot fault)

/-- The slots of a node with their sources, in the order of the connections. -/
def slotSources (b : TreeBuilder) (g : Graph) (snapshot : BlackboardSnapshot) (n : Node) :
    Except BuildError (List (String × ValueSource)) :=
  ((g.bindingsInto n.id).mapM (b.slotSource g snapshot n)).map fun found => found.filterMap id

/-- Adds a source to those of its slot. -/
def addSource (n : Node) (bindings : Dict Binding) (entry : String × ValueSource) : Dict Binding :=
  let before := ((bindings.get? entry.1).map (·.sources)).getD []
  let multiplexed := ((n.template.slot? entry.1).map (·.multiple)).getD false
  bindings.insert entry.1 ⟨before ++ [entry.2], multiplexed⟩

/-- The bindings of a node, from its slots and their sources. -/
def bindings (n : Node) (sources : List (String × ValueSource)) : Dict Binding :=
  sources.foldl (addSource n) .empty

/-- The outputs among the sources of a node. -/
def outputUses (n : Node) (sources : List (String × ValueSource)) : List OutputUse :=
  sources.filterMap fun entry => match entry.2 with
    | .output source => some ⟨n.id, entry.1, source⟩
    | _ => none

/-! ## Structure -/

/-- A node that has not been met before. -/
def enter (g : Graph) (path : List String) (id parent : String) (found : Found) :
    Except BuildError Node :=
  if path.contains id then .error (.cyclicStructure id)
  else if found.met.contains id then .error (.invalidStructure id .manyParents)
  else match g.node? id with
    | none => .error (.invalidStructure parent (.missingChild id))
    | some n => .ok n

/-- The compiled node, and what is found with it. -/
def compileOne (b : TreeBuilder) (g : Graph) (snapshot : BlackboardSnapshot) (n : Node)
    (found : Found) : Except BuildError (CompiledNode × Found) := do
  let behavior ← b.behavior n
  let sources ← b.slotSources g snapshot n
  let compiled : CompiledNode :=
    { id := n.id, typeId := n.typeId, kind := n.kind, config := n.data,
      bindings := bindings n sources, behavior := behavior }
  return (compiled, ⟨n.id :: found.met, found.outputUses ++ outputUses n sources⟩)

/-- The trees below ids, one after the other, each compiled by `below`. -/
def compileAll (below : String → Found → Except BuildError (Tree CompiledNode × Found)) :
    List String → Found → Except BuildError (List (Tree CompiledNode) × Found)
  | [], found => .ok ([], found)
  | id :: rest, found => do
    let (tree, found) ← below id found
    let (trees, found) ← compileAll below rest found
    return (tree :: trees, found)

/-- The tree below an id. `path` holds the ids above it, and the fuel bounds their number, which
that of the nodes does too. -/
def compileTree (b : TreeBuilder) (g : Graph) (snapshot : BlackboardSnapshot) :
    Nat → List String → String → String → Found → Except BuildError (Tree CompiledNode × Found)
  | 0, _, _, id, _ => .error (.cyclicStructure id)
  | fuel + 1, path, parent, id, found => do
    let n ← enter g path id parent found
    let (compiled, found) ← compileOne b g snapshot n found
    let (children, found) ←
      compileAll (compileTree b g snapshot fuel (n.id :: path) n.id) n.children found
    return (.node compiled children, found)

/-- Refuses an output of a node that is no part of the tree. -/
def checkOutputs (found : Found) : Except BuildError Unit :=
  match found.outputUses.find? fun use => !found.met.contains use.source with
  | some use => .error (.unresolvedBinding use.node use.slot (.notCompiled use.source))
  | none => .ok ()

/-- Compiles the tree below the root. Variables that slots are bound to must be defined in the
snapshot; their values are read while the tree runs. -/
def build (b : TreeBuilder) (g : Graph) (snapshot : BlackboardSnapshot) :
    Except BuildError CompiledTree := do
  match g.node? b.rootId with
  | none => throw (.noRoot b.rootId)
  | some root =>
    if 1 < root.children.length then throw (.multipleRootChildren root.children.length)
    let (tree, found) ← compileTree b g snapshot (g.nodes.length + 1) [] root.id root.id {}
    checkOutputs found
    let excluded := g.nodes.filter fun n => n.kind != .data && !found.met.contains n.id
    return ⟨tree, excluded.map (·.id)⟩

end TreeBuilder

end BehaviorTree
