import BehaviorTree.Compilation.Build

/-!
# Executable trees

An executable tree lists its nodes in the order in which the compiler comes to them. A node is
appended before the compiler goes on to its children, and their places are filled in when it comes
back from them. Beside the list the compiler keeps the place of every id, and the ids on the way
down to the node at hand. `TreeBuilder.build` gives the same tree with its nodes nested, which is
the form in which a tree is run (`TreeBuilder.compile_eq`).
-/

namespace BehaviorTree

/-- A compiled node, with the places of its children. -/
structure PlacedNode extends CompiledNode where
  children : List Nat

structure ExecutableTree where
  /-- The nodes, with the root at place zero. -/
  nodes : List PlacedNode
  /-- The places of the nodes. -/
  index : Dict Nat
  /-- The nodes of the graph, other than data nodes, that are no part of the tree. -/
  excluded : List String

namespace ExecutableTree

def size (t : ExecutableTree) : Nat := t.nodes.length

def node? (t : ExecutableTree) (i : Nat) : Option PlacedNode := t.nodes[i]?

/-- The place of a node. -/
def indexOf (t : ExecutableTree) (id : String) : Option Nat := t.index.get? id

/-- What is visited by going on from the top of a stack to the children, whose places are put on
the stack instead. There is nothing if a place is beyond the end, or if the walk takes more steps
than the fuel allows. -/
def walk (t : ExecutableTree) : Nat → List Nat → Option (List Nat)
  | _, [] => some []
  | 0, _ :: _ => none
  | fuel + 1, i :: waiting => do
    let n ← t.node? i
    let later ← walk t fuel (n.children ++ waiting)
    return i :: later

/-- The places of a node and all its descendants. -/
def subtree (t : ExecutableTree) (i : Nat) : Option (List Nat) := t.walk t.size [i]

end ExecutableTree

/-- What the compiler has made so far. -/
structure Compilation where
  nodes : List PlacedNode := []
  index : Dict Nat := .empty
  /-- The ids of the nodes that the compiler has not come back from yet, the last one first. -/
  visiting : List String := []
  /-- The outputs read, first one first. -/
  outputUses : List OutputUse := []

namespace Compilation

/-- A node that has no place yet. -/
def enter (s : Compilation) (g : Graph) (id parent : String) : Except BuildError Node :=
  if s.visiting.contains id then .error (.cyclicStructure id)
  else if s.index.contains id then .error (.invalidStructure id .manyParents)
  else match g.node? id with
    | none => .error (.invalidStructure parent (.missingChild id))
    | some n => .ok n

/-- Appends a node. Its children are not known yet. -/
def push (s : Compilation) (c : CompiledNode) (uses : List OutputUse) : Compilation where
  nodes := s.nodes ++ [⟨c, []⟩]
  index := s.index.insert c.id s.nodes.length
  visiting := c.id :: s.visiting
  outputUses := s.outputUses ++ uses

/-- Comes back from the children of a node. -/
def close (s : Compilation) (slot : Nat) (id : String) (children : List Nat) : Compilation :=
  { s with
    nodes := s.nodes.modify slot fun n => { n with children := children }
    visiting := s.visiting.erase id }

/-- Refuses an output of a node that is no part of the tree. -/
def checkOutputs (s : Compilation) : Except BuildError Unit :=
  match s.outputUses.find? fun use => !s.index.contains use.source with
  | some use => .error (.unresolvedBinding use.node use.slot (.notCompiled use.source))
  | none => .ok ()

end Compilation

namespace TreeBuilder

/-- Compiles nodes one after the other, each of them by `below`, and gives their places. -/
def compileNodes (below : String → Compilation → Except BuildError (Nat × Compilation)) :
    List String → Compilation → Except BuildError (List Nat × Compilation)
  | [], s => .ok ([], s)
  | id :: rest, s => do
    let (place, s) ← below id s
    let (places, s) ← compileNodes below rest s
    return (place :: places, s)

/-- Compiles a node and all nodes below it, and gives its place. The fuel bounds the depth, which
the number of nodes does too. -/
def compileNode (b : TreeBuilder) (g : Graph) (snapshot : BlackboardSnapshot) :
    Nat → String → String → Compilation → Except BuildError (Nat × Compilation)
  | 0, _, id, _ => .error (.cyclicStructure id)
  | fuel + 1, parent, id, s => do
    let n ← s.enter g id parent
    let (compiled, found) ← compileOne b g snapshot n {}
    let slot := s.nodes.length
    let (children, s) ← compileNodes (compileNode b g snapshot fuel n.id) n.children
      (s.push compiled found.outputUses)
    return (slot, s.close slot n.id children)

/-- Compiles the tree below the root. -/
def compile (b : TreeBuilder) (g : Graph) (snapshot : BlackboardSnapshot) :
    Except BuildError ExecutableTree := do
  match g.node? b.rootId with
  | none => throw (.noRoot b.rootId)
  | some root =>
    if 1 < root.children.length then throw (.multipleRootChildren root.children.length)
    let (_, s) ← compileNode b g snapshot (g.nodes.length + 1) root.id root.id {}
    s.checkOutputs
    let excluded := g.nodes.filter fun n => n.kind != .data && !s.index.contains n.id
    return ⟨s.nodes, s.index, excluded.map (·.id)⟩

end TreeBuilder

end BehaviorTree
