import BehaviorTree.Proofs.Compilation.Descent

/-!
# What the compiler does not look at

The compiler reads the nodes below the root, the connections into their slots, the nodes at the
other ends of these, and which variables are defined. Two graphs that agree on all that
(`TreeBuilder.AgreeBelow`) are compiled to the same nodes or refused with the same error
(`TreeBuilder.build_ignores_orphans`), however many nodes there are elsewhere, whatever is wrong
with them, and wherever the nodes stand in an editor.
-/

namespace BehaviorTree

open Checks

/-- A node without its position. -/
def Node.unplaced (n : Node) : Node := { n with position := {} }

/-- A node as a source of values: without its position and its children. -/
def Node.unlinked (n : Node) : Node := { n with position := {}, children := [] }

/-- A node, moved to where a graph has it. -/
def Graph.inPlace (g : Graph) (n : Node) : Node :=
  { n with position := ((g.node? n.id).map (·.position)).getD n.position }

namespace TreeBuilder

/-- Two graphs, each with a snapshot of variables, agree on what is below the root: on the nodes
that are reached, apart from their positions, on the connections into their slots, in order, on the
sources of these, and on whether the variables that the sources name are defined. -/
structure AgreeBelow (b : TreeBuilder) (g g' : Graph) (snapshot snapshot' : BlackboardSnapshot) :
    Prop where
  nodes : ∀ id, g.Reaches b.rootId id →
    (g'.node? id).map Node.unplaced = (g.node? id).map Node.unplaced
  bindings : ∀ id, g.Reaches b.rootId id → g'.bindingsInto id = g.bindingsInto id
  sources : ∀ id, g.Reaches b.rootId id → ∀ c ∈ g.bindingsInto id,
    (g'.node? c.source).map Node.unlinked = (g.node? c.source).map Node.unlinked
  defined : ∀ id, g.Reaches b.rootId id → ∀ c ∈ g.bindingsInto id, ∀ name scope,
    g.variableFeeding? c = some (name, scope) →
      snapshot'.contains name scope = snapshot.contains name scope

variable {b : TreeBuilder} {g g' : Graph} {snapshot snapshot' : BlackboardSnapshot} {n : Node}

/-! ## Sources -/

/-- Neither the position nor the children of a source matter. -/
theorem source_unlinked (b : TreeBuilder) (snapshot : BlackboardSnapshot) (n : Node) :
    b.source snapshot n.unlinked = b.source snapshot n :=
  rfl

/-- Of the variables, it matters whether the one that the source names is defined. -/
theorem source_congr (defined : ∀ name scope, n.variableReference? = some (name, scope) →
      snapshot'.contains name scope = snapshot.contains name scope) :
    b.source snapshot' n = b.source snapshot n := by
  unfold source
  cases named : n.variableReference? with
  | none => rfl
  | some reference =>
    obtain ⟨name, scope⟩ := reference
    simp only [defined name scope named]

namespace AgreeBelow

variable (agree : b.AgreeBelow g g' snapshot snapshot')

include agree

/-- What feeds a slot below the root is the same in both graphs. -/
theorem slotSource (reached : g.Reaches b.rootId n.id) {c : Connection}
    (into : c ∈ g.bindingsInto n.id) :
    b.slotSource g' snapshot' n c = b.slotSource g snapshot n c := by
  have same := agree.sources n.id reached c into
  have defined := agree.defined n.id reached c into
  unfold TreeBuilder.slotSource
  cases is : g.node? c.source with
  | none =>
    rw [is, Option.map_none, Option.map_eq_none_iff] at same
    rw [same]
  | some m =>
    rw [is, Option.map_some, Option.map_eq_some_iff] at same
    obtain ⟨m', is', alike⟩ := same
    have resolved : b.source snapshot' m' = b.source snapshot m := by
      rw [← source_unlinked b snapshot' m', alike, source_unlinked]
      apply source_congr
      intro name scope named
      apply defined name scope
      rw [Graph.variableFeeding?, is]
      exact named
    rw [is']
    simp only [resolved]

theorem slotSources (reached : g.Reaches b.rootId n.id) :
    b.slotSources g' snapshot' n = b.slotSources g snapshot n := by
  have each : ∀ c ∈ g.bindingsInto n.id, b.slotSource g' snapshot' n c =
      translate id id (b.slotSource g snapshot n c) := fun c into => by
    rw [agree.slotSource reached into, translate_id]
  rw [TreeBuilder.slotSources, TreeBuilder.slotSources, agree.bindings n.id reached,
    translate_mapM each, List.map_id_fun, translate_id]

/-- The other graph has the same nodes below the root, each in its own place. -/
theorem node?_eq {id : String} (reached : g.Reaches b.rootId id) :
    g'.node? id = (g.node? id).map g'.inPlace := by
  have same := agree.nodes id reached
  cases is : g.node? id with
  | none =>
    rw [is, Option.map_none, Option.map_eq_none_iff] at same
    rw [same, Option.map_none]
  | some n =>
    rw [is, Option.map_some, Option.map_eq_some_iff] at same
    obtain ⟨n', is', alike⟩ := same
    obtain rfl := Graph.id_of_node? is
    rw [Option.map_some, Graph.inPlace, is', Option.map_some, Option.getD_some]
    cases n
    cases n'
    simp only [Node.unplaced, Node.mk.injEq] at alike
    obtain ⟨rfl, rfl, rfl, -, rfl⟩ := alike
    rfl

/-- What is compiled below the root carries over as it is. -/
theorem carriesOver : CarriesOver b b g g' snapshot snapshot' g'.inPlace id id where
  node _ reached := agree.node?_eq reached
  id _ := rfl
  children _ := rfl
  walk _ _ := rfl
  one n reached found := by
    have sources : b.slotSources g' snapshot' (g'.inPlace n) = b.slotSources g snapshot n :=
      agree.slotSources reached
    rw [compileOne, compileOne, sources]
    exact (translate_id _).symm

/-- The walk down from the root is the same in both graphs. -/
theorem descend (path : List String) (parent : String) (found : Found) :
    TreeBuilder.descend b g' snapshot' path parent b.rootId found =
      TreeBuilder.descend b g snapshot path parent b.rootId found := by
  have same : restated (Tree.map (id : CompiledNode → CompiledNode)) = id := by
    funext result
    rw [restated, Tree.map_id]
    rfl
  rw [agree.carriesOver.descend .refl, same, translate_id]

end AgreeBelow

/-- Graphs that agree below the root are compiled to the same nodes, or refused with the same
error. -/
theorem build_ignores_orphans (agree : b.AgreeBelow g g' snapshot snapshot') :
    (b.build g' snapshot').map (·.root) = (b.build g snapshot).map (·.root) := by
  rw [build_root, build_root, agree.node?_eq .refl]
  cases is : g.node? b.rootId with
  | none => rfl
  | some root =>
    have named : root.id = b.rootId := Graph.id_of_node? is
    have same := agree.descend [] b.rootId {}
    have placed : (g'.inPlace root).id = root.id := rfl
    have children : (g'.inPlace root).children = root.children := rfl
    simp only [Option.map_some, placed, children, named, same]

/-- Orphans may be their own children, have children that do not exist and be fed by nothing, and
variables that no source names may come and go. -/
theorem build_ignores_orphans_wait :
    let node (id typeId : String) (kind : NodeKind) (children : List String) (x : Number) : Node :=
      ⟨id, .new typeId kind "", .ofList [("variableName", .string "delay")], ⟨x, 0⟩, children⟩
    let number (name : String) (x : Number) : String × Variable :=
      (name, ⟨name, .tree, .number, .number x⟩)
    let g : Graph := {
      nodes := [node "root" "root" .root ["rest"] 0, node "rest" "wait" .action [] 0,
        node "delay" "blackboard-variable" .data [] 0]
      connections := [.toChild "root" "rest", .toSlot "delay" "rest" "duration"] }
    let g' : Graph := {
      nodes := [node "lost" "nonsense" .decorator ["lost", "nobody"] 1,
        node "delay" "blackboard-variable" .data ["rest", "root"] 2,
        node "rest" "wait" .action [] 3, node "root" "root" .root ["rest"] 4]
      connections := [.toSlot "nobody" "lost" "speed", .toSlot "delay" "rest" "duration"] }
    let s : BlackboardSnapshot := ⟨.ofList [number "delay" 1, number "count" 0], .empty⟩
    let s' : BlackboardSnapshot := ⟨.ofList [number "delay" 2], .empty⟩
    let b : TreeBuilder := {}
    b.AgreeBelow g g' s s' ∧ (b.build g' s').map (·.root) = (b.build g s).map (·.root) ∧
      ((b.build g s).map (·.excluded)).toOption = some [] ∧
      ((b.build g' s').map (·.excluded)).toOption = some ["lost"] := by
  intro node number g g' s s' b
  have closed : g.Separates "lost" ["root", "rest"] :=
    ⟨by decide, by show ∀ a ∈ _, ∀ b ∈ g.children a, b ∈ _; decide +kernel⟩
  have below {id : String} (reached : g.Reaches b.rootId id) : id ∈ ["root", "rest"] :=
    closed.mem_of_reaches reached (by decide +kernel)
  have fed : ∀ id ∈ ["root", "rest"], ∀ c ∈ g.bindingsInto id,
      (g'.node? c.source).map Node.unlinked = (g.node? c.source).map Node.unlinked ∧
        g.variableFeeding? c = some ("delay", .tree) := by decide +kernel
  have agree : b.AgreeBelow g g' s s' :=
    { nodes := fun id reached => by
        have all : ∀ id ∈ ["root", "rest"], (g'.node? id).map Node.unplaced =
          (g.node? id).map Node.unplaced := by decide +kernel
        exact all id (below reached)
      bindings := fun id reached => by
        have all : ∀ id ∈ ["root", "rest"], g'.bindingsInto id = g.bindingsInto id := by
          decide +kernel
        exact all id (below reached)
      sources := fun id reached c into => (fed id (below reached) c into).1
      defined := fun id reached c into name scope named => by
        have same := (fed id (below reached) c into).2.symm.trans named
        cases same
        decide +kernel }
  exact ⟨agree, build_ignores_orphans agree, by decide +kernel, by decide +kernel⟩

end TreeBuilder

end BehaviorTree
