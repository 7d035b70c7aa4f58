import BehaviorTree.Compilation.Build
import BehaviorTree.Proofs.Checks
import BehaviorTree.Proofs.Compilation.Arena
import BehaviorTree.Proofs.Graph.Reachability

/-!
# What is compiled

`TreeBuilder.build` gives a tree only if the nodes below the root form one: it then holds each node
that is reached from the root, once, in the order of a depth-first walk (`Compiled.order`), and each
of its subtrees is a copy of a node, with the children that the graph lists (`Copies`). This holds
of every graph. Cycles, nodes with several parents and children that do not exist below the root
make the compiler refuse, and elsewhere they do not matter.
-/

namespace BehaviorTree

namespace TreeBuilder

variable {b : TreeBuilder} {g : Graph} {snapshot : BlackboardSnapshot} {n : Node}
  {found found' : Found}

/-- A compiled node, with the trees below it, stands for a node of a graph. -/
structure Copies (b : TreeBuilder) (g : Graph) (snapshot : BlackboardSnapshot) (n : Node)
    (s : Tree CompiledNode) : Prop where
  id : s.label.id = n.id
  typeId : s.label.typeId = n.typeId
  kind : s.label.kind = n.kind
  config : s.label.config = n.data
  behavior : b.behavior n = .ok s.label.behavior
  sources : ∃ sources, b.slotSources g snapshot n = .ok sources ∧
    s.label.bindings = bindings n sources
  children : s.children.map (·.label.id) = n.children

/-- Trees compiled from ids, with what has been met before and after. -/
structure Compiled (b : TreeBuilder) (g : Graph) (snapshot : BlackboardSnapshot)
    (ids : List String) (trees : List (Tree CompiledNode)) (found found' : Found) : Prop where
  roots : trees.map (·.label.id) = ids
  met : found'.met = ((Tree.preorders trees).map (·.id)).reverse ++ found.met
  once : found.met.Nodup → found'.met.Nodup
  copies : ∀ s ∈ Tree.subtreesOf trees, ∃ n, g.node? s.label.id = some n ∧ b.Copies g snapshot n s

/-! ## One node -/

theorem enter_eq_ok {path : List String} {id parent : String} :
    enter g path id parent found = .ok n ↔
      id ∉ path ∧ id ∉ found.met ∧ g.node? id = some n := by
  unfold enter
  simp only [Checks.guard_eq_ok, List.contains_iff_mem]
  cases g.node? id <;> simp

theorem compileOne_eq_ok {c : CompiledNode} :
    compileOne b g snapshot n found = .ok (c, found') ↔
      ∃ behavior sources, b.behavior n = .ok behavior ∧ b.slotSources g snapshot n = .ok sources ∧
        c = ⟨⟨n.id, n.typeId, n.kind, n.data, bindings n sources⟩, behavior⟩ ∧
        found' = ⟨n.id :: found.met, found.outputUses ++ outputUses n sources⟩ := by
  constructor
  · intro compiled
    obtain ⟨behavior, known, compiled⟩ := Checks.bind_eq_ok.1 compiled
    obtain ⟨sources, fed, compiled⟩ := Checks.bind_eq_ok.1 compiled
    cases compiled
    exact ⟨behavior, sources, known, fed, rfl, rfl⟩
  · rintro ⟨behavior, sources, known, fed, rfl, rfl⟩
    exact Checks.bind_eq_ok.2 ⟨behavior, known, Checks.bind_eq_ok.2 ⟨sources, fed, rfl⟩⟩

/-- What a node is compiled to is a copy, once the trees below it are those of its children. -/
theorem copies_of_compileOne {c : CompiledNode}
    (compiled : compileOne b g snapshot n found = .ok (c, found'))
    {children : List (Tree CompiledNode)} (roots : children.map (·.label.id) = n.children) :
    found'.met = n.id :: found.met ∧ b.Copies g snapshot n (.node c children) := by
  obtain ⟨behavior, sources, known, fed, rfl, rfl⟩ := compileOne_eq_ok.1 compiled
  exact ⟨rfl, rfl, rfl, rfl, rfl, known, ⟨sources, fed, rfl⟩, roots⟩

/-! ## Trees -/

theorem compileAll_cons_eq_ok
    {below : String → Found → Except BuildError (Tree CompiledNode × Found)} {id : String}
    {ids : List String} {trees : List (Tree CompiledNode)} :
    compileAll below (id :: ids) found = .ok (trees, found') ↔
      ∃ tree between rest, below id found = .ok (tree, between) ∧
        compileAll below ids between = .ok (rest, found') ∧ trees = tree :: rest := by
  constructor
  · intro all
    obtain ⟨⟨tree, between⟩, first, all⟩ := Checks.bind_eq_ok.1 all
    obtain ⟨⟨rest, after⟩, others, all⟩ := Checks.bind_eq_ok.1 all
    cases all
    exact ⟨tree, between, rest, first, others, rfl⟩
  · rintro ⟨tree, between, rest, first, others, rfl⟩
    exact Checks.bind_eq_ok.2 ⟨_, first, Checks.bind_eq_ok.2 ⟨_, others, rfl⟩⟩

theorem compileTree_succ_eq_ok {fuel : Nat} {path : List String} {parent id : String}
    {tree : Tree CompiledNode} :
    compileTree b g snapshot (fuel + 1) path parent id found = .ok (tree, found') ↔
      ∃ n c between children, enter g path id parent found = .ok n ∧
        compileOne b g snapshot n found = .ok (c, between) ∧
        compileAll (compileTree b g snapshot fuel (n.id :: path) n.id) n.children between =
          .ok (children, found') ∧ tree = .node c children := by
  constructor
  · intro compiles
    obtain ⟨n, entered, compiles⟩ := Checks.bind_eq_ok.1 compiles
    obtain ⟨⟨c, between⟩, one, compiles⟩ := Checks.bind_eq_ok.1 compiles
    obtain ⟨⟨children, after⟩, all, compiles⟩ := Checks.bind_eq_ok.1 compiles
    cases compiles
    exact ⟨n, c, between, children, entered, one, all, rfl⟩
  · rintro ⟨n, c, between, children, entered, one, all, rfl⟩
    exact Checks.bind_eq_ok.2 ⟨n, entered, Checks.bind_eq_ok.2 ⟨_, one, Checks.bind_eq_ok.2 ⟨_, all, rfl⟩⟩⟩

theorem Compiled.nil : Compiled b g snapshot [] [] found found where
  roots := rfl
  met := rfl
  once := id
  copies := by simp [Tree.subtreesOf]

theorem Compiled.cons {id : String} {ids : List String} {tree : Tree CompiledNode}
    {trees : List (Tree CompiledNode)} {found'' : Found}
    (first : Compiled b g snapshot [id] [tree] found found')
    (rest : Compiled b g snapshot ids trees found' found'') :
    Compiled b g snapshot (id :: ids) (tree :: trees) found found'' where
  roots := by
    have head : [tree.label.id] = [id] := first.roots
    rw [List.map_cons, rest.roots, List.head_eq_of_cons_eq head]
  met := by simp [rest.met, first.met, Tree.preorders]
  once new := rest.once (first.once new)
  copies s mem := by
    rcases List.mem_append.1 mem with here | there
    · exact first.copies s (by simpa [Tree.subtreesOf] using here)
    · exact rest.copies s there

/-- A node with its children compiled makes a tree. -/
theorem Compiled.node {children : List (Tree CompiledNode)} {c : CompiledNode} {found'' : Found}
    (is : g.node? n.id = some n) (new : n.id ∉ found.met)
    (compiled : compileOne b g snapshot n found = .ok (c, found'))
    (below : Compiled b g snapshot n.children children found' found'') :
    Compiled b g snapshot [n.id] [.node c children] found found'' := by
  obtain ⟨met, copy⟩ := copies_of_compileOne compiled below.roots
  have id : c.id = n.id := copy.id
  exact {
    roots := by simp [Tree.label, id]
    met := by simp [below.met, met, Tree.preorders, Tree.preorder, id]
    once := fun before => below.once (met ▸ List.nodup_cons.2 ⟨new, before⟩)
    copies := fun s mem => by
      have mem : s = .node c children ∨ s ∈ Tree.subtreesOf children := by
        simpa [Tree.subtreesOf, Tree.subtrees] using mem
      rcases mem with rfl | deeper
      · exact ⟨n, by rw [copy.id, is], copy⟩
      · exact below.copies s deeper }

theorem compiled_of_compileAll
    {below : String → Found → Except BuildError (Tree CompiledNode × Found)}
    (each : ∀ id found tree found', below id found = .ok (tree, found') →
      Compiled b g snapshot [id] [tree] found found')
    {ids : List String} {trees : List (Tree CompiledNode)}
    (all : compileAll below ids found = .ok (trees, found')) :
    Compiled b g snapshot ids trees found found' := by
  induction ids generalizing found trees with
  | nil => cases all; exact .nil
  | cons id ids ih =>
    obtain ⟨tree, between, rest, first, others, rfl⟩ := compileAll_cons_eq_ok.1 all
    exact (each _ _ _ _ first).cons (ih others)

theorem compiled_of_compileTree {fuel : Nat} {path : List String} {parent id : String}
    {tree : Tree CompiledNode}
    (compiles : compileTree b g snapshot fuel path parent id found = .ok (tree, found')) :
    Compiled b g snapshot [id] [tree] found found' := by
  induction fuel generalizing path parent id found tree found' with
  | zero => cases compiles
  | succ fuel ih =>
    obtain ⟨n, c, between, children, entered, one, all, rfl⟩ := compileTree_succ_eq_ok.1 compiles
    obtain ⟨-, new, is⟩ := enter_eq_ok.1 entered
    obtain rfl := Graph.id_of_node? is
    exact .node is new one (compiled_of_compileAll (fun _ _ _ _ below => ih below) all)

/-- The compiler succeeds if its walk does and the outputs that are read are those of nodes met. -/
theorem build_eq_ok_iff {t : CompiledTree} : b.build g snapshot = .ok t ↔
    ∃ root found, g.node? b.rootId = some root ∧ root.children.length ≤ 1 ∧
      compileTree b g snapshot (g.nodes.length + 1) [] b.rootId b.rootId {} =
        .ok (t.root, found) ∧
      checkOutputs found = .ok () ∧ t.excluded =
        (g.nodes.filter fun n => n.kind != .data && !found.met.contains n.id).map (·.id) := by
  unfold build
  cases is : g.node? b.rootId with
  | none => exact iff_of_false (nomatch ·) (fun ⟨_, _, is', _⟩ => nomatch is')
  | some root =>
    have named := Graph.id_of_node? is
    constructor
    · intro built
      obtain ⟨few, built⟩ := Checks.guard_eq_ok.1 built
      obtain ⟨⟨tree, found⟩, compiles, built⟩ := Checks.bind_eq_ok.1 built
      obtain ⟨_, outputs, built⟩ := Checks.bind_eq_ok.1 built
      cases built
      exact ⟨root, found, rfl, Nat.not_lt.1 few, named ▸ compiles, outputs, rfl⟩
    · rintro ⟨root', found, same, few, compiles, outputs, excluded⟩
      cases same
      rw [← named] at compiles
      refine Checks.guard_eq_ok.2 ⟨Nat.not_lt.2 few, Checks.bind_eq_ok.2 ⟨_, compiles,
        Checks.bind_eq_ok.2 ⟨_, outputs, ?_⟩⟩⟩
      exact congrArg (fun excluded => Except.ok (CompiledTree.mk t.root excluded)) excluded.symm

theorem build_eq_ok {t : CompiledTree} (built : b.build g snapshot = .ok t) :
    ∃ found, Compiled b g snapshot [b.rootId] [t.root] {} found ∧ t.excluded =
      (g.nodes.filter fun n => n.kind != .data && !found.met.contains n.id).map (·.id) := by
  obtain ⟨-, found, -, -, compiles, -, excluded⟩ := build_eq_ok_iff.1 built
  exact ⟨found, compiled_of_compileTree compiles, excluded⟩

/-! ## The whole tree -/

section Whole

variable {t : CompiledTree} {s : Tree CompiledNode} {root : String}

theorem Compiled.met_root (compiled : Compiled b g snapshot [root] [t.root] {} found) :
    found.met = t.ids.reverse := by
  simpa [CompiledTree.ids, CompiledTree.nodes, Tree.preorders] using compiled.met

theorem Compiled.ids_nodup (compiled : Compiled b g snapshot [root] [t.root] {} found) :
    t.ids.Nodup :=
  List.nodup_reverse.1 (compiled.met_root ▸ compiled.once List.nodup_nil)

theorem Compiled.copies_root (compiled : Compiled b g snapshot [root] [t.root] {} found)
    (mem : s ∈ t.root.subtrees) : ∃ n, g.node? s.label.id = some n ∧ b.Copies g snapshot n s :=
  compiled.copies s (by simpa [Tree.subtreesOf] using mem)

/-- The walk through the subtrees, with each subtree named by its id, is one through the graph. -/
theorem Compiled.order (compiled : Compiled b g snapshot [root] [t.root] {} found) :
    DepthFirst g.children [root] t.ids := by
  have keeps : ∀ s ∈ t.root.subtrees,
      s.children.map (·.label.id) = g.children s.label.id := fun s mem => by
    obtain ⟨n, is, copy⟩ := compiled.copies_root mem
    rw [Graph.children_of_node? is, copy.children]
  have walk := (Tree.depthFirst t.root).map keeps
  rw [compiled.roots] at walk
  rwa [CompiledTree.ids, CompiledTree.nodes, ← Tree.map_label_subtrees, List.map_map]

/-- What is compiled from the root has a copy of each node below it. -/
theorem Compiled.exists_copy {id : String}
    (compiled : Compiled b g snapshot [root] [t.root] {} found) (reached : g.Reaches root id) :
    ∃ n s, g.node? id = some n ∧ b.Copies g snapshot n s := by
  have member : id ∈ t.ids := compiled.order.mem_iff.2 reached
  rw [CompiledTree.ids, CompiledTree.nodes, ← Tree.map_label_subtrees, List.map_map] at member
  obtain ⟨s, mem, rfl⟩ := List.mem_map.1 member
  obtain ⟨n, is, copy⟩ := compiled.copies_root mem
  exact ⟨n, s, is, copy⟩

/-- The numbers of the children are the places of their ids. -/
theorem children_eq_index? (once : t.ids.Nodup) {i : Nat}
    (at_ : t.root.subtrees[i]? = some s) :
    (t.children i).map some = (s.children.map (·.label.id)).map t.index? := by
  rw [List.map_map, ← List.forall₂_eq_eq_eq, List.forall₂_map_left_iff,
    List.forall₂_map_right_iff]
  refine (CompiledTree.children_found at_).imp fun c child located => ?_
  exact ((CompiledTree.index?_eq_some_iff once).2
    (by rw [CompiledTree.ids_getElem?, located]; rfl)).symm

theorem length_children_of_decorator {behavior : Behavior} (known : b.behavior n = .ok behavior)
    (decorator : n.kind = .decorator) : n.children.length = 1 := by
  simp only [TreeBuilder.behavior, decorator] at known
  exact not_not.1 (Checks.guard_eq_ok.1 known).1

end Whole

end TreeBuilder

end BehaviorTree
