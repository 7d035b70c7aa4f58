import BehaviorTree.Compilation.Executable
import BehaviorTree.Proofs.Compilation.Build

/-!
# What the compiler leaves in its list

The compiler appends nodes, numbers their ids and fills in children afterwards. What it has done
when it comes back from a node is a function of the tree that it went through and of the state that
it began with (`Compilation.grow`, `TreeBuilder.compileNode_eq`): nothing that was there before is
touched again. So `TreeBuilder.compile` is `TreeBuilder.build` with the nodes numbered, and fails
where that fails, with the same error (`TreeBuilder.compile_eq`). What is known of the numbers of a
tree is then known of the list, of every graph (`TreeBuilder.compile_represents`).
-/

namespace BehaviorTree

open Relation Checks

/-! ## Numbering -/

namespace Dict

/-- Numbers keys, from a number on. -/
def number (d : Dict Nat) (start : Nat) : List String → Dict Nat
  | [] => d
  | key :: rest => (d.insert key start).number (start + 1) rest

variable {d : Dict Nat} {start k : Nat} {key : String} {keys : List String}

theorem number_append (d : Dict Nat) (start : Nat) (keys others : List String) :
    d.number start (keys ++ others) =
      (d.number start keys).number (start + keys.length) others := by
  induction keys generalizing d start with
  | nil => rfl
  | cons key rest ih =>
    rw [List.cons_append, number, number, ih, List.length_cons]
    congr 1
    omega

theorem get?_number_of_not_mem (other : key ∉ keys) :
    (d.number start keys).get? key = d.get? key := by
  induction keys generalizing d start with
  | nil => rfl
  | cons first rest ih =>
    rw [List.mem_cons, not_or] at other
    rw [number, ih other.2, get?_insert_of_ne d other.1]

theorem get?_number (once : keys.Nodup) (at_ : keys[k]? = some key) :
    (d.number start keys).get? key = some (start + k) := by
  induction keys generalizing d start k with
  | nil => cases at_
  | cons first rest ih =>
    obtain ⟨new, once⟩ := List.nodup_cons.1 once
    rw [number]
    cases k with
    | zero =>
      obtain rfl : first = key := Option.some.inj at_
      rw [get?_number_of_not_mem new, get?_insert_self]
      rfl
    | succ k =>
      rw [ih once at_]
      congr 1
      omega

theorem contains_insert (d : Dict Nat) (first key : String) (value : Nat) :
    (d.insert first value).contains key = (key == first || d.contains key) := by
  by_cases here : key = first
  · simp [contains, here]
  · simp [contains, here, get?_insert_of_ne d here]

theorem contains_number (d : Dict Nat) (start : Nat) (keys : List String) (key : String) :
    (d.number start keys).contains key = (keys.contains key || d.contains key) := by
  induction keys generalizing d start with
  | nil => rfl
  | cons first rest ih =>
    rw [number, ih, contains_insert, List.contains_cons, Bool.or_left_comm, Bool.or_assoc]

end Dict

namespace Tree

/-- The nodes of trees that follow one another from a place on, each with the places of its
children. -/
def placed (start : Nat) (trees : List (Tree CompiledNode)) : List PlacedNode :=
  ((subtreesOf trees).zipIdx start).map fun (s, i) => ⟨s.label, places (i + 1) s.children⟩

variable {start : Nat} {trees : List (Tree CompiledNode)}

theorem length_placed : (placed start trees).length = sizes trees := by
  rw [placed, List.length_map, List.length_zipIdx, ← List.length_map, map_label_subtreesOf,
    length_preorders]

theorem placed_cons (start : Nat) (t : Tree CompiledNode) (rest : List (Tree CompiledNode)) :
    placed start (t :: rest) = placed start [t] ++ placed (start + t.size) rest := by
  simp [placed, subtreesOf, List.zipIdx_append, length_subtrees]

theorem placed_node (start : Nat) (c : CompiledNode) (children : List (Tree CompiledNode)) :
    placed start [.node c children] =
      ⟨c, places (start + 1) children⟩ :: placed (start + 1) children := by
  simp [placed, subtreesOf, subtrees, label, Tree.children]

theorem getElem?_placed (t : Tree CompiledNode) (i : Nat) :
    (placed 0 [t])[i]? =
      (t.subtrees[i]?).map fun s => ⟨s.label, places (i + 1) s.children⟩ := by
  simp [placed, subtreesOf, Function.comp_def]

end Tree

/-! ## While the compiler runs -/

namespace Compilation

variable {s : Compilation} {g : Graph} {path : List String} {found found' : Found}
  {trees : List (Tree CompiledNode)}

/-- What is left when the compiler has gone through some trees. -/
def grow (s : Compilation) (trees : List (Tree CompiledNode)) (found : Found) : Compilation where
  nodes := s.nodes ++ Tree.placed s.nodes.length trees
  index := s.index.number s.nodes.length ((Tree.preorders trees).map (·.id))
  visiting := s.visiting
  outputUses := found.outputUses

/-- The compiler knows the path that it is on, what it has met and what is read. -/
structure Agrees (s : Compilation) (path : List String) (found : Found) : Prop where
  visiting : s.visiting = path
  index : ∀ id, s.index.contains id = found.met.contains id
  outputUses : s.outputUses = found.outputUses

theorem grow_nil (same : s.outputUses = found.outputUses) : s.grow [] found = s := by
  rw [grow, ← same]
  simp [Tree.placed, Tree.subtreesOf, Tree.preorders, Dict.number]

theorem length_grow (s : Compilation) (trees : List (Tree CompiledNode)) (found : Found) :
    (s.grow trees found).nodes.length = s.nodes.length + Tree.sizes trees := by
  rw [grow, List.length_append, Tree.length_placed]

/-- Going through one tree and then through others is going through them all. -/
theorem grow_grow (s : Compilation) (t : Tree CompiledNode) (rest : List (Tree CompiledNode))
    (between after : Found) : (s.grow [t] between).grow rest after = s.grow (t :: rest) after := by
  have one : Tree.preorders [t] = t.preorder := by simp [Tree.preorders]
  have length : (s.grow [t] between).nodes.length = s.nodes.length + t.size :=
    length_grow s [t] between
  simp only [grow] at length ⊢
  rw [length, one, Tree.preorders, List.map_append, Dict.number_append, List.length_map,
    Tree.length_preorder, List.append_assoc, ← Tree.placed_cons]

/-- A node that is appended, then gone below and come back from, is gone through. -/
theorem close_grow_push (s : Compilation) (c : CompiledNode) (uses : List OutputUse)
    (children : List (Tree CompiledNode)) (found : Found) :
    ((s.push c uses).grow children found).close s.nodes.length c.id
      (Tree.places (s.nodes.length + 1) children) = s.grow [.node c children] found := by
  have length : (s.push c uses).nodes.length = s.nodes.length + 1 := by simp [push]
  simp only [close, grow, length]
  simp only [push]
  congr 1
  · simp [List.modify_eq_take_drop, Tree.placed_node]
  · simp [Tree.preorders, Tree.preorder, Dict.number]
  · simp

theorem Agrees.enter (agrees : s.Agrees path found) (id parent : String) :
    s.enter g id parent = TreeBuilder.enter g path id parent found := by
  rw [Compilation.enter, agrees.visiting, agrees.index]
  rfl

theorem Agrees.checkOutputs (agrees : s.Agrees path found) :
    s.checkOutputs = TreeBuilder.checkOutputs found := by
  simp only [Compilation.checkOutputs, agrees.outputUses, agrees.index]
  rfl

theorem Agrees.push (agrees : s.Agrees path found) (c : CompiledNode) (uses : List OutputUse) :
    (s.push c uses).Agrees (c.id :: path) ⟨c.id :: found.met, found.outputUses ++ uses⟩ where
  visiting := congrArg (c.id :: ·) agrees.visiting
  index id := by
    rw [List.contains_cons, ← agrees.index]
    exact Dict.contains_insert s.index c.id id s.nodes.length
  outputUses := congrArg (· ++ uses) agrees.outputUses

theorem Agrees.grow {b : TreeBuilder} {snapshot : BlackboardSnapshot} {ids : List String}
    (agrees : s.Agrees path found)
    (compiled : TreeBuilder.Compiled b g snapshot ids trees found found') :
    (s.grow trees found').Agrees path found' where
  visiting := agrees.visiting
  index id := by
    rw [compiled.met]
    refine (Dict.contains_number ..).trans ?_
    rw [agrees.index, List.contains_append, List.contains_reverse]
  outputUses := rfl

end Compilation

namespace TreeBuilder

variable {b : TreeBuilder} {g : Graph} {snapshot : BlackboardSnapshot} {s : Compilation}
  {path : List String} {found : Found}

/-- What a node is compiled to does not depend on what was found before. -/
theorem compileOne_eq (n : Node) (found : Found) : compileOne b g snapshot n found =
    (compileOne b g snapshot n {}).map fun (c, here) =>
      (c, ⟨n.id :: found.met, found.outputUses ++ here.outputUses⟩) := by
  unfold compileOne
  cases b.behavior n with
  | error e => rfl
  | ok behavior => cases b.slotSources g snapshot n <;> rfl

/-- Nodes that are each gone through as trees are gone through one after the other. -/
theorem compileNodes_eq {below : String → Compilation → Except BuildError (Nat × Compilation)}
    {below' : String → Found → Except BuildError (Tree CompiledNode × Found)}
    (each : ∀ {s : Compilation} {found : Found}, s.Agrees path found → ∀ id, below id s =
      (below' id found).map fun (tree, after) => (s.nodes.length, s.grow [tree] after))
    (compiled : ∀ id found tree after, below' id found = .ok (tree, after) →
      Compiled b g snapshot [id] [tree] found after)
    (agrees : s.Agrees path found) (ids : List String) :
    compileNodes below ids s = (compileAll below' ids found).map fun (trees, after) =>
      (Tree.places s.nodes.length trees, s.grow trees after) := by
  induction ids generalizing s found with
  | nil =>
    show Except.ok ([], s) = Except.ok ([], s.grow [] found)
    rw [Compilation.grow_nil agrees.outputUses]
  | cons id rest ih =>
    rw [compileNodes, compileAll, each agrees]
    apply bind_map_eq_map_bind
    rintro ⟨tree, between⟩ first
    dsimp only
    rw [ih (agrees.grow (compiled id found tree between first))]
    apply bind_map_eq_map_bind
    rintro ⟨trees, after⟩ -
    have length : (s.grow [tree] between).nodes.length = s.nodes.length + tree.size :=
      s.length_grow [tree] between
    show Except.ok (s.nodes.length :: Tree.places (s.grow [tree] between).nodes.length trees,
        (s.grow [tree] between).grow trees after) =
      Except.ok (Tree.places s.nodes.length (tree :: trees), s.grow (tree :: trees) after)
    rw [length, Compilation.grow_grow, Tree.places]

/-- Compiling into the list goes through the tree, and fails where that fails. -/
theorem compileNode_eq (agrees : s.Agrees path found) (fuel : Nat) (parent id : String) :
    compileNode b g snapshot fuel parent id s =
      (compileTree b g snapshot fuel path parent id found).map fun (tree, after) =>
        (s.nodes.length, s.grow [tree] after) := by
  induction fuel generalizing s path parent id found with
  | zero => rfl
  | succ fuel ih =>
    rw [compileNode, compileTree, agrees.enter]
    cases enter g path id parent found with
    | error e => rfl
    | ok n =>
      show (compileOne b g snapshot n {} >>= _) =
        (compileOne b g snapshot n found >>= _).map _
      rw [compileOne_eq n found]
      cases one : compileOne b g snapshot n {} with
      | error e => rfl
      | ok result =>
        obtain ⟨c, here⟩ := result
        have named : c.id = n.id := by
          obtain ⟨_, _, -, -, rfl, -⟩ := compileOne_eq_ok.1 one
          rfl
        have pushed := named ▸ agrees.push c here.outputUses
        have below := compileNodes_eq (fun agrees child => ih agrees n.id child)
          (fun _ _ _ _ compiles => compiled_of_compileTree compiles) pushed n.children
        show (compileNodes _ n.children (s.push c here.outputUses) >>= _) =
          (compileAll _ n.children _ >>= _).map _
        rw [below]
        apply bind_map_eq_map_bind
        rintro ⟨children, after⟩ -
        have length : (s.push c here.outputUses).nodes.length = s.nodes.length + 1 :=
          List.length_append
        have closed := s.close_grow_push c here.outputUses children after
        show Except.ok (s.nodes.length, _) = Except.ok (s.nodes.length, _)
        rw [length, ← named, closed]

end TreeBuilder

/-! ## When it has run -/

/-- The nodes of a tree, listed and numbered. -/
def CompiledTree.executable (t : CompiledTree) : ExecutableTree where
  nodes := Tree.placed 0 [t.root]
  index := Dict.empty.number 0 t.ids
  excluded := t.excluded

namespace TreeBuilder

/-- The compiler gives the tree with its nodes numbered, or the error that there is in its place. -/
theorem compile_eq (b : TreeBuilder) (g : Graph) (snapshot : BlackboardSnapshot) :
    b.compile g snapshot = (b.build g snapshot).map CompiledTree.executable := by
  unfold compile build
  cases g.node? b.rootId with
  | none => rfl
  | some root =>
    dsimp only
    split
    · rfl
    · have start : ({} : Compilation).Agrees [] {} := ⟨rfl, fun _ => rfl, rfl⟩
      rw [compileNode_eq start]
      apply bind_map_eq_map_bind
      rintro ⟨tree, found⟩ compiles
      have agrees := start.grow (compiled_of_compileTree compiles)
      dsimp only
      rw [agrees.checkOutputs]
      cases checkOutputs found with
      | error e => rfl
      | ok =>
        have listed : Tree.preorders [tree] = tree.preorder := by simp [Tree.preorders]
        show Except.ok (ExecutableTree.mk _ _ _) = Except.ok (ExecutableTree.mk _ _ _)
        simp only [agrees.index]
        simp only [Compilation.grow, listed]
        rfl

end TreeBuilder

namespace CompiledTree

variable {t : CompiledTree} {i : Nat}

theorem node?_executable :
    t.executable.node? i = (t.node? i).map fun c => ⟨c, t.children i⟩ := by
  rw [ExecutableTree.node?, executable, Tree.getElem?_placed, node?_eq_map, Option.map_map]
  cases found : t.root.subtrees[i]? with
  | none => rfl
  | some s =>
    rw [Option.map_some, Option.map_some, Function.comp_apply, children_of_found found]

theorem size_executable : t.executable.size = t.size := by
  rw [ExecutableTree.size, executable, Tree.length_placed, size]
  simp [Tree.sizes]

theorem indexOf_executable (once : t.ids.Nodup) {id : String} :
    t.executable.indexOf id = some i ↔ t.ids[i]? = some id := by
  constructor
  · intro found
    by_cases member : id ∈ t.ids
    · obtain ⟨k, inside, rfl⟩ := List.getElem_of_mem member
      have at_ : t.ids[k]? = some t.ids[k] := List.getElem?_eq_getElem inside
      have placed := (Dict.get?_number once at_).symm.trans found
      obtain rfl : 0 + k = i := Option.some.inj placed
      rwa [Nat.zero_add]
    · have free : t.executable.indexOf id = none := Dict.get?_number_of_not_mem member
      rw [free] at found
      cases found
  · intro at_
    have placed : t.executable.indexOf id = some (0 + i) := Dict.get?_number once at_
    rwa [Nat.zero_add] at placed

end CompiledTree

namespace ExecutableTree

variable {t : ExecutableTree}

def ids (t : ExecutableTree) : List String := t.nodes.map (·.id)

/-- The places of the children of the node at a place. -/
def children (t : ExecutableTree) (i : Nat) : List Nat := ((t.node? i).map (·.children)).getD []

/-- A walk that is long enough visits what it has to, if everything in its way is there. -/
theorem walk_eq {fuel : Nat} {waiting visited : List Nat}
    (walks : DepthFirst t.children waiting visited) (inside : ∀ i ∈ visited, i < t.size)
    (enough : visited.length ≤ fuel) : t.walk fuel waiting = some visited := by
  induction walks generalizing fuel with
  | done => cases fuel <;> rfl
  | @visit i waiting visited _ ih =>
    obtain ⟨here, inside⟩ := List.forall_mem_cons.1 inside
    rw [List.length_cons] at enough
    obtain ⟨fuel, rfl⟩ : ∃ less, fuel = less + 1 := ⟨fuel - 1, by omega⟩
    have found : t.node? i = some t.nodes[i] := List.getElem?_eq_getElem here
    have children : t.children i = t.nodes[i].children := by
      rw [ExecutableTree.children, found]
      rfl
    have later := ih inside (Nat.le_of_succ_le_succ enough)
    rw [children] at later
    simp [walk, found, later]

end ExecutableTree

namespace CompiledTree

variable {t : CompiledTree} {i : Nat}

theorem ids_executable : t.executable.ids = t.ids := by
  apply List.ext_getElem?
  intro i
  have found : t.executable.nodes[i]? = (t.node? i).map fun c => ⟨c, t.children i⟩ :=
    node?_executable
  rw [ExecutableTree.ids, ids, List.getElem?_map, List.getElem?_map, found, Option.map_map]
  rfl

theorem children_executable : t.executable.children = t.children := by
  funext i
  rw [ExecutableTree.children, node?_executable, node?_eq_map]
  cases found : t.root.subtrees[i]? with
  | none => rw [children, found]; rfl
  | some s => rfl

/-- The stack walk visits the block of a node. -/
theorem subtree_executable (inside : i < t.size) : t.executable.subtree i = some (t.subtree i) := by
  obtain ⟨s, found⟩ := lt_size_iff.1 inside
  have fits := add_size_le found
  have block := subtree_of_found found
  have walks : DepthFirst t.executable.children [i] (t.subtree i) := by
    rw [children_executable]
    exact subtree_depthFirst inside
  refine ExecutableTree.walk_eq walks (fun j member => ?_) ?_
  · rw [block, List.mem_range'_1] at member
    rw [size_executable]
    omega
  · rw [block, List.length_range', size_executable]
    omega

end CompiledTree

/-! ## The whole tree -/

/-- An executable tree is the part of a graph below a root. -/
structure ExecutableTree.Represents (t : ExecutableTree) (g : Graph) (root : String) : Prop where
  /-- The nodes stand in the order in which a walk through lists of children visits them. -/
  order : DepthFirst g.children [root] t.ids
  once : t.ids.Nodup
  reached : ∀ id, id ∈ t.ids ↔ g.Reaches root id
  root_first : t.ids[0]? = some root
  index : ∀ id i, t.indexOf id = some i ↔ t.ids[i]? = some id
  /-- Each compiled node is a node of the graph, and its children are those, in their order. -/
  nodes : ∀ i c, t.node? i = some c → ∃ n, g.node? c.id = some n ∧ c.typeId = n.typeId ∧
    c.kind = n.kind ∧ c.config = n.data ∧ c.children.map some = n.children.map t.indexOf
  later : ∀ i c, t.node? i = some c → ∀ child ∈ c.children, i < child
  parent : ∀ j, 0 < j → j < t.size → ∃! i, j ∈ t.children i
  decorators : ∀ i c, t.node? i = some c → c.kind = .decorator → ∃ child, c.children = [child]
  /-- The walk down from a node ends, and visits an interval that begins with the node: its
  descendants, in the order of the list. -/
  subtree : ∀ i < t.size, ∃ length, t.subtree i = some (List.range' i length) ∧
    DepthFirst t.children [i] (List.range' i length) ∧
    ∀ j, j ∈ List.range' i length ↔ ReflTransGen (fun a b => b ∈ t.children a) i j
  excluded : t.excluded =
    (g.nodes.filter fun n => n.kind ≠ .data ∧ n.id ∉ t.ids).map (·.id)

namespace TreeBuilder

variable {b : TreeBuilder} {g : Graph} {snapshot : BlackboardSnapshot}

theorem represents_of_build {t : CompiledTree} (built : b.build g snapshot = .ok t) :
    t.executable.Represents g b.rootId := by
  obtain ⟨found, compiled, excluded⟩ := build_eq_ok built
  have once := compiled.ids_nodup
  have order := compiled.order
  have indexOf : t.executable.indexOf = t.index? := by
    funext id
    apply Option.ext
    intro i
    rw [CompiledTree.indexOf_executable once, CompiledTree.index?_eq_some_iff once]
  -- A node in the list is the label of a subtree, with the places of its children.
  have located (i : Nat) (c : PlacedNode) (at_ : t.executable.node? i = some c) :
      ∃ s, t.root.subtrees[i]? = some s ∧ c = ⟨s.label, t.children i⟩ := by
    rw [CompiledTree.node?_executable, CompiledTree.node?_eq_map, Option.map_map] at at_
    obtain ⟨s, found, rfl⟩ := Option.map_eq_some_iff.1 at_
    exact ⟨s, found, rfl⟩
  exact {
    order := by rw [CompiledTree.ids_executable]; exact order
    once := by rw [CompiledTree.ids_executable]; exact once
    reached := fun id => by rw [CompiledTree.ids_executable]; exact order.mem_iff
    root_first := by
      rw [CompiledTree.ids_executable, CompiledTree.ids_getElem?, Tree.head?_subtrees]
      exact congrArg some (List.head_eq_of_cons_eq compiled.roots)
    index := fun id i => by
      rw [CompiledTree.ids_executable]
      exact CompiledTree.indexOf_executable once
    nodes := fun i c at_ => by
      obtain ⟨s, found, rfl⟩ := located i c at_
      obtain ⟨n, is, copy⟩ := compiled.copies_root (List.mem_of_getElem? found)
      refine ⟨n, is, copy.typeId, copy.kind, copy.config, ?_⟩
      rw [indexOf, ← copy.children]
      exact children_eq_index? once found
    later := fun i c at_ child member => by
      obtain ⟨s, -, rfl⟩ := located i c at_
      exact CompiledTree.lt_of_mem_children member
    parent := fun j positive inside => by
      rw [CompiledTree.size_executable] at inside
      rw [CompiledTree.children_executable]
      exact CompiledTree.existsUnique_parent positive inside
    decorators := fun i c at_ decorator => by
      obtain ⟨s, found, rfl⟩ := located i c at_
      obtain ⟨n, -, copy⟩ := compiled.copies_root (List.mem_of_getElem? found)
      have single := length_children_of_decorator copy.behavior (copy.kind ▸ decorator)
      rw [← copy.children, List.length_map,
        ← (CompiledTree.children_found found).length_eq] at single
      exact List.length_eq_one_iff.1 single
    subtree := fun i inside => by
      rw [CompiledTree.size_executable] at inside
      obtain ⟨s, found⟩ := CompiledTree.lt_size_iff.1 inside
      have block := CompiledTree.subtree_of_found found
      refine ⟨s.size, ?_⟩
      rw [CompiledTree.subtree_executable inside, CompiledTree.children_executable, ← block]
      exact ⟨rfl, CompiledTree.subtree_depthFirst inside,
        fun j => CompiledTree.mem_subtree_iff inside⟩
    excluded := by
      have listed : t.executable.excluded = t.excluded := rfl
      rw [listed, excluded, compiled.met_root, CompiledTree.ids_executable]
      congr 1
      exact List.filter_congr fun n _ => Bool.eq_iff_iff.2 (by simp) }

/-- On every graph, what is compiled is the part of the graph below the root, listed in
pre-order. -/
theorem compile_represents {t : ExecutableTree} (compiled : b.compile g snapshot = .ok t) :
    t.Represents g b.rootId := by
  rw [compile_eq] at compiled
  obtain ⟨nested, built, rfl⟩ := map_eq_ok.1 compiled
  exact represents_of_build built

/-- A node outside the tree may be its own child and have a child that does not exist. -/
theorem compile_represents_patrol :
    let node (id typeId : String) (kind : NodeKind) (children : List String) : Node :=
      ⟨id, .new typeId kind "", .empty, {}, children⟩
    let g : Graph := { nodes := [node "lost" "selector" .composite ["lost", "nobody"],
      node "root" "root" .root ["patrol"], node "rest" "doze" .action [],
      node "patrol" "sequence" .composite ["not", "rest"], node "speed" "constant" .data ["rest"],
      node "not" "inverter" .decorator ["look"], node "look" "succeed" .action []] }
    let b := (({} : TreeBuilder).withMapping "doze" "running")
    ∃ t, b.compile g ⟨.empty, .empty⟩ = .ok t ∧ t.Represents g "root" ∧
      t.ids = ["root", "patrol", "not", "look", "rest"] ∧
      t.nodes.map (·.children) = [[1], [2, 4], [3], [], []] ∧
      t.subtree 1 = some [1, 2, 3, 4] ∧ t.excluded = ["lost"] := by
  intro node g b
  have runs : (b.compile g ⟨.empty, .empty⟩).toOption.map
      (fun t => (t.ids, t.nodes.map (·.children), t.subtree 1, t.excluded)) =
      some (["root", "patrol", "not", "look", "rest"], [[1], [2, 4], [3], [], []],
        some [1, 2, 3, 4], ["lost"]) := by
    decide +kernel
  cases compiled : b.compile g ⟨.empty, .empty⟩ with
  | error e => rw [compiled] at runs; cases runs
  | ok t =>
    simp only [compiled, Except.toOption, Option.map_some, Option.some.injEq, Prod.mk.injEq] at runs
    exact ⟨t, rfl, compile_represents compiled, runs⟩

end TreeBuilder

end BehaviorTree
