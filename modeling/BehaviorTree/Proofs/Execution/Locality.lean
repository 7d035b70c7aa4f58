import BehaviorTree.Proofs.Execution.InRange
import BehaviorTree.Proofs.Execution.Notes

/-!
# Evaluation is local

Where the states of all nodes stand in one list, the evaluation of a node has access to every one of
them. It makes use of few: it reads and writes the states of the nodes below the node, itself
included, and no others. So what it does is told by these, by the time and by the part of the world
that is more than notes. Two evaluations of a node that begin alike in this respect end alike,
whatever the rest of the tree has come to (`build_evaluates_locally`).
-/

namespace BehaviorTree

variable {T : Type}

/-! ## Trees in a list of states -/

mutual

/-- As many states as there are nodes are those of a live tree. -/
theorem exists_live (s : Tree CompiledNode) (block : List (NodeState T))
    (length : block.length = s.size) :
    ∃ live : LiveTree T, live.compiled = s ∧ live.states = block := by
  match s, block with
  | .node n children, [] => cases length
  | .node n children, state :: rest =>
    obtain ⟨lives, compiled, states⟩ := exists_lives children rest (Nat.succ.inj length)
    refine ⟨.node ⟨n, state⟩ lives, ?_, ?_⟩
    · exact congrArg (Tree.node n) compiled
    · exact congrArg (List.cons state) states

theorem exists_lives (trees : List (Tree CompiledNode)) (block : List (NodeState T))
    (length : block.length = Tree.sizes trees) :
    ∃ lives : List (LiveTree T), Tree.maps LiveNode.node lives = trees ∧
      (Tree.preorders lives).map (·.state) = block := by
  match trees with
  | [] => exact ⟨[], rfl, (List.eq_nil_of_length_eq_zero length).symm⟩
  | s :: others =>
    rw [Tree.sizes] at length
    obtain ⟨live, compiled, states⟩ := exists_live s (block.take s.size) (by simp; omega)
    obtain ⟨lives, compiled', states'⟩ :=
      exists_lives others (block.drop s.size) (by simp; omega)
    refine ⟨live :: lives, ?_, ?_⟩
    · rw [Tree.maps, compiled', ← compiled]
      rfl
    · have mine : live.preorder.map (·.state) = block.take s.size := states
      rw [Tree.preorders, List.map_append, mine, states', List.take_append_drop]

end

namespace CompiledTree

variable [Clock T] (t : CompiledTree) (i : Nat)

/-- The tree below a place with the states that a list has for it. -/
def liveAt (states : List (NodeState T)) : Option (LiveTree T) :=
  t.root.subtrees[i]?.map fun s => (LiveTree.fill s (states.drop i)).1

variable {t i} {live : LiveTree T} {states rest : List (NodeState T)}

theorem liveAt_eq (found : t.root.subtrees[i]? = some live.compiled)
    (here : states.drop i = live.states ++ rest) : t.liveAt i states = some live := by
  rw [liveAt, found, here, Option.map_some, LiveTree.fill_states]

end CompiledTree

/-! ## Evaluation of one node -/

namespace Slots

/-- The nodes below a node, itself included, can be evaluated: every node of the tree has a state,
and none of these nodes has taken part yet. -/
structure Awaits (m : Slots T) (t : CompiledTree) (i : Nat) : Prop where
  length : m.states.length = t.size
  fresh : ∀ j ∈ t.subtree i, j ∉ m.entered

/-- What happens between two moments happens to the nodes below a node: states of others stay, and
others do not take part. -/
structure KeepsTo (m : Slots T) (t : CompiledTree) (i : Nat) (m' : Slots T) : Prop where
  length : m'.states.length = m.states.length
  outside : ∀ j, j ∉ t.subtree i → m'.states[j]? = m.states[j]?
  entered : ∀ j ∈ m'.entered, j ∈ m.entered ∨ j ∈ t.subtree i
  visited : ∃ numbers, m'.visited = m.visited ++ numbers ∧ ∀ j ∈ numbers, j ∈ t.subtree i

/-- Two moments are alike for the nodes below a node: they have the same states, and what all nodes
share is the same. The other nodes may be in any states, and anything may have been noted. -/
structure Alike (t : CompiledTree) (i : Nat) (m₁ m₂ : Slots T) : Prop where
  states : ∀ j ∈ t.subtree i, m₁.states[j]? = m₂.states[j]?
  shared : m₁.world.bare = m₂.world.bare

/-- From one moment to the next the same happens in two runs to the nodes below a node: the moments
after are alike, and the same has been noted. -/
structure SameChanges (t : CompiledTree) (i : Nat) (m₁ m₁' m₂ m₂' : Slots T) : Prop where
  alike : Alike t i m₁' m₂'
  visited : ∃ numbers, m₁'.visited = m₁.visited ++ numbers ∧ m₂'.visited = m₂.visited ++ numbers
  notes : ∃ notes, m₁'.world.notes = m₁.world.notes ++ notes ∧
    m₂'.world.notes = m₂.world.notes ++ notes

end Slots

section Blocks

variable {t : CompiledTree} {s : Tree CompiledNode} {i j : Nat} {m m' m₁ m₁' m₂ m₂' : Slots T}
  {live : LiveTree T} {before block block' : List (NodeState T)}

/-- What stands outside of a block does not depend on the block. -/
theorem getElem?_outside (same : block.length = block'.length)
    (outside : j < before.length ∨ before.length + block.length ≤ j)
    (after : List (NodeState T)) :
    (before ++ block ++ after)[j]? = (before ++ block' ++ after)[j]? := by
  rw [List.append_assoc, List.append_assoc]
  rcases outside with left | right
  · rw [List.getElem?_append_left left, List.getElem?_append_left left]
  · rw [List.getElem?_append_right (by omega), List.getElem?_append_right (by omega),
      List.getElem?_append_right (by omega), List.getElem?_append_right (by omega), same]

/-- The list of states has a live tree at a place. -/
structure Slots.Holds (m : Slots T) (t : CompiledTree) (i : Nat) (live : LiveTree T) : Prop where
  awaits : m.Awaits t i
  found : t.root.subtrees[i]? = some live.compiled
  here : (m.states.drop i).take live.size = live.states

/-- There is a tree at every place. -/
theorem Slots.Awaits.exists_holds (awaits : m.Awaits t i) (inside : i < t.size) :
    ∃ live, m.Holds t i live := by
  obtain ⟨s, found⟩ := CompiledTree.lt_size_iff.1 inside
  have within := CompiledTree.add_size_le found
  have length : ((m.states.drop i).take s.size).length = s.size := by
    rw [List.length_take, List.length_drop, awaits.length]
    omega
  obtain ⟨live, rfl, states⟩ := exists_live s _ length
  refine ⟨live, awaits, found, ?_⟩
  rw [states, LiveTree.compiled, Tree.size_map]

namespace Slots.Holds

/-- Moments that are alike for the nodes below a place have the same tree there. -/
theorem of_alike (holds : m₁.Holds t i live) (awaits : m₂.Awaits t i)
    (alike : Slots.Alike t i m₁ m₂) : m₂.Holds t i live := by
  refine ⟨awaits, holds.found, ?_⟩
  rw [← holds.here]
  apply List.ext_getElem?
  intro k
  rw [List.getElem?_take, List.getElem?_take]
  split
  · next inside =>
    rw [List.getElem?_drop, List.getElem?_drop]
    refine (alike.states (i + k) ?_).symm
    rw [CompiledTree.subtree_of_found holds.found, List.mem_range'_1, LiveTree.compiled,
      Tree.size_map]
    omega
  · rfl

/-- The states after the block of the tree. -/
theorem drop_eq (holds : m.Holds t i live) :
    m.states.drop i = live.states ++ (m.states.drop i).drop live.size := by
  rw [← holds.here, List.take_append_drop]

theorem states_eq (holds : m.Holds t i live) :
    m.states = m.states.take i ++ live.states ++ (m.states.drop i).drop live.size := by
  rw [List.append_assoc, ← holds.drop_eq, List.take_append_drop]

theorem length_take (holds : m.Holds t i live) : (m.states.take i).length = i := by
  have inside := CompiledTree.add_size_le holds.found
  rw [List.length_take, holds.awaits.length]
  omega

theorem mem_subtree_iff (holds : m.Holds t i live) :
    j ∈ t.subtree i ↔ i ≤ j ∧ j < i + live.size := by
  rw [CompiledTree.subtree_of_found holds.found, List.mem_range'_1, LiveTree.compiled,
    Tree.size_map]

theorem ready (holds : m.Holds t i live) :
    Ready t (m.states.take i) [live] ((m.states.drop i).drop live.size) m where
  located := by
    rw [Tree.places, Tree.places, holds.length_take]
    exact .cons holds.found .nil
  states := by
    simpa [Tree.preorders, LiveTree.states] using holds.states_eq
  apart := fun j taken => by
    have other : j ∉ t.subtree i := fun below => holds.awaits.fresh j below taken
    rw [holds.mem_subtree_iff] at other
    rw [holds.length_take]
    simp only [Tree.sizes]
    omega

/-- After the tree has run, nothing but its block of states has changed. -/
theorem keepsTo (holds : m.Holds t i live) {nodes : List (LiveNode T)}
    (size : nodes.length = live.size)
    (ran : Ran (m.states.take i) nodes ((m.states.drop i).drop live.size) m m') :
    m.KeepsTo t i m' := by
  have same : live.states.length = (nodes.map (·.state)).length := by
    rw [List.length_map, size, LiveTree.states, List.length_map, Tree.length_preorder]
  obtain ⟨numbers, entries, visited, -, -, shown⟩ := ran.shown
  have block : live.states.length = live.size := by rw [same, List.length_map, size]
  refine ⟨?_, fun j outside => ?_, fun j taken => ?_, numbers, visited, fun j mem => ?_⟩
  · have now := congrArg List.length ran.states
    have prior := congrArg List.length holds.states_eq
    simp only [List.length_append, ← same] at now prior
    omega
  · have apart : j < (m.states.take i).length ∨
        (m.states.take i).length + live.states.length ≤ j := by
      rw [holds.mem_subtree_iff] at outside
      rw [holds.length_take, block]
      omega
    have kept := getElem?_outside same apart ((m.states.drop i).drop live.size)
    rwa [← ran.states, ← holds.states_eq, eq_comm] at kept
  · rw [holds.mem_subtree_iff, ← size, ← holds.length_take]
    exact ran.entered j taken
  · rw [holds.mem_subtree_iff, ← size, ← holds.length_take]
    exact inside_of_shown shown j mem

/-- The number of a node that is shown is told by its id. -/
theorem shows_unique (holds : m.Holds t i live) (once : t.ids.Nodup) {after : LiveTree T}
    (compiled : after.compiled = live.compiled) :
    Relator.LeftUnique (Shows i after.preorder) := by
  have ids : (after.preorder.map fun n => n.node.id).Nodup := by
    obtain ⟨first, last, nodes, -⟩ := CompiledTree.nodes_of_found holds.found
    rw [CompiledTree.ids, nodes, List.map_append, List.map_append] at once
    have mine := (List.nodup_append.1 (List.nodup_append.1 once).1).2.1
    rwa [← compiled, LiveTree.compiled, Tree.preorder_map, List.map_map] at mine
  rintro j entry j' ⟨k, n, rfl, at_, rfl⟩ ⟨k', n', rfl, at', same⟩
  obtain ⟨inside, -⟩ := List.getElem?_eq_some_iff.1 at_
  have listed : (after.preorder.map fun n => n.node.id)[k]? =
      (after.preorder.map fun n => n.node.id)[k']? := by
    rw [List.getElem?_map, List.getElem?_map, at_, at', Option.map_some, Option.map_some,
      (Prod.mk.inj same).1]
  rw [(List.getElem?_inj (by rwa [List.length_map]) ids).1 listed]

end Slots.Holds

/-! ## What an evaluation does -/

/-- The outcome of a tree, from a world without notes, has come about at a place. -/
structure Slots.Does (m : Slots T) (t : CompiledTree) (i : Nat) (result : LiveTree T × World)
    (m' : Slots T) : Prop where
  block : (m'.states.drop i).take result.1.size = result.1.states
  world : m'.world = result.2.noting m.world.notes
  keepsTo : m.KeepsTo t i m'
  shown : ∃ numbers, m'.visited = m.visited ++ numbers ∧
    List.Forall₂ (Shows i result.1.preorder) numbers result.2.visited

/-- One outcome that comes about in two lists of states is the same change of both. -/
theorem Slots.Does.sameChanges {result : LiveTree T × World} (does : m₁.Does t i result m₁')
    (does₂ : m₂.Does t i result m₂') (found : t.root.subtrees[i]? = some result.1.compiled)
    (unique : Relator.LeftUnique (Shows i result.1.preorder)) :
    SameChanges t i m₁ m₁' m₂ m₂' := by
  obtain ⟨numbers, visited, shown⟩ := does.shown
  obtain ⟨numbers₂, visited₂, shown₂⟩ := does₂.shown
  -- The same entries are listed, and an id tells the number of its node.
  obtain rfl : numbers = numbers₂ := List.left_unique_forall₂' unique shown shown₂
  refine ⟨⟨fun j below => ?_, ?_⟩, ⟨numbers, visited, visited₂⟩, result.2.notes, ?_, ?_⟩
  · rw [CompiledTree.subtree_of_found found, List.mem_range'_1, LiveTree.compiled,
      Tree.size_map] at below
    have same := congrArg (·[j - i]?) (does.block.trans does₂.block.symm)
    simp only [List.getElem?_take, List.getElem?_drop] at same
    rwa [if_pos (by omega), if_pos (by omega), Nat.add_sub_cancel' below.1] at same
  · rw [does.world, does₂.world, World.bare_noting_eq, World.bare_noting_eq]
  · rw [does.world, World.notes_noting]
  · rw [does₂.world, World.notes_noting]

variable [Clock T]

/-- The tree is evaluated where it stands, as it is in a world without notes. -/
theorem Slots.Holds.does (holds : m.Holds t i live) (decorates : t.Decorates)
    (time : TickTime T) :
    ∃ m', t.evaluateAt time t.size i m =
        .ok ((evaluate time live m.world.bare).1.status, m') ∧
      m.Does t i (evaluate time live m.world.bare) m' := by
  have inside := CompiledTree.add_size_le holds.found
  rw [LiveTree.compiled, Tree.size_map] at inside
  have runs := evaluates_evaluateAt decorates time (Nat.le_of_add_left_le inside) holds.ready
  have size := length_preorder_evaluate time live m.world.bare
  rw [holds.length_take, evaluate_eq_bare time live m.world] at runs
  obtain ⟨m', done, world, ran⟩ := runs
  refine ⟨m', done, ?_, world, holds.keepsTo size ran, ?_⟩
  · have block : m'.states.drop i =
        (evaluate time live m.world.bare).1.states ++ (m.states.drop i).drop live.size := by
      rw [ran.states, List.append_assoc]
      exact List.drop_left' holds.length_take
    rw [block]
    exact List.take_left' (by rw [LiveTree.states, List.length_map, Tree.length_preorder])
  · obtain ⟨numbers, entries, visited, listed, -, shown⟩ := ran.shown
    rw [world] at listed
    obtain rfl := List.append_cancel_left listed
    rw [holds.length_take] at shown
    exact ⟨numbers, visited, shown⟩

/-- The tree stands at the place afterwards. -/
theorem Slots.Does.liveAt {result : LiveTree T × World} (does : m.Does t i result m')
    (found : t.root.subtrees[i]? = some result.1.compiled) :
    t.liveAt i m'.states = some result.1 := by
  have here : m'.states.drop i = result.1.states ++ (m'.states.drop i).drop result.1.size := by
    rw [← does.block, List.take_append_drop]
  exact CompiledTree.liveAt_eq found here

end Blocks

namespace TreeBuilder

variable [Clock T] {b : TreeBuilder} {g : Graph} {snapshot : BlackboardSnapshot} {t : CompiledTree}

/-- In a tree that was built, the evaluation of a node is that of the tree below it. It leaves the
states of all other nodes as they are, and no others take part. Two evaluations of a node from
moments that are alike for the nodes below it give the same status and do the same, whatever states
the other nodes have and whatever was noted before. -/
theorem build_evaluates_locally (built : b.build g snapshot = .ok t) (time : TickTime T) {i : Nat}
    (inside : i < t.size) :
    (∀ m : Slots T, m.Awaits t i → ∃ live after m', t.liveAt i m.states = some live ∧
      evaluate time live m.world = (after, m'.world) ∧
      t.evaluateAt time t.size i m = .ok (after.status, m') ∧
      t.liveAt i m'.states = some after ∧ m.KeepsTo t i m') ∧
    ∀ m₁ m₂ : Slots T, m₁.Awaits t i → m₂.Awaits t i → Slots.Alike t i m₁ m₂ →
      ∃ status m₁' m₂', t.evaluateAt time t.size i m₁ = .ok (status, m₁') ∧
        t.evaluateAt time t.size i m₂ = .ok (status, m₂') ∧
        Slots.SameChanges t i m₁ m₁' m₂ m₂' := by
  have decorates := decorates_of_build built
  have once := ids_nodup_of_build built
  refine ⟨fun m awaits => ?_, fun m₁ m₂ awaits₁ awaits₂ alike => ?_⟩
  · obtain ⟨live, holds⟩ := awaits.exists_holds inside
    obtain ⟨m', done, does⟩ := holds.does decorates time
    have stands := does.liveAt (by rw [compiled_evaluate]; exact holds.found)
    have same := evaluate_eq_bare time live m.world
    rw [← does.world] at same
    exact ⟨live, _, m', CompiledTree.liveAt_eq holds.found holds.drop_eq, same, done, stands,
      does.keepsTo⟩
  · obtain ⟨live, holds⟩ := awaits₁.exists_holds inside
    obtain ⟨m₁', done₁, does₁⟩ := holds.does decorates time
    obtain ⟨m₂', done₂, does₂⟩ := (holds.of_alike awaits₂ alike).does decorates time
    rw [← alike.shared] at done₂ does₂
    have compiled := compiled_evaluate time live m₁.world.bare
    refine ⟨_, m₁', m₂', done₁, done₂, does₁.sameChanges does₂ ?_ ?_⟩
    · rw [compiled]
      exact holds.found
    · exact holds.shows_unique once compiled

/-- A decorator cuts its child short while the nodes around it are in one state or in another. -/
theorem build_evaluates_locally_timeout :
    let node (id typeId : String) (kind : NodeKind) (data : Dict Value)
        (children : List String) : Node :=
      ⟨id, .new typeId kind "", data, {}, children⟩
    let g : Graph := { nodes := [node "root" "root" .root .empty ["list"],
      node "list" "sequence" .composite .empty ["watch", "rest"],
      node "watch" "timeout" .decorator (.ofList [("duration", .number 1)]) ["hold"],
      node "hold" "running" .action .empty [], node "rest" "running" .action .empty []] }
    let watch : NodeState Number := { NodeState.initial with running := true }
    let other : NodeState Number := { NodeState.initial with cursor := 7, status := .success }
    let world : World := { board := {}, outputs := .empty, random := .ofSeed 0 }
    let m₁ : Slots Number := ⟨[.initial, .initial, watch, other, .initial], world, [], []⟩
    let m₂ : Slots Number := ⟨[other, other, watch, other, other], world, [1, 0], [4]⟩
    ∃ t, ({} : TreeBuilder).build g ⟨.empty, .empty⟩ = .ok t ∧ t.subtree 2 = [2, 3] ∧
      ∃ m₁' m₂', t.evaluateAt ⟨1, 1, 1⟩ t.size 2 m₁ = .ok (.failure, m₁') ∧
        t.evaluateAt ⟨1, 1, 1⟩ t.size 2 m₂ = .ok (.failure, m₂') ∧ m₁'.visited = [3, 2] ∧
        Slots.SameChanges t 2 m₁ m₁' m₂ m₂' := by
  intro node g watch other world m₁ m₂
  have runs : (({} : TreeBuilder).build g ⟨.empty, .empty⟩).toOption.map (fun t =>
      (t.size, t.subtree 2, (t.evaluateAt ⟨1, 1, 1⟩ t.size 2 m₁).toOption.map fun result =>
        (result.1, result.2.visited))) = some (5, [2, 3], some (.failure, [3, 2])) := by
    decide +kernel
  cases built : ({} : TreeBuilder).build g ⟨.empty, .empty⟩ with
  | error e => rw [built] at runs; cases runs
  | ok t =>
    simp only [built, Except.toOption, Option.map_some, Option.some.injEq, Prod.mk.injEq] at runs
    obtain ⟨size, subtree, run⟩ := runs
    have awaits₁ : m₁.Awaits t 2 := ⟨size.symm, fun _ _ => List.not_mem_nil⟩
    have awaits₂ : m₂.Awaits t 2 := by
      refine ⟨size.symm, ?_⟩
      rw [subtree]
      decide
    have alike : Slots.Alike t 2 m₁ m₂ := by
      refine ⟨?_, rfl⟩
      rw [subtree]
      simp [m₁, m₂]
    obtain ⟨status, m₁', m₂', done₁, done₂, same⟩ :=
      (build_evaluates_locally built ⟨1, 1, 1⟩ (by omega)).2 m₁ m₂ awaits₁ awaits₂ alike
    rw [done₁] at run
    obtain ⟨rfl, visited⟩ := Prod.mk.inj (Option.some.inj run)
    exact ⟨t, rfl, subtree, m₁', m₂', done₁, done₂, visited, same⟩

end TreeBuilder

end BehaviorTree
