import BehaviorTree.Proofs.Compilation.Arena
import BehaviorTree.Proofs.Execution.Numbered

/-!
# Blocks of nodes

The nodes below a node are an interval of numbers, so their states are a block of the list of
states. `Ready` says that the block of some trees is to be evaluated, and `Ran` says what is left
of a block afterwards; blocks that run one after the other are one block (`Ran.append`). To cut a
tree short leads from the one to the other (`Ready.abort`).
-/

namespace BehaviorTree

variable {T : Type}

theorem checked_eq_ok {α : Type} {xs : List α} {i : Nat} {x : α} (at_ : xs[i]? = some x) :
    checked xs i = .ok x := by
  rw [checked, at_]

namespace CompiledTree

variable {t : CompiledTree} {s : Tree CompiledNode} {i k fuel : Nat}

/-- The nodes of a subtree are a block of the nodes. -/
theorem nodes_of_found (found : t.root.subtrees[i]? = some s) :
    ∃ before after, t.nodes = before ++ s.preorder ++ after ∧ before.length = i := by
  obtain ⟨before, after, eq, len⟩ := Tree.subtrees_contiguous found
  refine ⟨before.map Tree.label, after.map Tree.label, ?_, by rw [List.length_map, len]⟩
  rw [nodes, ← Tree.map_label_subtrees, eq, List.map_append, List.map_append,
    Tree.map_label_subtrees]

theorem nodeAt_of_found (found : t.root.subtrees[i]? = some s) : t.nodeAt i = .ok s.label :=
  checked_eq_ok (node?_eq_some.2 ⟨s, found, rfl⟩)

theorem nodeAt_add {n : CompiledNode} (found : t.root.subtrees[i]? = some s)
    (at_ : s.preorder[k]? = some n) : t.nodeAt (i + k) = .ok n := by
  obtain ⟨before, after, eq, rfl⟩ := nodes_of_found found
  apply checked_eq_ok
  obtain ⟨inside, -⟩ := List.getElem?_eq_some_iff.1 at_
  rw [eq, List.append_assoc, List.getElem?_append_right (Nat.le_add_right ..),
    Nat.add_sub_cancel_left, List.getElem?_append_left inside, at_]

/-- A walk with enough fuel visits what a walk visits. -/
theorem walk_of_depthFirst {waiting visited : List Nat}
    (walk : DepthFirst t.children waiting visited) (inside : ∀ j ∈ visited, j < t.size)
    (paid : visited.length ≤ fuel) : t.walk fuel waiting = .ok visited := by
  induction walk generalizing fuel with
  | done => cases fuel <;> rfl
  | @visit top waiting visited _ ih =>
    obtain ⟨here, below⟩ := List.forall_mem_cons.1 inside
    obtain ⟨s, found⟩ := lt_size_iff.1 here
    cases fuel with
    | zero => cases paid
    | succ fuel =>
      rw [CompiledTree.walk, nodeAt_of_found found, ih below (Nat.le_of_succ_le_succ paid)]
      rfl

/-- What an abort walks through is the block of the node. -/
theorem walk_eq (found : t.root.subtrees[i]? = some s) :
    t.walk t.size [i] = .ok (List.range' i s.size) := by
  have inside := add_size_le found
  have walk := subtree_depthFirst (lt_size_iff.2 ⟨s, found⟩)
  rw [subtree_of_found found] at walk
  refine walk_of_depthFirst walk (fun j mem => ?_) ?_
  · rw [List.mem_range'_1] at mem
    omega
  · rw [List.length_range']
    omega

end CompiledTree

/-! ## Blocks of states -/

namespace Slots

variable {m : Slots T} {before after rest : List (NodeState T)} {state : NodeState T}

theorem read_eq (states : m.states = before ++ [state] ++ rest ++ after) :
    m.read before.length = .ok state :=
  checked_eq_ok (by rw [states]; simp)

theorem write_eq (states : m.states = before ++ [state] ++ rest ++ after)
    (next : NodeState T) : m.write before.length next =
      .ok { m with states := before ++ [next] ++ rest ++ after } := by
  have done : m.states.set before.length next = before ++ [next] ++ rest ++ after := by
    rw [states]
    simp
  rw [← done]
  exact Checks.bind_eq_ok.2 ⟨state, read_eq states, rfl⟩

theorem enter_eq {i : Nat} (fresh : i ∉ m.entered) :
    m.enter i = .ok { m with entered := i :: m.entered } :=
  if_neg fresh

theorem finish_eq (states : m.states = before ++ [state] ++ rest ++ after) (id : String)
    (status : Status) : m.finish before.length id status =
      .ok { m with
        states := before ++ [{ state with status := status }] ++ rest ++ after
        visited := m.visited ++ [before.length]
        world := m.world.visit id status } := by
  refine Checks.bind_eq_ok.2 ⟨state, read_eq states, ?_⟩
  exact Checks.bind_eq_ok.2 ⟨_, write_eq states _, rfl⟩

end Slots

/-- An entry of a report shows the node of a number, where nodes are numbered from a start on. -/
def Shows (start : Nat) (nodes : List (LiveNode T)) (j : Nat) (entry : String × Status) : Prop :=
  ∃ k n, j = start + k ∧ nodes[k]? = some n ∧ entry = (n.node.id, n.state.status)

/-- Nodes that stand between others have run, and nothing but their states has changed. -/
structure Ran (before : List (NodeState T)) (nodes : List (LiveNode T))
    (after : List (NodeState T)) (m m' : Slots T) : Prop where
  states : m'.states = before ++ nodes.map (·.state) ++ after
  entered : ∀ j ∈ m'.entered,
    j ∈ m.entered ∨ before.length ≤ j ∧ j < before.length + nodes.length
  shown : ∃ numbers entries, m'.visited = m.visited ++ numbers ∧
    m'.world.visited = m.world.visited ++ entries ∧ numbers.Nodup ∧
      List.Forall₂ (Shows before.length nodes) numbers entries

section Ran

variable {m m₁ m₂ : Slots T} {before after after₁ : List (NodeState T)}
  {nodes more : List (LiveNode T)} {state : NodeState T} {start j : Nat} {entry : String × Status}

theorem Shows.append (shown : Shows start nodes j entry) (more : List (LiveNode T)) :
    Shows start (nodes ++ more) j entry := by
  obtain ⟨k, n, place, at_, is⟩ := shown
  obtain ⟨inside, -⟩ := List.getElem?_eq_some_iff.1 at_
  exact ⟨k, n, place, by rw [List.getElem?_append_left inside, at_], is⟩

theorem Shows.append_left (nodes : List (LiveNode T))
    (shown : Shows (start + nodes.length) more j entry) : Shows start (nodes ++ more) j entry := by
  obtain ⟨k, n, place, at_, is⟩ := shown
  refine ⟨nodes.length + k, n, by omega, ?_, is⟩
  rw [List.getElem?_append_right (Nat.le_add_right ..), Nat.add_sub_cancel_left, at_]

theorem inside_of_shown {numbers : List Nat} {entries : List (String × Status)}
    (shown : List.Forall₂ (Shows start nodes) numbers entries) :
    ∀ j ∈ numbers, start ≤ j ∧ j < start + nodes.length := by
  induction shown with
  | nil => exact fun j mem => nomatch mem
  | cons here _ ih =>
    refine List.forall_mem_cons.2 ⟨?_, ih⟩
    obtain ⟨k, n, rfl, at_, -⟩ := here
    obtain ⟨inside, -⟩ := List.getElem?_eq_some_iff.1 at_
    omega

/-- Where nothing runs, nothing changes. -/
theorem Ran.still (states : m.states = before ++ nodes.map (·.state) ++ after) :
    Ran before nodes after m m where
  states := states
  entered := fun _ mem => .inl mem
  shown := ⟨[], [], (List.append_nil _).symm, (List.append_nil _).symm, .nil, .nil⟩

/-- Nodes that run one after the other. -/
theorem Ran.append (first : Ran before nodes after₁ m m₁)
    (others : Ran (before ++ nodes.map (·.state)) more after m₁ m₂) :
    Ran before (nodes ++ more) after m m₂ where
  states := by rw [others.states, List.map_append, ← List.append_assoc]
  entered := fun j mem => by
    have now := others.entered j mem
    rw [List.length_append, List.length_map] at now
    rw [List.length_append]
    rcases now with earlier | here
    · rcases first.entered j earlier with earlier | here
      · exact .inl earlier
      · omega
    · omega
  shown := by
    obtain ⟨numbers, entries, visited, listed, once, shown⟩ := first.shown
    obtain ⟨numbers', entries', visited', listed', once', shown'⟩ := others.shown
    rw [List.length_append, List.length_map] at shown'
    refine ⟨numbers ++ numbers', entries ++ entries', ?_, ?_, ?_, ?_⟩
    · rw [visited', visited, List.append_assoc]
    · rw [listed', listed, List.append_assoc]
    · refine once.append once' fun j here there => ?_
      have := inside_of_shown shown j here
      have := inside_of_shown shown' j there
      omega
    · exact List.rel_append (shown.imp fun _ _ shown => shown.append more)
        (shown'.imp fun _ _ shown => shown.append_left nodes)

/-- The children of a node have run, and now the node ends. -/
theorem Ran.finish (n : CompiledNode) (status : Status)
    (below : Ran (before ++ [state]) nodes after
      { m with entered := before.length :: m.entered } m₁) :
    ∃ m₂, m₁.finish before.length n.id status = .ok m₂ ∧ m₂.world = m₁.world.visit n.id status ∧
      Ran before (⟨n, { state with status := status }⟩ :: nodes) after m m₂ := by
  let ended : LiveNode T := ⟨n, { state with status := status }⟩
  obtain ⟨numbers, entries, visited, listed, once, shown⟩ := below.shown
  rw [List.length_append, List.length_singleton] at shown
  refine ⟨_, Slots.finish_eq below.states n.id status, rfl, ?_, ?_, ?_⟩
  · simp
  · intro j mem
    have now := below.entered j mem
    rw [List.length_append, List.length_singleton] at now
    rw [List.length_cons]
    rcases now with earlier | here
    · rcases List.mem_cons.1 earlier with rfl | earlier
      · omega
      · exact .inl earlier
    · omega
  · refine ⟨numbers ++ [before.length], entries ++ [(n.id, status)], ?_, ?_, ?_, ?_⟩
    · show m₁.visited ++ [before.length] = _
      rw [visited, List.append_assoc]
    · show m₁.world.visited ++ [(n.id, status)] = _
      rw [listed, List.append_assoc]
    · refine once.append (List.nodup_singleton _) fun j below here => ?_
      have := inside_of_shown shown j below
      rw [List.mem_singleton] at here
      omega
    · exact List.rel_append (shown.imp fun _ _ shown => shown.append_left [ended])
        (.cons ⟨0, ended, rfl, rfl, rfl⟩ .nil)

/-- Nodes after those that have run stay as they are. -/
theorem Ran.append_still (ran : Ran before nodes (more.map (·.state) ++ after) m m₁) :
    Ran before (nodes ++ more) after m m₁ :=
  ran.append (.still (by rw [ran.states, List.append_assoc _ (more.map _)]))

theorem Ran.of_write {states : List (NodeState T)}
    (ran : Ran before nodes after { m with states := states } m₁) :
    Ran before nodes after m m₁ :=
  ⟨ran.states, ran.entered, ran.shown⟩

theorem Ran.world {w : World} (ran : Ran before nodes after m m₁)
    (same : w.visited = m₁.world.visited) : Ran before nodes after m { m₁ with world := w } :=
  ⟨ran.states, ran.entered, by rw [same]; exact ran.shown⟩

theorem Ran.write (ran : Ran (before ++ [state]) nodes after m m₁) (next : NodeState T) :
    ∃ m₂, m₁.write before.length next = .ok m₂ ∧ m₂.world = m₁.world ∧
      Ran (before ++ [next]) nodes after m m₂ := by
  refine ⟨_, Slots.write_eq ran.states next, rfl, rfl, ?_, ?_⟩
  · simpa using ran.entered
  · simpa using ran.shown

end Ran

/-! ## Blocks to be evaluated -/

/-- Trees are to be evaluated whose nodes have numbers from a start on, and none of these has
taken part yet. -/
structure Ready (t : CompiledTree) (before : List (NodeState T)) (trees : List (LiveTree T))
    (after : List (NodeState T)) (m : Slots T) : Prop where
  located : List.Forall₂ (fun c tree => t.root.subtrees[c]? = some tree.compiled)
    (Tree.places before.length trees) trees
  states : m.states = before ++ (Tree.preorders trees).map (·.state) ++ after
  apart : ∀ j ∈ m.entered, j < before.length ∨ before.length + Tree.sizes trees ≤ j

namespace Ready

variable {t : CompiledTree} {m m₁ : Slots T} {before after after₁ : List (NodeState T)}
  {tree : LiveTree T} {trees : List (LiveTree T)} {nodes : List (LiveNode T)}
  {state : NodeState T} {n : CompiledNode}

theorem head (ready : Ready t before (tree :: trees) after m) :
    Ready t before [tree] ((Tree.preorders trees).map (·.state) ++ after) m where
  located := .cons (List.forall₂_cons.1 ready.located).1 .nil
  states := by
    rw [ready.states]
    simp [Tree.preorders]
  apart := fun j mem => by
    have apart := ready.apart j mem
    simp only [Tree.sizes] at apart ⊢
    omega

/-- When the first tree has run, the others are to be evaluated. -/
theorem tail (ready : Ready t before (tree :: trees) after m) (size : nodes.length = tree.size)
    (ran : Ran before nodes ((Tree.preorders trees).map (·.state) ++ after) m m₁) :
    Ready t (before ++ nodes.map (·.state)) trees after m₁ where
  located := by
    rw [List.length_append, List.length_map, size]
    exact (List.forall₂_cons.1 ready.located).2
  states := by rw [ran.states, ← List.append_assoc]
  apart := fun j mem => by
    rw [List.length_append, List.length_map, size]
    have now := ran.entered j mem
    rw [size] at now
    rcases now with earlier | here
    · have apart := ready.apart j earlier
      simp only [Tree.sizes] at apart
      omega
    · omega

theorem found (ready : Ready t before [tree] after m) :
    t.root.subtrees[before.length]? = some tree.compiled :=
  (List.forall₂_cons.1 ready.located).1

/-- A tree may be left alone. -/
theorem still (ready : Ready t before [tree] after m) : Ran before tree.preorder after m m :=
  .still (by rw [ready.states]; simp [Tree.preorders])

theorem fresh (ready : Ready t before [tree] after m) : before.length ∉ m.entered := by
  intro mem
  have apart := ready.apart before.length mem
  have positive := tree.size_eq
  simp only [Tree.sizes] at apart
  omega

/-- When a node has been entered, its children are to be evaluated. -/
theorem children (ready : Ready t before [.node ⟨n, state⟩ trees] after m) :
    t.children before.length = Tree.places (before ++ [state]).length trees ∧
      Ready t (before ++ [state]) trees after
        { m with entered := before.length :: m.entered } := by
  have length : (before ++ [state]).length = before.length + 1 := by simp
  have numbered : t.children before.length = Tree.places (before ++ [state]).length trees := by
    rw [CompiledTree.children_of_found ready.found, length]
    exact Tree.places_maps ..
  refine ⟨numbered, ?_, ?_, ?_⟩
  · have located := CompiledTree.children_found ready.found
    rw [numbered, LiveTree.compiled, Tree.children_map, Tree.maps_eq_map,
      List.forall₂_map_right_iff] at located
    exact located
  · show m.states = _
    rw [ready.states]
    simp [Tree.preorders, Tree.preorder]
  · intro j mem
    rw [length]
    rcases List.mem_cons.1 mem with rfl | mem
    · omega
    · have apart := ready.apart j mem
      simp only [Tree.sizes, Tree.size] at apart
      omega

theorem write (ready : Ready t (before ++ [state]) trees after m) (next : NodeState T) :
    ∃ states, m.write before.length next = .ok { m with states := states } ∧
      Ready t (before ++ [next]) trees after { m with states := states } := by
  refine ⟨_, Slots.write_eq ready.states next, ?_, rfl, ?_⟩
  · simpa using ready.located
  · simpa using ready.apart

end Ready

/-! ## Cutting short -/

section Abort

variable [Clock T] {t : CompiledTree} {before after : List (NodeState T)}

theorem resetAt_eq {n : CompiledNode} {state : NodeState T} {m : Slots T}
    (at_ : t.nodeAt before.length = .ok n) (states : m.states = before ++ [state] ++ [] ++ after)
    (fresh : before.length ∉ m.entered) :
    ∃ m', t.resetAt m before.length = .ok m' ∧ m'.world = m.world.visit n.id .idle ∧
      Ran before [⟨n, .initial⟩] after m m' := by
  have wrote := Slots.write_eq (m := { m with entered := before.length :: m.entered }) states
    .initial
  have ran : Ran (before ++ [.initial]) [] after
      { m with entered := before.length :: m.entered } _ := .of_write (.still rfl)
  obtain ⟨m', finished, world, ran⟩ := ran.finish n .idle
  refine ⟨m', ?_, world, ran⟩
  refine Checks.bind_eq_ok.2 ⟨n, at_, ?_⟩
  refine Checks.bind_eq_ok.2 ⟨_, Slots.enter_eq fresh, ?_⟩
  exact Checks.bind_eq_ok.2 ⟨_, wrote, finished⟩

/-- Nodes that stand in a block are reset one after the other. -/
theorem resetAt_all (nodes : List (LiveNode T)) {before : List (NodeState T)} {m : Slots T}
    (located : ∀ k n, nodes[k]? = some n → t.nodeAt (before.length + k) = .ok n.node)
    (states : m.states = before ++ nodes.map (·.state) ++ after)
    (apart : ∀ j ∈ m.entered, j < before.length ∨ before.length + nodes.length ≤ j) :
    ∃ m', (List.range' before.length nodes.length).foldlM t.resetAt m = .ok m' ∧
      m'.world = { m.world with
        visited := m.world.visited ++ nodes.map fun n => (n.node.id, .idle) } ∧
      Ran before (nodes.map fun n => ⟨n.node, .initial⟩) after m m' := by
  induction nodes generalizing before m with
  | nil => exact ⟨m, rfl, by simp, .still states⟩
  | cons n rest ih =>
    simp only [List.length_cons] at apart
    have fresh : before.length ∉ m.entered := fun mem => by
      have := apart _ mem
      omega
    have here : m.states = before ++ [n.state] ++ [] ++ (rest.map (·.state) ++ after) := by
      simp [states]
    obtain ⟨m₁, first, world, ran⟩ := resetAt_eq (located 0 n rfl) here fresh
    have length : (before ++ [(.initial : NodeState T)]).length = before.length + 1 := by simp
    have located' (k : Nat) (n : LiveNode T) (at_ : rest[k]? = some n) :
        t.nodeAt ((before ++ [(.initial : NodeState T)]).length + k) = .ok n.node := by
      rw [length, Nat.add_assoc, Nat.add_comm 1 k]
      exact located (k + 1) n at_
    have apart' (j : Nat) (mem : j ∈ m₁.entered) :
        j < (before ++ [(.initial : NodeState T)]).length ∨
          (before ++ [(.initial : NodeState T)]).length + rest.length ≤ j := by
      rw [length]
      rcases ran.entered j mem with earlier | here
      · have := apart j earlier
        omega
      · rw [List.length_singleton] at here
        omega
    obtain ⟨m₂, others, world', ran'⟩ := ih located' (by rw [ran.states]; simp) apart'
    refine ⟨m₂, ?_, ?_, ran.append ran'⟩
    · rw [List.length_cons, List.range'_succ]
      rw [length] at others
      exact Checks.foldlM_cons_eq_ok.2 ⟨m₁, first, others⟩
    · rw [world', world]
      simp [World.visit]

/-- What is cut short by number is what is cut short in the tree. -/
theorem Ready.abort {tree : LiveTree T} {m : Slots T} (ready : Ready t before [tree] after m) :
    ∃ m', t.abortAt before.length m = .ok m' ∧ m'.world = (m.world.abort tree).2 ∧
      Ran before (m.world.abort tree).1.preorder after m m' := by
  have length : tree.preorder.length = tree.size := tree.length_preorder
  have located (k : Nat) (n : LiveNode T) (at_ : tree.preorder[k]? = some n) :
      t.nodeAt (before.length + k) = .ok n.node := by
    refine CompiledTree.nodeAt_add ready.found ?_
    rw [LiveTree.compiled, Tree.preorder_map, List.getElem?_map, at_]
    rfl
  have apart (j : Nat) (mem : j ∈ m.entered) :
      j < before.length ∨ before.length + tree.preorder.length ≤ j := by
    have apart := ready.apart j mem
    simp only [Tree.sizes] at apart
    omega
  obtain ⟨m', reset, world, ran⟩ := resetAt_all tree.preorder located ready.still.states apart
  refine ⟨m', ?_, world, ?_⟩
  · refine Checks.bind_eq_ok.2 ⟨_, CompiledTree.walk_eq ready.found, ?_⟩
    rw [LiveTree.compiled, Tree.size_map, ← length]
    exact reset
  · rw [World.abort, LiveTree.reset, Tree.preorder_map]
    exact ran

end Abort

end BehaviorTree
