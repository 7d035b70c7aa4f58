import BehaviorTree.Proofs.Compilation.Build
import BehaviorTree.Proofs.Execution.Blocks
import BehaviorTree.Proofs.Handler.Draws

/-!
# No fault

Running by number has no fault and agrees with running through the tree, provided that every
decorator has a child, which the compiler sees to. Every behavior keeps to the block of its node
(`behaves`), so the evaluation of a node does (`evaluates_evaluateAt`), and with it every tick,
call and run (`Executor.performAllAt_eq`).
-/

namespace BehaviorTree

variable {T : Type}

/-! ## Evaluating -/

/-- What one child means for a composite. -/
theorem childrenAt_succ {below : Nat → Slots T → Except Fault (Status × Slots T)}
    {kind : CompositeKind} {numbers : List Nat} {cursor c : Nat} {status : Status}
    {m m₁ : Slots T} (here : numbers[cursor]? = some c)
    (did : below c m = .ok (status, m₁)) (rounds : Nat) :
    CompiledTree.childrenAt below kind numbers (rounds + 1) cursor m =
      if status = .running then .ok (.running, cursor, m₁)
      else if status = kind.settlesOn then .ok (kind.settlesOn, 0, m₁)
      else CompiledTree.childrenAt below kind numbers rounds (cursor + 1) m₁ := by
  rw [CompiledTree.childrenAt, checked_eq_ok here]
  show below c m >>= _ = _
  rw [did]
  rfl

section Evaluate

variable [Clock T] {t : CompiledTree} {time : TickTime T}
  {below : Nat → Slots T → Except Fault (Status × Slots T)} {before after : List (NodeState T)}
  {m : Slots T} {n : CompiledNode} {state : NodeState T} {children : List (LiveTree T)}

theorem visited_evaluateCondition (tick : Nat) (n : CompiledNode) (w : World) :
    (evaluateCondition tick n w).2.visited = w.visited := by
  unfold evaluateCondition
  split
  · split
    · rfl
    · dsimp only
      split <;> rfl
  · rfl

theorem visited_evaluateLeaf (time : TickTime T) (n : CompiledNode) (h : Handler)
    (state : NodeState T) (w : World) :
    (evaluateLeaf time n h state w).2.visited = w.visited := by
  unfold evaluateLeaf
  dsimp only
  split
  · rfl
  · rfl

/-- What is evaluated by number has no fault and is what is evaluated in the tree. -/
def Evaluates (t : CompiledTree) (time : TickTime T)
    (below : Nat → Slots T → Except Fault (Status × Slots T)) (tree : LiveTree T) : Prop :=
  ∀ {before after : List (NodeState T)} {m : Slots T}, Ready t before [tree] after m →
    ∃ m', below before.length m = .ok ((evaluate time tree m.world).1.status, m') ∧
      m'.world = (evaluate time tree m.world).2 ∧
      Ran before (evaluate time tree m.world).1.preorder after m m'

theorem length_preorder_evaluate (time : TickTime T) (tree : LiveTree T) (w : World) :
    (evaluate time tree w).1.preorder.length = tree.size := by
  have same := congrArg Tree.size (compiled_evaluate time tree w)
  rw [LiveTree.compiled, LiveTree.compiled, Tree.size_map, Tree.size_map] at same
  rw [Tree.length_preorder, same]

/-- The children from a place on: those before the cursor are left alone, the others are evaluated
as they are in the tree. -/
theorem childrenAt_eq (kind : CompositeKind) {numbers : List Nat} (cursor place : Nat)
    (works : ∀ child ∈ children, Evaluates t time below child)
    (ready : Ready t before children after m)
    (numbered : numbers.drop place = Tree.places before.length children) :
    ∃ m', let result := evaluateFrom time kind cursor place children m.world
      CompiledTree.childrenAt below kind numbers (numbers.length - max cursor place)
        (max cursor place) m = .ok (result.1, result.2.1, m') ∧
      m'.world = result.2.2.2 ∧ Ran before (Tree.preorders result.2.2.1) after m m' := by
  -- Both loops end with the children: by number because no places are left to come to.
  induction children generalizing place before m with
  | nil =>
    have ended : numbers.length - max cursor place = 0 := by
      have := List.drop_eq_nil_iff.1 numbered
      omega
    rw [ended]
    exact ⟨m, rfl, rfl, .still ready.states⟩
  | cons child rest ih =>
    obtain ⟨first, others⟩ := List.forall_mem_cons.1 works
    have here : numbers[place]? = some before.length := by
      rw [← List.head?_drop, numbered]
      rfl
    have next : numbers.drop (place + 1) = Tree.places (before.length + child.size) rest := by
      rw [← List.tail_drop, numbered]
      rfl
    obtain ⟨inside, -⟩ := List.getElem?_eq_some_iff.1 here
    by_cases skipped : place < cursor
    · have ran := ready.head.still
      have rest := ready.tail child.length_preorder ran
      obtain ⟨m', done, world, ran'⟩ := ih (place + 1) others rest (by
        rw [List.length_append, List.length_map, child.length_preorder, next])
      have same : max cursor (place + 1) = max cursor place := by omega
      rw [same] at done
      simp only [evaluateFrom, if_pos skipped]
      exact ⟨m', done, world, ran.append ran'⟩
    · obtain ⟨m₁, did, world, ran⟩ := first ready.head
      have at_ : max cursor place = place := by omega
      have rounds : numbers.length - place = numbers.length - (place + 1) + 1 := by omega
      simp only [evaluateFrom, if_neg skipped]
      rw [at_, rounds, childrenAt_succ here did]
      split_ifs with running settled
      · exact ⟨m₁, rfl, world, ran.append_still⟩
      · exact ⟨m₁, rfl, world, ran.append_still⟩
      · have size := length_preorder_evaluate time child m.world
        obtain ⟨m', done, world', ran'⟩ := ih (place + 1) others (ready.tail size ran) (by
          rw [List.length_append, List.length_map, size, next])
        rw [world, Nat.max_eq_right (by omega)] at done
        rw [world] at world' ran'
        exact ⟨m', done, world', ran.append ran'⟩

/-- What a node does when it is evaluated by number is what it does in the tree. -/
def Behaves (t : CompiledTree) (time : TickTime T)
    (below : Nat → Slots T → Except Fault (Status × Slots T)) (before : List (NodeState T))
    (n : CompiledNode) (state : NodeState T) (children : List (LiveTree T))
    (after : List (NodeState T)) (m : Slots T) : Prop :=
  ∃ status next children' m',
    t.behaveAt time below before.length n m = .ok (status, m') ∧
    evaluate time (.node ⟨n, state⟩ children) m.world = finish n next status children' m'.world ∧
    Ran (before ++ [next]) (Tree.preorders children') after m m'

theorem behaves_root (is : n.behavior = .root)
    (numbered : t.children before.length = Tree.places (before ++ [state]).length children)
    (ready : Ready t (before ++ [state]) children after m)
    (works : ∀ child ∈ children, Evaluates t time below child) :
    Behaves t time below before n state children after m := by
  cases children with
  | nil =>
    refine ⟨.idle, state, [], m, ?_, ?_, .still ready.states⟩
    · simp only [CompiledTree.behaveAt, is, numbered]
      rfl
    · simp only [evaluate, is]
  | cons child rest =>
    obtain ⟨m', did, world, ran⟩ := works child List.mem_cons_self ready.head
    refine ⟨(evaluate time child m.world).1.status, state, (evaluate time child m.world).1 :: rest,
      m', ?_, ?_, ran.append_still⟩
    · simp only [CompiledTree.behaveAt, is, numbered]
      exact did
    · simp only [evaluate, is, world]

theorem behaves_composite {kind : CompositeKind} (is : n.behavior = .composite kind)
    (numbered : t.children before.length = Tree.places (before ++ [state]).length children)
    (ready : Ready t (before ++ [state]) children after m)
    (works : ∀ child ∈ children, Evaluates t time below child) :
    Behaves t time below before n state children after m := by
  obtain ⟨m₁, did, world, ran⟩ := childrenAt_eq kind state.cursor 0 works ready numbered
  rw [Nat.max_zero] at did
  generalize result : evaluateFrom time kind state.cursor 0 children m.world = r at did world ran
  obtain ⟨m₂, wrote, same, kept⟩ := ran.write { state with cursor := r.2.1 }
  refine ⟨r.1, { state with cursor := r.2.1 }, r.2.2.1, m₂, ?_, ?_, kept⟩
  · simp only [CompiledTree.behaveAt, is]
    refine Checks.bind_eq_ok.2 ⟨state, Slots.read_eq ready.states, ?_⟩
    refine Checks.bind_eq_ok.2 ⟨_, did, ?_⟩
    refine Checks.bind_eq_ok.2 ⟨state, Slots.read_eq ran.states, ?_⟩
    exact Checks.bind_eq_ok.2 ⟨m₂, wrote, rfl⟩
  · unfold evaluate
    rw [is]
    simp only [result, same, world]

theorem behaves_decorator {kind : DecoratorKind} {child : LiveTree T} {rest : List (LiveTree T)}
    (is : n.behavior = .decorator kind)
    (numbered : t.children before.length =
      Tree.places (before ++ [state]).length (child :: rest))
    (ready : Ready t (before ++ [state]) (child :: rest) after m)
    (works : Evaluates t time below child) :
    Behaves t time below before n state (child :: rest) after m := by
  have first : checked (t.children before.length) 0 = .ok (before ++ [state]).length :=
    checked_eq_ok (by rw [numbered]; rfl)
  have read : m.read before.length = .ok state := Slots.read_eq ready.states
  cases entry : enterDecorator time kind n state m.world with
  | refuse =>
    refine ⟨.failure, state, child :: rest, m, ?_, ?_, .still ready.states⟩
    · simp only [CompiledTree.behaveAt, is]
      refine Checks.bind_eq_ok.2 ⟨_, first, ?_⟩
      refine Checks.bind_eq_ok.2 ⟨_, read, ?_⟩
      rw [entry]
      rfl
    · unfold evaluate
      rw [is]
      simp only [entry]
  | cutShort next =>
    obtain ⟨states, wrote, ready'⟩ := ready.write next
    obtain ⟨m', aborted, world, ran⟩ := ready'.head.abort
    refine ⟨.failure, next, (m.world.abort child).1 :: rest, m', ?_, ?_,
      ran.append_still.of_write⟩
    · simp only [CompiledTree.behaveAt, is]
      refine Checks.bind_eq_ok.2 ⟨_, first, ?_⟩
      refine Checks.bind_eq_ok.2 ⟨_, read, ?_⟩
      rw [entry]
      refine Checks.bind_eq_ok.2 ⟨_, wrote, ?_⟩
      rw [List.length_append] at aborted ⊢
      exact Checks.bind_eq_ok.2 ⟨m', aborted, rfl⟩
    · unfold evaluate
      rw [is]
      simp only [entry, world]
  | proceed next limit =>
    obtain ⟨states, wrote, ready'⟩ := ready.write next
    obtain ⟨m₁, did, world, ran⟩ := works ready'.head
    have ran := ran.append_still.of_write
    generalize result : evaluate time child m.world = r at did world ran
    generalize left : leaveDecorator time kind limit next r.1.status = l
    obtain ⟨m₂, wrote', same, kept⟩ := ran.write l.2
    refine ⟨l.1, l.2, r.1 :: rest, m₂, ?_, ?_, kept⟩
    · simp only [CompiledTree.behaveAt, is]
      refine Checks.bind_eq_ok.2 ⟨_, first, ?_⟩
      refine Checks.bind_eq_ok.2 ⟨_, read, ?_⟩
      rw [entry]
      refine Checks.bind_eq_ok.2 ⟨_, wrote, ?_⟩
      rw [List.length_append] at did ⊢
      refine Checks.bind_eq_ok.2 ⟨_, did, ?_⟩
      refine Checks.bind_eq_ok.2 ⟨next, Slots.read_eq ran.states, ?_⟩
      simp only [left]
      exact Checks.bind_eq_ok.2 ⟨m₂, wrote', rfl⟩
    · unfold evaluate
      rw [is]
      simp only [entry, result, left, same, world]

theorem behaves_condition (is : n.behavior = .condition)
    (ready : Ready t (before ++ [state]) children after m) :
    Behaves t time below before n state children after m := by
  refine ⟨(evaluateCondition time.tick n m.world).1, state, children,
    { m with world := (evaluateCondition time.tick n m.world).2 }, ?_, ?_, ?_⟩
  · simp only [CompiledTree.behaveAt, is]
  · unfold evaluate
    rw [is]
  · exact (Ran.still ready.states).world (visited_evaluateCondition time.tick n m.world)

theorem behaves_handler {h : Handler} (is : n.behavior = .handler h)
    (ready : Ready t (before ++ [state]) children after m) :
    Behaves t time below before n state children after m := by
  generalize result : evaluateLeaf time n h state m.world = r
  obtain ⟨states, wrote, ready'⟩ := ready.write r.1
  have same : r.2.visited = m.world.visited := result ▸ visited_evaluateLeaf time n h state m.world
  refine ⟨r.1.status, r.1, children, { m with states := states, world := r.2 }, ?_, ?_, ?_⟩
  · simp only [CompiledTree.behaveAt, is]
    refine Checks.bind_eq_ok.2 ⟨state, Slots.read_eq ready.states, ?_⟩
    simp only [result]
    exact Checks.bind_eq_ok.2 ⟨_, wrote, rfl⟩
  · unfold evaluate
    rw [is]
    simp only [result]
  · exact (Ran.still ready'.states).of_write.world same

/-- One lemma for each behavior, put together. A decorator must have a child. -/
theorem behaves (decorates : ∀ kind, n.behavior = .decorator kind → children ≠ [])
    (numbered : t.children before.length = Tree.places (before ++ [state]).length children)
    (ready : Ready t (before ++ [state]) children after m)
    (works : ∀ child ∈ children, Evaluates t time below child) :
    Behaves t time below before n state children after m := by
  cases is : n.behavior with
  | root => exact behaves_root is numbered ready works
  | composite kind => exact behaves_composite is numbered ready works
  | decorator kind =>
    obtain ⟨child, rest, rfl⟩ := List.exists_cons_of_ne_nil (decorates kind is)
    exact behaves_decorator is numbered ready (works child List.mem_cons_self)
  | condition => exact behaves_condition is ready
  | handler h => exact behaves_handler is ready

/-- Every decorator has a child. -/
def CompiledTree.Decorates (t : CompiledTree) : Prop :=
  ∀ s ∈ t.root.subtrees, ∀ kind, s.label.behavior = .decorator kind → s.children ≠ []

/-- With enough fuel, what is evaluated by number is what is evaluated in the tree. -/
theorem evaluates_evaluateAt (decorates : t.Decorates) (time : TickTime T) {tree : LiveTree T}
    {fuel : Nat} (paid : tree.size ≤ fuel) : Evaluates t time (t.evaluateAt time fuel) tree := by
  -- The fuel bounds the size, so it is enough for the children when it is for their parent.
  induction fuel generalizing tree with
  | zero =>
    have := tree.size_eq
    omega
  | succ fuel ih =>
    obtain ⟨⟨n, state⟩, children⟩ := tree
    intro before after m ready
    obtain ⟨numbered, below⟩ := ready.children
    have works (child : LiveTree T) (mem : child ∈ children) :
        Evaluates t time (t.evaluateAt time fuel) child :=
      ih (Nat.le_of_succ_le_succ (Nat.le_trans (Nat.succ_le_succ (Tree.size_le_sizes mem)) paid))
    have childless (kind : DecoratorKind) (is : n.behavior = .decorator kind) : children ≠ [] := by
      rintro rfl
      exact decorates _ (List.mem_of_getElem? ready.found) kind is rfl
    obtain ⟨status, next, children', m₁, did, evaluated, ran⟩ :=
      behaves childless numbered below works
    obtain ⟨m₂, finished, world, ran⟩ := ran.finish n status
    rw [show evaluate time (.node ⟨n, state⟩ children) m.world = _ from evaluated]
    refine ⟨m₂, ?_, world, ran⟩
    refine Checks.bind_eq_ok.2 ⟨n, CompiledTree.nodeAt_of_found ready.found, ?_⟩
    refine Checks.bind_eq_ok.2 ⟨_, Slots.enter_eq ready.fresh, ?_⟩
    refine Checks.bind_eq_ok.2 ⟨_, did, ?_⟩
    exact Checks.bind_eq_ok.2 ⟨m₂, finished, rfl⟩

end Evaluate

/-! ## Ticks -/

namespace LiveTree

variable [Clock T]

mutual

/-- The states of a tree, put back into the compiled tree, give the tree. -/
theorem fill_states (live : LiveTree T) (more : List (NodeState T)) :
    fill live.compiled (live.states ++ more) = (live, more) := by
  match live with
  | .node ⟨n, state⟩ children =>
    have below := fills_states children more
    simp only [compiled, Tree.map, states, Tree.preorder, List.map_cons, List.cons_append, fill,
      List.tail_cons, below]
    rfl

theorem fills_states (trees : List (LiveTree T)) (more : List (NodeState T)) :
    fills (Tree.maps LiveNode.node trees) ((Tree.preorders trees).map (·.state) ++ more) =
      (trees, more) := by
  match trees with
  | [] => rfl
  | live :: rest =>
    have first := fill_states live ((Tree.preorders rest).map (·.state) ++ more)
    have others := fills_states rest more
    simp only [states, compiled] at first
    simp only [Tree.maps, Tree.preorders, List.map_append, List.append_assoc, fills, first, others]

end

end LiveTree

section Tick

theorem reportAt_eq {t : CompiledTree} {m : Slots T} {entries : List (String × Status)}
    (nodes : List (LiveNode T))
    (located : ∀ k n, nodes[k]? = some n → t.nodeAt (0 + k) = .ok n.node)
    (states : m.states = nodes.map (·.state))
    (shown : List.Forall₂ (Shows 0 nodes) m.visited entries) : t.reportAt m = .ok entries := by
  unfold CompiledTree.reportAt
  generalize m.visited = visited at shown
  induction shown with
  | nil => rfl
  | cons here _ ih =>
    obtain ⟨k, n, rfl, at_, rfl⟩ := here
    have read : m.read (0 + k) = .ok n.state := checked_eq_ok (by
      rw [states, Nat.zero_add, List.getElem?_map, at_]
      rfl)
    refine Checks.mapM_cons_eq_ok.2 ⟨_, _, ?_, ih, rfl⟩
    refine Checks.bind_eq_ok.2 ⟨n.node, located k n at_, ?_⟩
    exact Checks.bind_eq_ok.2 ⟨n.state, read, rfl⟩

variable [Clock T] {t : CompiledTree} {live : LiveTree T}

/-- The evaluation of a whole tree by number. -/
theorem evaluateAt_root (decorates : t.Decorates) (compiled : live.compiled = t.root)
    (time : TickTime T) (w : World) :
    ∃ m', t.evaluateAt time t.size 0 { states := live.states, world := w } =
        .ok ((evaluate time live w).1.status, m') ∧
      m'.world = (evaluate time live w).2 ∧
      Ran [] (evaluate time live w).1.preorder [] { states := live.states, world := w } m' := by
  have size : live.size = t.size := by
    rw [CompiledTree.size, ← compiled, LiveTree.compiled, Tree.size_map]
  have ready : Ready t [] [live] [] { states := live.states, world := w } := by
    refine ⟨.cons ?_ .nil, ?_, ?_⟩
    · rw [compiled]
      exact Tree.head?_subtrees t.root
    · simp [LiveTree.states, Tree.preorders]
    · intro j mem
      cases mem
  exact evaluates_evaluateAt decorates time (Nat.le_of_eq size) ready

/-- The nodes after an evaluation are those of the compiled tree. -/
theorem getElem?_evaluate (compiled : live.compiled = t.root) {time : TickTime T} {w : World}
    {k : Nat} {n : LiveNode T} (at_ : (evaluate time live w).1.preorder[k]? = some n) :
    t.nodes[k]? = some n.node := by
  rw [CompiledTree.nodes, ← compiled, ← compiled_evaluate time live w, LiveTree.compiled,
    Tree.preorder_map, List.getElem?_map, at_]
  rfl

/-- A tick by number has no fault and is the tick of the tree. -/
theorem runAt_eq (decorates : t.Decorates) (compiled : live.compiled = t.root)
    (time : TickTime T) (outputs : Outputs) (random : Random) (board : Blackboard) :
    let result := Executor.runTree time live outputs random board
    t.runAt time live.states outputs random board =
      .ok (result.1, result.2.1.states, result.2.2) := by
  let w : World := { board := board.applyQueue.2, outputs := outputs, random := random }
  obtain ⟨m', did, world, ran⟩ := evaluateAt_root decorates compiled time w
  have states : m'.states = (evaluate time live w).1.states := by
    rw [ran.states]
    exact List.append_nil _
  have report : t.reportAt m' = .ok m'.world.visited := by
    obtain ⟨numbers, entries, visited, listed, -, shown⟩ := ran.shown
    refine reportAt_eq (evaluate time live w).1.preorder (fun k n at_ => ?_) states ?_
    · rw [Nat.zero_add]
      exact checked_eq_ok (getElem?_evaluate compiled at_)
    · rw [visited, listed]
      exact shown
  refine Checks.bind_eq_ok.2 ⟨_, did, ?_⟩
  refine Checks.bind_eq_ok.2 ⟨_, report, ?_⟩
  rw [states, world]
  rfl

/-- No node is visited twice in an evaluation. -/
theorem nodup_visited (decorates : t.Decorates) (once : t.ids.Nodup)
    (compiled : live.compiled = t.root) (time : TickTime T) {w : World} (fresh : w.visited = []) :
    ((evaluate time live w).2.visited.map (·.1)).Nodup := by
  obtain ⟨m', -, world, ran⟩ := evaluateAt_root decorates compiled time w
  obtain ⟨numbers, entries, -, listed, distinct, shown⟩ := ran.shown
  rw [← world, listed, fresh, List.nil_append]
  have ids : (entries.map (·.1)).map some = numbers.map (t.ids[·]?) := by
    rw [List.map_map, eq_comm, ← List.forall₂_eq_eq_eq, List.forall₂_map_left_iff,
      List.forall₂_map_right_iff]
    refine shown.imp fun j entry here => ?_
    obtain ⟨k, n, rfl, at_, rfl⟩ := here
    rw [CompiledTree.ids, List.getElem?_map, List.length_nil, Nat.zero_add,
      getElem?_evaluate compiled at_]
    rfl
  have inside (j : Nat) (mem : j ∈ numbers) : j < t.ids.length := by
    have found := List.mem_map_of_mem (f := (t.ids[·]?)) mem
    rw [← ids] at found
    obtain ⟨id, -, at_⟩ := List.mem_map.1 found
    exact (List.getElem?_eq_some_iff.1 at_.symm).1
  refine .of_map some (ids ▸ distinct.map_on fun j here k _ same => ?_)
  exact (List.getElem?_inj (inside j here) once).1 same

end Tick

/-! ## Executors -/

/-- Looking up an id in the list of statuses finds the state at the place of the id. -/
theorem lookup_statuses (nodes : List (LiveNode T)) (id : String) :
    match (nodes.map LiveNode.node).findIdx? fun n => n.id == id with
    | some i => ∃ n, nodes[i]? = some n ∧
        (nodes.map fun n => (n.node.id, n.state.status)).lookup id = some n.state.status
    | none => (nodes.map fun n => (n.node.id, n.state.status)).lookup id = none := by
  induction nodes with
  | nil => rfl
  | cons n rest ih =>
    rw [List.map_cons, List.map_cons, List.findIdx?_cons]
    by_cases here : n.node.id = id
    · rw [here, beq_self_eq_true, if_pos rfl]
      exact ⟨n, rfl, List.lookup_cons_self⟩
    · have skip : (id == n.node.id) = false := beq_false_of_ne (Ne.symm here)
      rw [beq_false_of_ne here, if_neg Bool.false_ne_true, List.lookup_cons, skip]
      cases place : (rest.map LiveNode.node).findIdx? fun n => n.id == id with
      | none =>
        rw [place] at ih
        exact ih
      | some i =>
        rw [place] at ih
        obtain ⟨n, at_, listed⟩ := ih
        exact ⟨n, at_, listed⟩

namespace Executor

variable {t : CompiledTree} {config : ExecutorConfig} {e : Executor T} {live : LiveTree T}

/-- A status looked up by number is in range, and is the one listed. -/
theorem statusAt_eq (runs : e.Runs t config) (id : String) :
    e.statusAt t id = .ok (e.status id) := by
  unfold statusAt status statuses
  cases alive : e.tree with
  | none => rfl
  | some live =>
    have found := lookup_statuses live.preorder id
    have nodes : live.preorder.map LiveNode.node = t.nodes := by
      rw [CompiledTree.nodes, ← runs.tree live alive, LiveTree.compiled, Tree.preorder_map]
    rw [nodes] at found
    unfold CompiledTree.index?
    cases place : t.nodes.findIdx? fun n => n.id == id with
    | none =>
      simp only [place] at found
      simp only [Option.map_some, Option.getD_some, LiveTree.statuses, found, Option.getD_none]
    | some i =>
      simp only [place] at found
      obtain ⟨n, at_, listed⟩ := found
      have read : checked live.states i = .ok n.state := checked_eq_ok (by
        rw [LiveTree.states, List.getElem?_map, at_]
        rfl)
      simp only [Option.map_some, Option.getD_some, LiveTree.statuses, listed, read]
      rfl

variable [Clock T]

theorem tickAt_eq (decorates : t.Decorates) (alive : e.tree = some live)
    (compiled : live.compiled = t.root) (delta : T) (s : SharedBlackboard) :
    e.tickAt t delta s = .ok (.ofTick (e.tickTree live delta s)) := by
  let time : TickTime T := ⟨delta, Clock.add e.elapsed delta, e.tickCount + 1⟩
  have ran := runAt_eq decorates compiled time e.outputs e.random s.board
  have filled : LiveTree.fill t.root (runTree time live e.outputs e.random s.board).2.1.states =
      ((runTree time live e.outputs e.random s.board).2.1, []) := by
    have back := LiveTree.fill_states (runTree time live e.outputs e.random s.board).2.1 []
    rw [List.append_nil] at back
    rw [← compiled, ← compiled_evaluate time live]
    exact back
  unfold tickAt
  rw [alive]
  refine Checks.bind_eq_ok.2 ⟨_, ran, ?_⟩
  simp only [filled]
  rfl

/-- No node is listed twice in the report of a tick. -/
theorem nodup_statuses (decorates : t.Decorates) (once : t.ids.Nodup) (runs : e.Runs t config)
    (alive : e.tree = some live) (delta : T) (s : SharedBlackboard) :
    ((e.tickTree live delta s).1.statuses.map (·.1)).Nodup :=
  nodup_visited decorates once (runs.tree live alive) _ rfl

/-- The ticks of an update. -/
theorem tickWhileDueAt_eq (decorates : t.Decorates) (runs : e.Runs t config) (count : Nat)
    (s : SharedBlackboard) :
    tickWhileDueAt t count e s = .ok (.ofTicks (tickWhileDue count e s)) := by
  induction count generalizing e s with
  | zero => rfl
  | succ count ih =>
    unfold tickWhileDueAt
    rcases e.due_or_early with ⟨live, alive, due⟩ | early
    · have paid : e.paid.Runs t config := ⟨runs.config, runs.tree⟩
      have ticked := tickAt_eq decorates (e := e.paid) alive (runs.tree live alive) e.interval s
      have others := ih (paid.kept (tickTree_kept (e := e.paid) alive e.interval s))
        (e.paid.tickTree live e.interval s).2.2
      rw [if_pos (by simp [alive, due]), tickWhileDue_due alive due]
      refine Checks.bind_eq_ok.2 ⟨_, ticked, ?_⟩
      exact Checks.bind_eq_ok.2 ⟨_, others, rfl⟩
    · rw [if_neg (by rcases early with dead | early <;> simp [*]), tickWhileDue_early early]
      rfl

/-- A call by number has no fault and does what the call does. -/
theorem performAt_eq (decorates : t.Decorates) (runs : e.Runs t config) (s : SharedBlackboard)
    (c : Call T) : e.performAt t s c = .ok (e.perform s c) := by
  unfold performAt perform
  cases made : e.call s c with
  | error error => rfl
  | ok o =>
    cases call_eq_ok.1 made with
    | step still alive =>
      exact tickAt_eq decorates alive ((runs.stepping s).tree _ alive) _ s
    | tick running alive => exact tickAt_eq decorates alive (runs.tree _ alive) _ s
    | @update frameDelta alive running checked =>
      have fed : (e.addFrame frameDelta).Runs t config := ⟨runs.config, runs.tree⟩
      exact (if_pos running).trans (tickWhileDueAt_eq decorates fed _ s)
    | wait alive still => exact if_neg still
    | _ => rfl

/-- What holds of one call holds of every run. -/
theorem performAllAt_eq (decorates : t.Decorates) (runs : e.Runs t config) (s : SharedBlackboard)
    (calls : List (Call T)) : e.performAllAt t s calls = .ok (e.performAll s calls) := by
  induction calls generalizing e s with
  | nil => rfl
  | cons c calls ih =>
    refine Checks.bind_eq_ok.2 ⟨_, performAt_eq decorates runs s c, ?_⟩
    exact Checks.bind_eq_ok.2 ⟨_, ih (runs.perform s c) _, rfl⟩

end Executor

/-! ## Compiled trees -/

namespace TreeBuilder

variable {b : TreeBuilder} {g : Graph} {snapshot : BlackboardSnapshot} {t : CompiledTree}

theorem kind_of_decorator {n : Node} {kind : DecoratorKind}
    (known : b.behavior n = .ok (.decorator kind)) : n.kind = .decorator := by
  unfold TreeBuilder.behavior at known
  cases is : n.kind <;> simp only [is] at known
  case decorator => rfl
  case root => cases known
  case data => cases known
  all_goals
    split at known
    · cases known
    · cases known

theorem ids_nodup_of_build (built : b.build g snapshot = .ok t) : t.ids.Nodup := by
  obtain ⟨found, compiled, -⟩ := build_eq_ok built
  exact compiled.ids_nodup

/-- The compiler sees to it that a decorator has a child. -/
theorem decorates_of_build (built : b.build g snapshot = .ok t) : t.Decorates := by
  obtain ⟨found, compiled, -⟩ := build_eq_ok built
  intro s mem kind is childless
  obtain ⟨n, -, copy⟩ := compiled.copies_root mem
  have known := copy.behavior
  rw [is] at known
  have single := length_children_of_decorator known (kind_of_decorator known)
  rw [← copy.children, childless] at single
  cases single

/-- Calls on an executor of a tree that was built have no fault where nodes are come to by number:
every place is in range, no node takes part twice in a tick, and every tick ends. Lookups of
statuses have none either, and no report lists a node twice. What is drawn, by builtin handlers and
by those of the fallback, is drawn with the probability that the configured number is made, which
lies between zero and one. -/
theorem build_runs_in_range [Clock T] (built : b.build g snapshot = .ok t) :
    (∀ (config : ExecutorConfig) (entropy : Nat) (s : SharedBlackboard)
        (calls : List (Executor.Call T)),
      let e : Executor T := .new t config entropy
      let after := e.performAll s calls
      e.performAllAt t s calls = .ok after ∧
        (∀ r ∈ after.reports, (r.statuses.map (·.1)).Nodup) ∧
        ∀ id, after.executor.statusAt t id = .ok (after.executor.status id)) ∧
    (∀ (nodeType : String) (standard : Number) (context : HandlerContext) (state : HandlerState),
      let p := Handler.probability (Handler.configuredProbability standard context state)
      Number.atMost 0 p = true ∧ Number.atMost p 1 = true ∧
        (Handler.randomOutcome nodeType standard).run context state =
          (.ok (.ofBool (state.random.happens p).1),
            { state with random := (state.random.happens p).2 })) ∧
    ∀ h ∈ Handler.builtins, h.nodeType ≠ TypeId.randomOutcome →
      ∀ context state, (h.run context state).2.random = state.random := by
  have decorates := decorates_of_build built
  have once := ids_nodup_of_build built
  refine ⟨fun config entropy s calls => ?_, fun nodeType standard context state => ?_, ?_⟩
  · have runs := Executor.runs_new (T := T) t config entropy
    refine ⟨Executor.performAllAt_eq decorates runs s calls, ?_, ?_⟩
    · exact Executor.performAll_reports (Executor.nodup_statuses decorates once) runs s calls
    · exact Executor.statusAt_eq (Executor.runs_performAll runs s calls)
  · obtain ⟨low, high⟩ :=
      Handler.probability_inside (Handler.configuredProbability standard context state)
    exact ⟨low, high, Handler.randomOutcome_run nodeType standard context state⟩
  · exact fun h builtin other => Handler.steady_of_mem_builtins builtin other

/-- In the second tick a decorator cuts a sequence short that was left in the middle. -/
theorem build_runs_in_range_watch :
    let node (id typeId : String) (kind : NodeKind) (data : Dict Value)
        (children : List String) : Node :=
      ⟨id, .new typeId kind "", data, {}, children⟩
    let g : Graph := { nodes := [node "root" "root" .root .empty ["watch"],
      node "watch" "timeout" .decorator (.ofList [("duration", .number 1)]) ["list"],
      node "list" "sequence" .composite .empty ["coin", "hold"],
      node "coin" "toss" .action .empty [], node "hold" "running" .action .empty []] }
    let b := ({} : TreeBuilder).withFallback (.random 1)
    let calls : List (Executor.Call Number) := [.start, .tick 1, .tick 1, .pause, .step]
    ∃ t, b.build g ⟨.empty, .empty⟩ = .ok t ∧
      let e : Executor Number := .new t {} 0
      e.performAllAt t {} calls = .ok (e.performAll {} calls) ∧
        (e.performAll {} calls).reports.map (·.statuses) =
          [[("coin", .success), ("hold", .running), ("list", .running), ("watch", .running),
              ("root", .running)],
            [("list", .idle), ("coin", .idle), ("hold", .idle), ("watch", .failure),
              ("root", .failure)],
            [("coin", .success), ("hold", .running), ("list", .running), ("watch", .running),
              ("root", .running)]] ∧
        (e.performAll {} calls).executor.statusAt t "hold" = .ok .running := by
  intro node g b calls
  have runs : (b.build g ⟨.empty, .empty⟩).toOption.map (fun t =>
      let o := (Executor.new t {} 0 : Executor Number).performAll {} calls
      (o.reports.map (·.statuses), o.executor.status "hold")) = some
        ([[("coin", .success), ("hold", .running), ("list", .running), ("watch", .running),
              ("root", .running)],
            [("list", .idle), ("coin", .idle), ("hold", .idle), ("watch", .failure),
              ("root", .failure)],
            [("coin", .success), ("hold", .running), ("list", .running), ("watch", .running),
              ("root", .running)]], .running) := by
    decide +kernel
  cases built : b.build g ⟨.empty, .empty⟩ with
  | error e => rw [built] at runs; cases runs
  | ok t =>
    simp only [built, Except.toOption, Option.map_some, Option.some.injEq, Prod.mk.injEq] at runs
    obtain ⟨reports, status⟩ := runs
    obtain ⟨inRange, -, found⟩ := (build_runs_in_range (T := Number) built).1 {} 0 {} calls
    exact ⟨t, rfl, inRange, reports, (found "hold").trans (congrArg Except.ok status)⟩

end TreeBuilder

end BehaviorTree
