import BehaviorTree.Proofs.Execution.Images

/-!
# De Morgan's law

A selector may be replaced by an inverter above a sequence above an inverter of each child
(`SelectorDual`). The sequence resumes where the selector does, and the statuses below the outer
inverter are those of the selector and its children inverted. So the new tree is an image of the old
one (`SelectorDual.image_live`), and no run tells the two apart by the nodes that they have in
common, nor by logs, outputs, changes of type and the blackboard (`selector_dual`).
-/

namespace BehaviorTree

variable {T : Type} [Clock T] {ids : List String}

/-! ## The dual of a selector -/

namespace Status

/-- The status that an inverter makes of that of its child. -/
def inverted : Status → Status
  | .success => .failure
  | .failure => .success
  | other => other

theorem turns_inverted : Turns inverted .selector .sequence :=
  ⟨fun {status} => by cases status <;> decide, fun {status} => by cases status <;> decide, rfl⟩

end Status

/-- Nodes that together stand for a selector: an inverter in its place, below it a sequence, and
below this an inverter for each child. Those below have new ids. -/
structure SelectorDual (n : CompiledNode) (ids : List String) where
  outer : CompiledNode
  sequence : CompiledNode
  /-- The inverter above the child at a place. -/
  inner : Nat → CompiledNode
  outer_id : outer.id = n.id
  outer_inverts : outer.behavior = .decorator .inverter
  sequence_is : sequence.behavior = .composite .sequence
  sequence_new : sequence.id ∉ ids
  inner_inverts : ∀ i, (inner i).behavior = .decorator .inverter
  inner_new : ∀ i, (inner i).id ∉ ids

/-- The dual whose nodes have the given ids. -/
def SelectorDual.named (n : CompiledNode) (all : String) (not : Nat → String) (all_new : all ∉ ids)
    (not_new : ∀ i, not i ∉ ids) : SelectorDual n ids where
  outer := { n with behavior := .decorator .inverter }
  sequence := { n with id := all, behavior := .composite .sequence }
  inner i := { n with id := not i, behavior := .decorator .inverter }
  outer_id := rfl
  outer_inverts := rfl
  sequence_is := rfl
  sequence_new := all_new
  inner_inverts _ := rfl
  inner_new := not_new

theorem evaluate_inverter {n : CompiledNode} (is : n.behavior = .decorator .inverter)
    (time : TickTime T) (state : NodeState T) (child : LiveTree T) (w : World) :
    evaluate time (.node ⟨n, state⟩ [child]) w =
      finish n state (evaluate time child w).1.status.inverted [(evaluate time child w).1]
        (evaluate time child w).2 := by
  have leave (status : Status) : leaveDecorator time .inverter 0 state status =
      (status.inverted, state) := by
    cases status <;> rfl
  rw [evaluate.eq_def]
  simp only [is, enterDecorator, leave]

theorem evaluate_composite {n : CompiledNode} {kind : CompositeKind}
    (is : n.behavior = .composite kind) (time : TickTime T) (state : NodeState T)
    (children : List (LiveTree T)) (w : World) :
    evaluate time (.node ⟨n, state⟩ children) w =
      let did := evaluateFrom time kind state.cursor 0 children w
      finish n { state with cursor := did.2.1 } did.1 did.2.2.1 did.2.2.2 := by
  rw [evaluate.eq_def]
  simp only [is]

namespace SelectorDual

variable {n : CompiledNode} {children : List (Tree CompiledNode)}

/-- The dual of a tree with a selector at its root. -/
def compiled (d : SelectorDual n ids) : Tree CompiledNode → Tree CompiledNode
  | .node _ children =>
    .node d.outer [.node d.sequence (children.mapIdx fun i c => .node (d.inner i) [c])]

/-- The inverter above a child. -/
def invert (d : SelectorDual n ids) (i : Nat) (child : LiveTree T) : LiveTree T :=
  .node ⟨d.inner i, { NodeState.initial with status := child.status.inverted }⟩ [child]

/-- The dual of a live tree with a selector at its root: the sequence resumes where the
selector does. -/
def live (d : SelectorDual n ids) : LiveTree T → LiveTree T
  | .node ⟨_, state⟩ children =>
    .node ⟨d.outer, { state with cursor := 0 }⟩
      [.node ⟨d.sequence, { state with status := state.status.inverted }⟩
        (children.mapIdx d.invert)]

theorem live_ofCompiled (d : SelectorDual n ids) (t : Tree CompiledNode) :
    (LiveTree.ofCompiled (d.compiled t) : LiveTree T) = d.live (.ofCompiled t) := by
  obtain ⟨m, children⟩ := t
  have inverters : Tree.maps (fun n => (⟨n, .initial⟩ : LiveNode T))
      (children.mapIdx fun i c => .node (d.inner i) [c]) =
      (Tree.maps (fun n => ⟨n, .initial⟩) children).mapIdx d.invert := by
    refine List.ext_getElem? fun i => ?_
    simp only [Tree.maps_eq_map, List.getElem?_map, List.getElem?_mapIdx, Option.map_map]
    refine congrArg (Option.map · _) (funext fun c => ?_)
    cases c
    rfl
  show Tree.node _ [.node _ _] = Tree.node _ [.node _ _]
  rw [inverters]
  rfl

/-- An inverter above a child inverts its status. -/
theorem image_invert (d : SelectorDual n ids) (i : Nat) {c : Tree CompiledNode}
    (image : Image ids id c (id : LiveTree T → LiveTree T)) :
    Image ids Status.inverted c (d.invert i : LiveTree T → LiveTree T) where
  status _ := rfl
  reset {live} same := by
    have idle : live.reset.status = .idle := by
      cases live
      rfl
    rw [invert, invert, idle, reset_node]
    rfl
  shown {live} same := by
    have shown : (d.invert i live).statuses =
        (d.inner i |>.id, live.status.inverted) :: live.statuses := by
      simp [invert, LiveTree.statuses, Tree.preorder, Tree.preorders]
    rw [shown, among_cons_new (d.inner_new i)]
    exact image.shown same
  evaluate {live} same time w w' more := by
    obtain ⟨after, more⟩ := image.evaluate same time more
    rw [invert, evaluate_inverter (d.inner_inverts i)]
    rw [show id live = live from rfl] at after more
    rw [after]
    exact ⟨rfl, more.visit_new (d.inner_new i)⟩

/-- The dual of a tree with a selector at its root is an image of the tree. -/
theorem image_live (d : SelectorDual n ids) (is : n.behavior = .composite .selector)
    (mem : n.id ∈ ids) (self : ∀ c ∈ children, Image ids id c (id : LiveTree T → LiveTree T)) :
    Image ids id (.node n children) (d.live : LiveTree T → LiveTree T) := by
  have inverted (i : Nat) (c : Tree CompiledNode) (at_ : children[i]? = some c) :
      Image ids Status.inverted c (d.invert i : LiveTree T → LiveTree T) :=
    d.image_invert i (self c (List.mem_of_getElem? at_))
  refine ⟨fun same => ?_, fun same => ?_, fun same => ?_, fun same time w w' more => ?_⟩
  all_goals obtain ⟨state, trees, rfl, images⟩ := Images.of_compiled inverted same
  · rfl
  · simp only [live, reset_node, List.map_cons, List.map_nil, reset_mapIdx images]
    rfl
  · have shown := shown_mapIdx images
    simp only [live, LiveTree.statuses, Tree.preorder, Tree.preorders, List.append_nil,
      List.map_cons, d.outer_id]
    rw [among_cons mem, among_cons_new d.sequence_new, shown]
  · obtain ⟨status, next, after, more⟩ :=
      evaluateFrom_mapIdx Status.turns_inverted images more time state.cursor 0
    have twice (status : Status) : status.inverted.inverted = status := by cases status <;> rfl
    rw [live, evaluate_inverter d.outer_inverts, evaluate_composite d.sequence_is,
      evaluate_composite is]
    dsimp only
    rw [status, next, after]
    refine ⟨?_, ?_⟩
    · simp only [finish, LiveTree.status, Tree.label, twice]
      rfl
    · simp only [finish, LiveTree.status, Tree.label, twice, d.outer_id]
      exact (more.visit_new d.sequence_new).visit mem

/-- The tree with the dual of the selector at a path in its place. -/
def replace (d : SelectorDual n ids) (path : List Nat) (t : CompiledTree) : CompiledTree :=
  { t with root := t.root.modifyAt d.compiled path }

end SelectorDual

/-! ## De Morgan's law -/

/-- In every run, a tree and the one with the dual of a selector in its place report the same
statuses of the nodes of the tree, tick by tick and in the same order, where the outer inverter
stands for the selector, and the same of all else. They leave these nodes with the same statuses,
and the same executors and blackboards besides. -/
theorem selector_dual {t : CompiledTree} {path : List Nat} {n : CompiledNode}
    {children : List (Tree CompiledNode)} (at_ : t.root.at? path = some (.node n children))
    (is : n.behavior = .composite .selector) (d : SelectorDual n t.ids) (config : ExecutorConfig)
    (entropy : Nat) (s : SharedBlackboard) (calls : List (Executor.Call T)) :
    let run := (Executor.new t config entropy : Executor T).performAll s calls
    let run' := (Executor.new (d.replace path t) config entropy : Executor T).performAll s calls
    List.Forall₂ (fun r r' => among t.ids r'.statuses = r.statuses ∧
        r' = { r with statuses := r'.statuses }) run.reports run'.reports ∧
      among t.ids run'.executor.statuses = run.executor.statuses ∧
      run'.executor = { run.executor with tree := run'.executor.tree } ∧
      run'.shared = run.shared := by
  intro run run'
  have mem (s : Tree CompiledNode) (inside : s ∈ t.root.subtrees) : s.label.id ∈ t.ids := by
    rw [CompiledTree.ids, CompiledTree.nodes, ← Tree.map_label_subtrees, List.map_map]
    exact List.mem_map_of_mem inside
  have below := Tree.mem_subtrees_of_at? at_
  have image : Image t.ids id t.root (Tree.modifyAt d.live path : LiveTree T → LiveTree T) :=
    .modifyAt mem at_ (d.image_live is (mem _ below) fun c child => .self fun s inside =>
      mem s (Tree.mem_subtrees_trans below (Tree.mem_subtrees_of_child child inside)))
  have begins : (LiveTree.ofCompiled (d.replace path t).root : LiveTree T) =
      Tree.modifyAt d.live path (LiveTree.ofCompiled t.root) :=
    Tree.map_modifyAt d.live_ofCompiled path t.root
  have twins : (Executor.new t config entropy : Executor T).Twins
      (fun live live' => live.compiled = t.root ∧ live' = Tree.modifyAt d.live path live)
      (Executor.new (d.replace path t) config entropy) :=
    ⟨_, .some ⟨LiveTree.compiled_ofCompiled t.root, rfl⟩, by rw [← begins]; rfl⟩
  obtain ⟨reports, executor, shared⟩ := image.lockstep.performAll twins s calls
  refine ⟨reports.imp ?_, ?_, ?_, shared⟩
  · rintro r - ⟨statuses, shown, rfl⟩
    exact ⟨shown, rfl⟩
  · rw [Executor.statuses, Executor.statuses]
    rcases executor.tree_cases with ⟨dead, dead'⟩ | ⟨live, live', alive, alive', same, rfl⟩
    · rw [dead, dead']
      rfl
    · rw [alive, alive']
      exact image.shown same
  · obtain ⟨tree', -, eq⟩ := executor
    rw [eq]

/-- A selector that comes to its second child, which takes two ticks. -/
def choosing : CompiledNode where
  id := "choose"
  typeId := "selector"
  kind := .composite
  config := .empty
  bindings := .empty
  behavior := .composite .selector

def choosingTree : CompiledTree :=
  let root : CompiledNode := { choosing with id := "root", kind := .root, behavior := .root }
  let leaf (id : String) (h : Handler) : Tree CompiledNode :=
    .node { choosing with
      id := id, kind := .action, config := .ofList [("duration", .number 2)],
      behavior := .handler h } []
  ⟨.node root [.node choosing [leaf "refuse" (.static "fail" .failure), leaf "wait" .wait]], []⟩

def choosingDual : SelectorDual choosing choosingTree.ids :=
  .named choosing "all" (fun i => if i = 0 then "not refuse" else "not wait") (by decide)
    fun i => by split <;> decide

/-- A selector that resumes at its second child and succeeds with it in the next tick. The dual
reports the same of the nodes of the tree, and its own nodes in between. -/
theorem selector_dual_choosing :
    let calls : List (Executor.Call Number) := [.start, .tick 1, .tick 1, .stop]
    let run := (Executor.new choosingTree {} 0).performAll {} calls
    let run' := (Executor.new (choosingDual.replace [0] choosingTree) {} 0).performAll {} calls
    run.reports.map (·.statuses) =
        [[("refuse", .failure), ("wait", .running), ("choose", .running), ("root", .running)],
          [("wait", .success), ("choose", .success), ("root", .success)]] ∧
      run'.reports.map (·.statuses) =
        [[("refuse", .failure), ("not refuse", .success), ("wait", .running),
            ("not wait", .running), ("all", .running), ("choose", .running), ("root", .running)],
          [("wait", .success), ("not wait", .failure), ("all", .failure), ("choose", .success),
            ("root", .success)]] ∧
      List.Forall₂ (fun r r' => among choosingTree.ids r'.statuses = r.statuses ∧
        r' = { r with statuses := r'.statuses }) run.reports run'.reports ∧
      run'.shared = run.shared := by
  intro calls run run'
  have at_ : choosingTree.root.at? [0] = some _ := rfl
  obtain ⟨reports, -, -, shared⟩ := selector_dual at_ rfl choosingDual {} 0 {} calls
  exact ⟨by decide +kernel, by decide +kernel, reports, shared⟩

end BehaviorTree
