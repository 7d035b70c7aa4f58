import BehaviorTree.Proofs.Execution.Lockstep
import BehaviorTree.Proofs.Execution.Notes
import BehaviorTree.Proofs.Execution.Visits

/-!
# Images of trees

The image of a tree has nodes of its own besides those of the tree, of which evaluation takes no
notice: evaluating the image leads to the image of what evaluating the tree leads to, and changes
the world in the same way, up to what is listed of the nodes of its own (`Image`). An image of a
subtree makes one of the whole tree (`Image.modifyAt`), and a tree and its image are in lockstep
(`Image.lockstep`).
-/

namespace BehaviorTree

variable {T : Type} {ids : List String}

/-- What is reported of nodes with certain ids. -/
def among (ids : List String) (statuses : List (String × Status)) : List (String × Status) :=
  statuses.filter fun e => e.1 ∈ ids

section Among

variable {id : String}

@[simp]
theorem among_append (statuses more : List (String × Status)) :
    among ids (statuses ++ more) = among ids statuses ++ among ids more :=
  List.filter_append ..

theorem among_cons (mem : id ∈ ids) (status : Status) (statuses : List (String × Status)) :
    among ids ((id, status) :: statuses) = (id, status) :: among ids statuses :=
  List.filter_cons_of_pos (decide_eq_true mem)

theorem among_cons_new (new : id ∉ ids) (status : Status) (statuses : List (String × Status)) :
    among ids ((id, status) :: statuses) = among ids statuses :=
  List.filter_cons_of_neg (by simpa using new)

end Among

/-! ## Worlds that list more -/

/-- Two worlds that are the same but for the nodes that they list. The second one may list nodes
with other ids between those that the first one lists. -/
def World.ListsMore (ids : List String) (w w' : World) : Prop :=
  ∃ visited, w' = { w with visited := visited } ∧ among ids visited = w.visited

namespace World.ListsMore

variable {id : String} {w w' : World} {status : Status}

theorem visit (more : ListsMore ids w w') (mem : id ∈ ids) :
    ListsMore ids (w.visit id status) (w'.visit id status) := by
  obtain ⟨visited, rfl, eq⟩ := more
  exact ⟨_, rfl, by rw [among_append, eq, among_cons mem]; rfl⟩

theorem visit_new (more : ListsMore ids w w') (new : id ∉ ids) :
    ListsMore ids w (w'.visit id status) := by
  obtain ⟨visited, rfl, eq⟩ := more
  exact ⟨_, rfl, by rw [among_append, eq, among_cons_new new]; exact List.append_nil _⟩

theorem bare (more : ListsMore ids w w') : w'.bare = w.bare := by
  obtain ⟨visited, rfl, -⟩ := more
  rfl

/-- Both worlds may get the same new notes, if these list no nodes. -/
theorem noting (more : ListsMore ids w w') {added : World} (unlisted : added.visited = []) :
    ListsMore ids (added.noting w.notes) (added.noting w'.notes) := by
  obtain ⟨visited, rfl, eq⟩ := more
  refine ⟨visited ++ added.visited, rfl, ?_⟩
  have both : (added.noting w.notes).visited = w.visited ++ added.visited := rfl
  rw [both, among_append, eq, unlisted]
  rfl

/-- A condition does not look at what is listed. -/
theorem condition (more : ListsMore ids w w') (tick : Nat) (n : CompiledNode) :
    (evaluateCondition tick n w').1 = (evaluateCondition tick n w).1 ∧
      ListsMore ids (evaluateCondition tick n w).2 (evaluateCondition tick n w').2 := by
  have unlisted := visited_evaluateCondition tick n w.bare
  rw [evaluateCondition_eq_bare w tick n, evaluateCondition_eq_bare w' tick n, more.bare]
  exact ⟨rfl, more.noting unlisted⟩

/-- Neither does a handler. -/
theorem leaf [Clock T] (more : ListsMore ids w w') (time : TickTime T) (n : CompiledNode)
    (h : Handler) (state : NodeState T) :
    (evaluateLeaf time n h state w').1 = (evaluateLeaf time n h state w).1 ∧
      ListsMore ids (evaluateLeaf time n h state w).2 (evaluateLeaf time n h state w').2 := by
  have unlisted := visited_evaluateLeaf time n h state w.bare
  rw [evaluateLeaf_eq_bare w time n h state, evaluateLeaf_eq_bare w' time n h state, more.bare]
  exact ⟨rfl, more.noting unlisted⟩

end World.ListsMore

/-! ## Images of trees -/

section Images

variable [Clock T]

/-- A function on the live trees of one compiled tree, of which evaluation takes no notice. The
status of the image is a function of that of the tree. -/
structure Image (ids : List String) (turn : Status → Status) (t : Tree CompiledNode)
    (f : LiveTree T → LiveTree T) : Prop where
  status : ∀ {live}, live.compiled = t → (f live).status = turn live.status
  reset : ∀ {live}, live.compiled = t → (f live).reset = f live.reset
  shown : ∀ {live}, live.compiled = t → among ids (f live).statuses = live.statuses
  evaluate : ∀ {live}, live.compiled = t → ∀ time {w w'}, World.ListsMore ids w w' →
    (evaluate time (f live) w').1 = f (evaluate time live w).1 ∧
      World.ListsMore ids (evaluate time live w).2 (evaluate time (f live) w').2

/-- Functions on the children that stand at places of a list. -/
def Images (ids : List String) (turn : Status → Status) (trees : List (LiveTree T))
    (f : Nat → LiveTree T → LiveTree T) : Prop :=
  ∀ i c, trees[i]? = some c → Image ids turn c.compiled (f i)

/-- How one kind of composite turns into another one if the statuses of its children are turned. -/
structure Turns (turn : Status → Status) (kind kind' : CompositeKind) : Prop where
  running : ∀ {status}, turn status = .running ↔ status = .running
  settles : ∀ {status}, turn status = kind'.settlesOn ↔ status = kind.settlesOn
  goesOnAfter : kind'.goesOnAfter = turn kind.goesOnAfter

variable {turn : Status → Status} {kind kind' : CompositeKind} {cursor place : Nat}
  {c : LiveTree T} {rest trees : List (LiveTree T)} {f : Nat → LiveTree T → LiveTree T}
  {w w' : World} {time : TickTime T}

theorem Images.head (images : Images ids turn (c :: rest) f) : Image ids turn c.compiled (f 0) :=
  images 0 c rfl

theorem Images.tail (images : Images ids turn (c :: rest) f) :
    Images ids turn rest fun i => f (i + 1) :=
  fun i c at_ => images (i + 1) c at_

/-- Evaluating the images of children gives the images, and the status turned. -/
theorem evaluateFrom_mapIdx (turns : Turns turn kind kind') (images : Images ids turn trees f)
    (more : World.ListsMore ids w w') (time : TickTime T) (cursor place : Nat) :
    let a := evaluateFrom time kind cursor place trees w
    let b := evaluateFrom time kind' cursor place (trees.mapIdx f) w'
    b.1 = turn a.1 ∧ b.2.1 = a.2.1 ∧ b.2.2.1 = a.2.2.1.mapIdx f ∧
      World.ListsMore ids a.2.2.2 b.2.2.2 := by
  induction trees generalizing f place w w' with
  | nil =>
    simp only [List.mapIdx_nil, evaluateFrom]
    exact ⟨turns.goesOnAfter, trivial, trivial, more⟩
  | cons c rest ih =>
    simp only [List.mapIdx_cons, evaluateFrom]
    by_cases before : place < cursor
    · simp only [if_pos before]
      obtain ⟨status, next, after, more⟩ := ih images.tail more (place + 1)
      exact ⟨status, next, by rw [after, List.mapIdx_cons], more⟩
    simp only [if_neg before]
    have here := images.head
    obtain ⟨after, more⟩ := here.evaluate rfl time more
    have status : (evaluate time (f 0 c) w').1.status = turn (evaluate time c w).1.status := by
      rw [after, here.status (compiled_evaluate time c w)]
    simp only [status, turns.running, turns.settles]
    split
    · rename_i runs
      exact ⟨(turns.running.2 rfl).symm, rfl, by rw [after, List.mapIdx_cons], more⟩
    split
    · exact ⟨(turns.settles.2 rfl).symm, rfl, by rw [after, List.mapIdx_cons], more⟩
    · obtain ⟨status, next, others, more⟩ := ih images.tail more (place + 1)
      exact ⟨status, next, by rw [after, others, List.mapIdx_cons], more⟩

theorem reset_mapIdx (images : Images ids turn trees f) :
    (trees.mapIdx f).map LiveTree.reset = (trees.map LiveTree.reset).mapIdx f := by
  induction trees generalizing f with
  | nil => rfl
  | cons c rest ih =>
    simp only [List.mapIdx_cons, List.map_cons, images.head.reset rfl, ih images.tail]

theorem shown_mapIdx (images : Images ids turn trees f) :
    among ids ((Tree.preorders (trees.mapIdx f)).map fun n => (n.node.id, n.state.status)) =
      (Tree.preorders trees).map fun n => (n.node.id, n.state.status) := by
  induction trees generalizing f with
  | nil => rfl
  | cons c rest ih =>
    have here : among ids (f 0 c).statuses = c.statuses := images.head.shown rfl
    rw [List.mapIdx_cons, Tree.preorders, Tree.preorders, List.map_append, List.map_append,
      among_append, ih images.tail]
    exact congrArg (· ++ _) here

/-- The image of a tree that is cut short. -/
theorem Image.abort {t : Tree CompiledNode} {f : LiveTree T → LiveTree T}
    (image : Image ids turn t f) {live : LiveTree T} (same : live.compiled = t)
    (more : World.ListsMore ids w w') :
    (w'.abort (f live)).1 = f (w.abort live).1 ∧
      World.ListsMore ids (w.abort live).2 (w'.abort (f live)).2 := by
  have idle (t : LiveTree T) : t.reset.statuses = t.preorder.map fun n => (n.node.id, .idle) := by
    rw [LiveTree.statuses, LiveTree.reset, Tree.preorder_map, List.map_map]
    rfl
  have shown : among ids (f live).reset.statuses = live.reset.statuses := by
    rw [image.reset same]
    exact image.shown ((LiveTree.compiled_reset live).trans same)
  rw [idle, idle] at shown
  obtain ⟨visited, rfl, eq⟩ := more
  refine ⟨image.reset same, _, rfl, ?_⟩
  rw [among_append, eq, shown]
  rfl

/-- A tree with a function applied to its children. -/
def onChildren (f : Nat → LiveTree T → LiveTree T) (t : LiveTree T) : LiveTree T :=
  .node t.label (t.children.mapIdx f)

omit [Clock T] in
theorem finish_onChildren {n : CompiledNode} (mem : n.id ∈ ids) (state : NodeState T)
    (status : Status) {trees' : List (LiveTree T)} (after : trees' = trees.mapIdx f)
    (more : World.ListsMore ids w w') :
    (finish n state status trees' w').1 = onChildren f (finish n state status trees w).1 ∧
      World.ListsMore ids (finish n state status trees w).2
        (finish n state status trees' w').2 := by
  rw [after]
  exact ⟨rfl, more.visit mem⟩

theorem enterDecorator_listsMore (more : World.ListsMore ids w w') (time : TickTime T)
    (kind : DecoratorKind) (n : CompiledNode) (state : NodeState T) :
    enterDecorator time kind n state w' = enterDecorator time kind n state w := by
  obtain ⟨visited, rfl, -⟩ := more
  rfl

theorem turns_id (kind : CompositeKind) : Turns id kind kind :=
  ⟨Iff.rfl, Iff.rfl, rfl⟩

/-- Evaluation takes no notice of a function on the children of a node, if it does not of the
function on each child. -/
theorem evaluate_onChildren {n : CompiledNode} (mem : n.id ∈ ids)
    (images : Images ids id trees f) (more : World.ListsMore ids w w') (time : TickTime T)
    (state : NodeState T) :
    (evaluate time (onChildren f (.node ⟨n, state⟩ trees)) w').1 =
        onChildren f (evaluate time (.node ⟨n, state⟩ trees) w).1 ∧
      World.ListsMore ids (evaluate time (.node ⟨n, state⟩ trees) w).2
        (evaluate time (onChildren f (.node ⟨n, state⟩ trees)) w').2 := by
  show (evaluate time (.node ⟨n, state⟩ (trees.mapIdx f)) w').1 = _ ∧ World.ListsMore ids _
    (evaluate time (.node ⟨n, state⟩ (trees.mapIdx f)) w').2
  rw [evaluate.eq_def time (.node ⟨n, state⟩ (trees.mapIdx f)),
    evaluate.eq_def time (.node ⟨n, state⟩ trees)]
  cases is : n.behavior with
  | composite kind =>
    obtain ⟨status, next, after, more⟩ :=
      evaluateFrom_mapIdx (turns_id kind) images more time state.cursor 0
    simp only [is, status, next]
    exact finish_onChildren mem _ _ after more
  | condition =>
    obtain ⟨status, more⟩ := more.condition time.tick n
    simp only [is, status]
    exact finish_onChildren mem _ _ rfl more
  | handler h =>
    obtain ⟨status, more⟩ := more.leaf time n h state
    simp only [is, status]
    exact finish_onChildren mem _ _ rfl more
  | root =>
    cases trees with
    | nil =>
      simp only [is, List.mapIdx_nil]
      exact finish_onChildren mem _ _ rfl more
    | cons c rest =>
      obtain ⟨after, more⟩ := images.head.evaluate rfl time more
      have status := images.head.status (compiled_evaluate time c w)
      simp only [is, List.mapIdx_cons, after, status]
      exact finish_onChildren mem _ _ List.mapIdx_cons.symm more
  | decorator kind =>
    cases trees with
    | nil =>
      simp only [is, List.mapIdx_nil]
      exact finish_onChildren mem _ _ rfl more
    | cons c rest =>
      have entry := enterDecorator_listsMore more time kind n state
      simp only [is, List.mapIdx_cons, entry]
      cases enterDecorator time kind n state w with
      | refuse => exact finish_onChildren mem _ _ List.mapIdx_cons.symm more
      | cutShort state' =>
        obtain ⟨after, more⟩ := images.head.abort rfl more
        simp only [after]
        exact finish_onChildren mem _ _ List.mapIdx_cons.symm more
      | proceed state' limit =>
        obtain ⟨after, more⟩ := images.head.evaluate rfl time more
        have status := images.head.status (compiled_evaluate time c w)
        simp only [after, status]
        exact finish_onChildren mem _ _ List.mapIdx_cons.symm more

theorem reset_node (label : LiveNode T) (trees : List (LiveTree T)) :
    LiveTree.reset (.node label trees) =
      .node ⟨label.node, .initial⟩ (trees.map LiveTree.reset) :=
  congrArg _ (Tree.maps_eq_map ..)

/-- A live tree has the images that the trees compiled below it have. -/
theorem Images.of_compiled {n : CompiledNode} {children : List (Tree CompiledNode)}
    (images : ∀ i c, children[i]? = some c → Image ids turn c (f i)) {live : LiveTree T}
    (same : live.compiled = .node n children) :
    ∃ state trees, live = .node ⟨n, state⟩ trees ∧ Images ids turn trees f := by
  obtain ⟨⟨m, state⟩, trees⟩ := live
  have below : children = trees.map LiveTree.compiled := by
    rw [← show Tree.children (.node n children) = children from rfl, ← same]
    exact LiveTree.children_compiled _
  cases congrArg Tree.label same
  refine ⟨state, trees, rfl, fun i c at_ => images i _ ?_⟩
  rw [below, List.getElem?_map, at_]
  rfl

/-- Images of the children make an image of their parent. -/
theorem Image.node {n : CompiledNode} {children : List (Tree CompiledNode)} (mem : n.id ∈ ids)
    (images : ∀ i c, children[i]? = some c → Image ids id c (f i)) :
    Image ids id (.node n children) (onChildren f) := by
  refine ⟨fun _ => rfl, fun same => ?_, fun same => ?_, fun same time _ _ more => ?_⟩
  all_goals obtain ⟨state, trees, rfl, images⟩ := Images.of_compiled images same
  · simp only [onChildren, Tree.label, Tree.children, reset_node, reset_mapIdx images]
  · exact (among_cons mem _ _).trans (congrArg _ (shown_mapIdx images))
  · exact evaluate_onChildren mem images more time state

/-- A tree is an image of itself. -/
theorem Image.self {t : Tree CompiledNode} (mem : ∀ s ∈ t.subtrees, s.label.id ∈ ids) :
    Image ids id t (id : LiveTree T → LiveTree T) := by
  induction t using Tree.induction with
  | step n children ih =>
    have below (i : Nat) (c : Tree CompiledNode) (at_ : children[i]? = some c) :
        Image ids id c (id : LiveTree T → LiveTree T) := by
      have child := List.mem_of_getElem? at_
      exact ih c child fun s inside => mem s (Tree.mem_subtrees_of_child child inside)
    have same : (onChildren fun _ => id : LiveTree T → LiveTree T) = id := by
      funext t
      cases t
      simp [onChildren, Tree.label, Tree.children, List.mapIdx_eq_iff]
    rw [← same]
    exact .node (mem _ (Tree.mem_subtrees_self _)) below

end Images

/-! ## Changing a subtree -/

/-- The tree with a function applied to the subtree at a path. -/
def Tree.modifyAt {α : Type} (f : Tree α → Tree α) : List Nat → Tree α → Tree α
  | [], t => f t
  | i :: path, .node label children => .node label (children.modify i (modifyAt f path))

theorem modify_eq_mapIdx {α : Type} (f : α → α) (i : Nat) (xs : List α) :
    xs.modify i f = xs.mapIdx fun j => if j = i then f else id := by
  refine List.ext_getElem? fun j => ?_
  rw [List.getElem?_modify, List.getElem?_mapIdx]
  refine congrArg (Option.map · _) (funext fun x => ?_)
  by_cases here : i = j
  · rw [if_pos here, if_pos here.symm]
  · rw [if_neg here, if_neg (Ne.symm here)]
    rfl

theorem map_modify {α β : Type} {f : α → α} {f' : β → β} {g : α → β}
    (commutes : ∀ x, g (f x) = f' (g x)) (i : Nat) (xs : List α) :
    (xs.modify i f).map g = (xs.map g).modify i f' := by
  induction xs generalizing i with
  | nil => cases i <;> rfl
  | cons x xs ih =>
    cases i with
    | zero => simp only [List.modify_zero_cons, List.map_cons, commutes]
    | succ i => simp only [List.modify_succ_cons, List.map_cons, ih]

theorem Tree.map_modifyAt {α β : Type} {f : Tree α → Tree α} {f' : Tree β → Tree β} {g : α → β}
    (commutes : ∀ t, (f t).map g = f' (t.map g)) (path : List Nat) (t : Tree α) :
    (modifyAt f path t).map g = modifyAt f' path (t.map g) := by
  induction path generalizing t with
  | nil => exact commutes t
  | cons i path ih =>
    obtain ⟨label, children⟩ := t
    simp only [modifyAt, Tree.map, Tree.maps_eq_map, BehaviorTree.map_modify ih]

variable [Clock T]

/-- An image of a subtree makes an image of the tree. -/
theorem Image.modifyAt {t s : Tree CompiledNode} {path : List Nat} {f : LiveTree T → LiveTree T}
    (mem : ∀ s ∈ t.subtrees, s.label.id ∈ ids) (at_ : t.at? path = some s)
    (image : Image ids id s f) : Image ids id t (Tree.modifyAt f path) := by
  induction path generalizing t with
  | nil =>
    obtain rfl := Option.some.inj at_
    exact image
  | cons i path ih =>
    obtain ⟨n, children⟩ := t
    obtain ⟨c, at_i, at'⟩ := Tree.at?_cons.1 at_
    have same : (Tree.modifyAt f (i :: path) : LiveTree T → LiveTree T) =
        onChildren fun j => if j = i then Tree.modifyAt f path else id := by
      funext t
      obtain ⟨label, children⟩ := t
      exact congrArg _ (modify_eq_mapIdx ..)
    rw [same]
    refine .node (mem _ (Tree.mem_subtrees_self _)) fun j c' at_j => ?_
    have below (s : Tree CompiledNode) (inside : s ∈ c'.subtrees) : s.label.id ∈ ids :=
      mem s (Tree.mem_subtrees_of_child (List.mem_of_getElem? at_j) inside)
    split
    · rename_i here
      subst here
      obtain rfl := Option.some.inj (at_i.symm.trans at_j)
      exact ih below at'
    · exact .self below

/-- A tree and its image are in lockstep, and the image reports more. -/
theorem Image.lockstep {t : Tree CompiledNode} {f : LiveTree T → LiveTree T}
    (image : Image ids id t f) :
    Lockstep (fun live live' => live.compiled = t ∧ live' = f live)
      (fun statuses statuses' => among ids statuses' = statuses) where
  reset := by
    rintro live - ⟨same, rfl⟩
    exact ⟨(LiveTree.compiled_reset live).trans same, image.reset same⟩
  evaluate := by
    rintro live - ⟨same, rfl⟩ time w fresh
    obtain ⟨after, visited, world, shown⟩ := image.evaluate same time
      (⟨[], by rw [← fresh], fresh.symm⟩ : World.ListsMore ids w w)
    exact ⟨visited, ⟨(compiled_evaluate time live w).trans same, after⟩, world, shown⟩

end BehaviorTree
