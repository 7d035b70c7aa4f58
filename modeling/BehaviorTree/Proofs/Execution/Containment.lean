import BehaviorTree.Proofs.Execution.Lockstep
import BehaviorTree.Proofs.Execution.Notes
import BehaviorTree.Proofs.Execution.Passes

/-!
# Errors are contained

A handler that gives an error, or idle, may be replaced by one that has the same effects and fails
(`Containment`). An evaluation takes no notice of it (`evaluate_live`): a fault clears nothing,
skips nothing and takes nothing back. All that a fault leaves is one log line
(`Containment.faults`).
-/

namespace BehaviorTree

/-! ## Interleaved lists -/

/-- A list consists of two others, each in its order. -/
inductive Interleaves {α : Type} : List α → List α → List α → Prop
  | nil : Interleaves [] [] []
  | left {a : α} {first second all : List α} (rest : Interleaves first second all) :
    Interleaves (a :: first) second (a :: all)
  | right {a : α} {first second all : List α} (rest : Interleaves first second all) :
    Interleaves first (a :: second) (a :: all)

namespace Interleaves

variable {α : Type} {first second all first' second' all' : List α}

theorem append (before : Interleaves first second all) (after : Interleaves first' second' all') :
    Interleaves (first ++ first') (second ++ second') (all ++ all') := by
  induction before with
  | nil => exact after
  | left rest ih => exact .left ih
  | right rest ih => exact .right ih

theorem only_first (first : List α) : Interleaves first [] first := by
  induction first with
  | nil => exact .nil
  | cons a first ih => exact .left ih

theorem only_second (second : List α) : Interleaves [] second second := by
  induction second with
  | nil => exact .nil
  | cons a second ih => exact .right ih

theorem append_first (before : Interleaves first second all) (more : List α) :
    Interleaves (first ++ more) second (all ++ more) :=
  List.append_nil second ▸ before.append (.only_first more)

theorem append_second (before : Interleaves first second all) (more : List α) :
    Interleaves first (second ++ more) (all ++ more) :=
  List.append_nil first ▸ before.append (.only_second more)

end Interleaves

/-! ## Handlers -/

/-- A result with failure in place of an error and of idle. -/
def containedResult : Except NodeError Status → Except NodeError Status
  | .error _ | .ok .idle => .ok .failure
  | other => other

/-- One handler has the effects of another one and fails where the other gives an error or idle. -/
def Handler.Contains (h' h : Handler) : Prop :=
  ∀ context state, h'.run context state =
    (containedResult (h.run context state).1, (h.run context state).2)

/-- Every handler can be contained. -/
def Handler.contained (h : Handler) : Handler where
  nodeType := h.nodeType
  tick context state := (containedResult (h.run context state).1, (h.run context state).2)

theorem Handler.contained_contains (h : Handler) : h.contained.Contains h := fun _ _ => rfl

variable {T : Type} [Clock T]

/-- What the handler of a leaf gives and does. -/
def runLeaf (time : TickTime T) (n : CompiledNode) (h : Handler) (state : NodeState T)
    (w : World) : Except NodeError Status × HandlerState :=
  let runningTime := if state.running then Clock.add state.runningTime time.delta else time.delta
  h.run
    { node := n.toNodeInfo, outputs := w.outputs, deltaTime := Clock.toNumber time.delta,
      runningTime := Clock.toNumber runningTime,
      hasRunFor := fun duration => Clock.reaches runningTime (Clock.ofNumber duration),
      tick := time.tick }
    ⟨w.board, w.random, state.memory, none, [], []⟩

/-- The log line of a leaf of which the handler gives an error, or idle. -/
def fault? (time : TickTime T) (n : CompiledNode) (h : Handler) (state : NodeState T)
    (w : World) : Option LogLine :=
  match settleResult h n.id (runLeaf time n h state w).1 with
  | .ok _ => none
  | .error e => some ⟨time.tick, n.id, .error, e.message⟩

/-- The status of a leaf for what it makes of the result of its handler. -/
def statusOf : Except NodeError Status → Status
  | .ok status => status
  | .error _ => .failure

/-- Containment does not change what a leaf makes of a result. -/
theorem settleResult_contained (h h' : Handler) (id : String) (result : Except NodeError Status) :
    settleResult h' id (containedResult result) = .ok (statusOf (settleResult h id result)) := by
  cases result with
  | error e => rfl
  | ok status => cases status <;> rfl

/-- A leaf has the status that its handler gives and what this did, and a line for a fault. -/
theorem evaluateLeaf_eq (time : TickTime T) (n : CompiledNode) (h : Handler) (state : NodeState T)
    (w : World) :
    let ran := runLeaf time n h state w
    let after := w.afterHandler time.tick n.id ran.2
    let status := statusOf (settleResult h n.id ran.1)
    evaluateLeaf time n h state w =
      ({ state with
          status := status,
          runningTime := if state.running then Clock.add state.runningTime time.delta
            else time.delta,
          running := status == .running, memory := ran.2.memory },
        { after with logs := after.logs ++ (fault? time n h state w).toList }) := by
  intro ran after status
  -- For any result, so that the cases are not hidden behind what runs the handler.
  have settles (result : Except NodeError Status) :
      (match result with
        | .ok status => (status, after)
        | .error e => (.failure, after.logError time.tick n.id e)) =
      (statusOf result,
        { after with logs := after.logs ++ (match result with
          | .ok _ => none
          | .error e => some (LogLine.mk time.tick n.id .error e.message)).toList }) := by
    cases result with
    | ok status =>
      exact congrArg (fun logs => (status, { after with logs := logs }))
        (List.append_nil after.logs).symm
    | error e => rfl
  exact congrArg (fun left : Status × World =>
    ({ state with
        status := left.1,
        runningTime := if state.running then Clock.add state.runningTime time.delta
          else time.delta,
        running := left.1 == Status.running, memory := ran.2.memory }, left.2))
    (settles (settleResult h n.id ran.1))

/-! ## Worlds that differ in log lines -/

/-- Two worlds that are the same but for log lines: the first one has those of the second one and in
between the given ones. -/
def World.Quieter (faults : List LogLine) (w w' : World) : Prop :=
  ∃ logs, w' = { w with logs := logs } ∧ Interleaves faults logs w.logs

namespace World.Quieter

variable {faults : List LogLine} {w w' : World}

theorem visit (quieter : Quieter faults w w') (id : String) (status : Status) :
    Quieter faults (w.visit id status) (w'.visit id status) := by
  obtain ⟨logs, rfl, lines⟩ := quieter
  exact ⟨logs, rfl, lines⟩

theorem abort (quieter : Quieter faults w w') {t t' : LiveTree T}
    (same : t'.preorder.map (·.node.id) = t.preorder.map (·.node.id)) :
    Quieter faults (w.abort t).2 (w'.abort t').2 := by
  have idle (t : LiveTree T) : t.preorder.map (fun n => (n.node.id, Status.idle)) =
      (t.preorder.map (·.node.id)).map (·, .idle) := by
    rw [List.map_map]
    rfl
  obtain ⟨logs, rfl, lines⟩ := quieter
  refine ⟨logs, ?_, lines⟩
  simp only [World.abort, idle, same]

/-- The lines that both of two worlds get, and a fault that only the first one gets. -/
theorem write (quieter : Quieter faults w w') (lines : List LogLine) (fault : Option LogLine)
    {w₁ w₁' : World} (same : w₁' = { w₁ with logs := w₁'.logs })
    (first : w₁.logs = w.logs ++ lines ++ fault.toList) (second : w₁'.logs = w'.logs ++ lines) :
    Quieter (faults ++ fault.toList) w₁ w₁' := by
  obtain ⟨logs, rfl, before⟩ := quieter
  refine ⟨_, same, ?_⟩
  rw [first, second]
  exact (before.append_second lines).append_first fault.toList

theorem bare (quieter : Quieter faults w w') : w'.bare = w.bare := by
  obtain ⟨logs, rfl, -⟩ := quieter
  rfl

/-- Both worlds may get the same new notes. -/
theorem noting (quieter : Quieter faults w w') (added : World) :
    Quieter faults (added.noting w.notes) (added.noting w'.notes) := by
  obtain ⟨logs, rfl, lines⟩ := quieter
  exact ⟨logs ++ added.logs, rfl, lines.append_second added.logs⟩

/-- A condition does not look at the log. -/
theorem condition (quieter : Quieter faults w w') (tick : Nat) (n : CompiledNode) :
    (evaluateCondition tick n w').1 = (evaluateCondition tick n w).1 ∧
      Quieter faults (evaluateCondition tick n w).2 (evaluateCondition tick n w').2 := by
  rw [evaluateCondition_eq_bare w tick n, evaluateCondition_eq_bare w' tick n, quieter.bare]
  exact ⟨rfl, quieter.noting _⟩

end World.Quieter

/-! ## Contained handlers -/

/-- Handlers in place of those of some nodes, by which these are contained. -/
structure Containment where
  instead : CompiledNode → Option Handler
  contains : ∀ {n h h'}, n.behavior = .handler h → instead n = some h' → h'.Contains h

namespace Containment

variable (c : Containment)

/-- A node with its handler contained. -/
def node (n : CompiledNode) : CompiledNode :=
  match n.behavior, c.instead n with
  | .handler _, some h' => { n with behavior := .handler h' }
  | _, _ => n

def live (t : LiveTree T) : LiveTree T := t.map fun n => ⟨c.node n.node, n.state⟩

def tree (t : CompiledTree) : CompiledTree := { t with root := t.root.map c.node }

/-- The log line of a fault that is contained, if the evaluation of a node gives one. -/
def fault? (time : TickTime T) (n : CompiledNode) (state : NodeState T) (w : World) :
    Option LogLine :=
  match n.behavior, c.instead n with
  | .handler h, some _ => BehaviorTree.fault? time n h state w
  | _, _ => none

/-- The log lines of the faults that are contained in an evaluation. -/
def faults (time : TickTime T) (t : LiveTree T) (trace : Trace) : List LogLine :=
  trace.filterMap fun e => match t.at? e.1, e.2 with
    | some s, .evaluated w _ => c.fault? time s.label.node s.label.state w
    | _, _ => none

omit [Clock T] in
@[simp]
theorem live_node (n : CompiledNode) (state : NodeState T) (children : List (LiveTree T)) :
    c.live (.node ⟨n, state⟩ children) = .node ⟨c.node n, state⟩ (children.map c.live) :=
  congrArg _ (Tree.maps_eq_map ..)

theorem id_node (n : CompiledNode) : (c.node n).id = n.id := by
  unfold node
  split <;> rfl

theorem node_of_ne {n : CompiledNode} (other : ∀ h, n.behavior ≠ .handler h) : c.node n = n := by
  unfold node
  split
  · rename_i h h' is _
    exact absurd is (other h)
  · rfl

variable {c} {t child : LiveTree T} {time : TickTime T} {place : Nat}

@[simp]
theorem faults_append (t : LiveTree T) (trace trace' : Trace) :
    c.faults time t (trace ++ trace') = c.faults time t trace ++ c.faults time t trace' :=
  List.filterMap_append

theorem faults_below (at_ : t.children[place]? = some child) (trace : Trace) :
    c.faults time t (trace.below place) = c.faults time child trace := by
  rw [faults, Trace.below, List.filterMap_map]
  refine List.filterMap_congr fun e _ => ?_
  simp [Tree.at?, at_]

/-- What is cut short has no faults. -/
theorem faults_cuts (t child : LiveTree T) :
    c.faults time t ((cuts child).below place) = [] := by
  rw [faults, List.filterMap_eq_nil_iff]
  intro e mem
  obtain ⟨e', mem', rfl⟩ := List.mem_map.1 mem
  obtain ⟨path, -, rfl⟩ := List.mem_map.1 mem'
  dsimp only
  split
  · rename_i cut
    cases cut
  · rfl

/-- The leaf itself. -/
theorem faults_self (n : CompiledNode) (state : NodeState T) (children : List (LiveTree T))
    (w : World) (status : Status) :
    c.faults time (.node ⟨n, state⟩ children) [([], .evaluated w status)] =
      (c.fault? time n state w).toList := by
  simp only [faults, Tree.at?, List.filterMap_cons, List.filterMap_nil, Tree.label]
  cases c.fault? time n state w <;> rfl

end Containment

section Evaluate

variable {c : Containment} {faults : List LogLine} {w w' : World} {time : TickTime T}
  {n : CompiledNode} {state : NodeState T}

/-- A leaf takes no notice of the containment of its handler. -/
theorem evaluateLeaf_contained {h h' : Handler} (contains : h'.Contains h)
    (quieter : World.Quieter faults w w') (time : TickTime T) (n : CompiledNode)
    (state : NodeState T) :
    let n' := { n with behavior := .handler h' }
    (evaluateLeaf time n' h' state w').1 = (evaluateLeaf time n h state w).1 ∧
      World.Quieter (faults ++ (fault? time n h state w).toList) (evaluateLeaf time n h state w).2
        (evaluateLeaf time n' h' state w').2 := by
  intro n'
  have ran : runLeaf time n' h' state w' = (containedResult (runLeaf time n h state w).1,
      (runLeaf time n h state w).2) := by
    obtain ⟨logs, rfl, -⟩ := quieter
    exact contains _ _
  have settled := settleResult_contained h h' n.id (runLeaf time n h state w).1
  have faultless : fault? time n' h' state w' = none := by
    rw [fault?, ran]
    dsimp only
    rw [settled]
  rw [evaluateLeaf_eq, evaluateLeaf_eq, faultless, ran]
  dsimp only
  rw [settled]
  refine ⟨rfl, quieter.write _ _ ?_ rfl (List.append_nil _)⟩
  obtain ⟨logs, rfl, -⟩ := quieter
  rfl

/-- Neither does a leaf of which the handler stays. -/
theorem evaluateLeaf_quieter (h : Handler) (quieter : World.Quieter faults w w')
    (time : TickTime T) (n : CompiledNode) (state : NodeState T) :
    (evaluateLeaf time n h state w').1 = (evaluateLeaf time n h state w).1 ∧
      World.Quieter faults (evaluateLeaf time n h state w).2
        (evaluateLeaf time n h state w').2 := by
  rw [evaluateLeaf_eq_bare w time n h state, evaluateLeaf_eq_bare w' time n h state, quieter.bare]
  exact ⟨rfl, quieter.noting _⟩

/-- Evaluating a tree with its handlers contained leads to what evaluating the tree leads to, up to
log lines: those of the faults are missing. -/
def Carries (c : Containment) (time : TickTime T) (t : LiveTree T) : Prop :=
  ∀ {faults w w'}, World.Quieter faults w w' →
    (evaluate time (c.live t) w').1 = c.live (evaluate time t w).1 ∧
      World.Quieter (faults ++ c.faults time t (visits time t w)) (evaluate time t w).2
        (evaluate time (c.live t) w').2

omit [Clock T] in
theorem Containment.status_live (t : LiveTree T) : (c.live t).status = t.status := by
  cases t
  rfl

theorem Containment.reset_live (t : LiveTree T) : (c.live t).reset = c.live t.reset := by
  rw [live, live, LiveTree.reset, LiveTree.reset, Tree.map_map, Tree.map_map]
  rfl

omit [Clock T] in
theorem Containment.ids_live (t : LiveTree T) :
    (c.live t).preorder.map (·.node.id) = t.preorder.map (·.node.id) := by
  rw [live, Tree.preorder_map, List.map_map]
  exact List.map_congr_left fun n _ => c.id_node n.node

variable {kind : CompositeKind} {cursor place next : Nat} {children children' : List (LiveTree T)}
  {w₁ : World} {status : Status} {trace : Trace} {t : LiveTree T}

theorem Proceeds.quieter (works : ∀ child ∈ children, Carries c time child)
    (stand : t.children.drop place = children) (quieter : World.Quieter faults w w')
    (did : Proceeds time kind cursor place children w status next children' w₁ trace) :
    ∃ w₁', evaluateFrom time kind cursor place (children.map c.live) w' =
        (status, next, children'.map c.live, w₁') ∧
      World.Quieter (faults ++ c.faults time t trace) w₁ w₁' := by
  induction did generalizing faults w' with
  | ended =>
    refine ⟨w', ?_, (List.append_nil faults).symm ▸ quieter⟩
    simp only [List.map_nil, evaluateFrom]
  | skipped before later ih =>
    obtain ⟨w₁', evaluated, quieter⟩ :=
      ih (List.forall_mem_cons.1 works).2 (drop_eq_cons stand).2 quieter
    refine ⟨w₁', ?_, quieter⟩
    simp only [List.map_cons, evaluateFrom, if_pos before, evaluated]
  | running reached runs =>
    obtain ⟨after, quieter⟩ := (List.forall_mem_cons.1 works).1 quieter
    rw [Containment.faults_below (drop_eq_cons stand).1]
    refine ⟨_, ?_, quieter⟩
    simp only [List.map_cons, evaluateFrom, if_neg (Nat.not_lt.2 reached), after,
      Containment.status_live, runs, if_true]
  | settled reached settles =>
    obtain ⟨after, quieter⟩ := (List.forall_mem_cons.1 works).1 quieter
    rw [Containment.faults_below (drop_eq_cons stand).1]
    refine ⟨_, ?_, quieter⟩
    simp only [List.map_cons, evaluateFrom, if_neg (Nat.not_lt.2 reached), after,
      Containment.status_live, settles, CompositeKind.settlesOn_ne_running, if_true, if_false]
  | passed reached ends unsettled later ih =>
    obtain ⟨here, behind⟩ := drop_eq_cons stand
    obtain ⟨first, others⟩ := List.forall_mem_cons.1 works
    obtain ⟨after, quieter⟩ := first quieter
    obtain ⟨w₁', evaluated, quieter⟩ := ih others behind quieter
    rw [Containment.faults_append, Containment.faults_below here, ← List.append_assoc]
    refine ⟨w₁', ?_, quieter⟩
    simp only [List.map_cons, evaluateFrom, if_neg (Nat.not_lt.2 reached), after,
      Containment.status_live, ends, unsettled, if_false, evaluated]

theorem enterDecorator_quieter (quieter : World.Quieter faults w w') (time : TickTime T)
    (kind : DecoratorKind) (n : CompiledNode) (state : NodeState T) :
    enterDecorator time kind n state w' = enterDecorator time kind n state w := by
  obtain ⟨logs, rfl, -⟩ := quieter
  rfl

/-- A node of which the handler is not contained has no fault of its own. -/
theorem Containment.fault?_of_ne (other : ∀ h, n.behavior ≠ .handler h) :
    c.fault? time n state w = none := by
  unfold fault?
  split
  · rename_i h h' is _
    exact absurd is (other h)
  · rfl

/-- A node that has no handler takes no notice of the containment of those below it. -/
theorem Acts.quieter {state' : NodeState T} (plain : ∀ h, n.behavior ≠ .handler h)
    (works : ∀ child ∈ children, Carries c time child) (quieter : World.Quieter faults w w')
    (did : Acts time n w state children state' status children' w₁ trace) :
    ∃ w₁', evaluate time (.node ⟨n, state⟩ (children.map c.live)) w' =
        finish n state' status (children'.map c.live) w₁' ∧
      World.Quieter (faults ++ c.faults time (.node ⟨n, state⟩ children) trace) w₁ w₁' := by
  have silent {t : LiveTree T} {w w' : World} (quieter : World.Quieter faults w w') :
      World.Quieter (faults ++ c.faults time t []) w w' :=
    (List.append_nil faults).symm ▸ quieter
  have same {kind : DecoratorKind} :
      enterDecorator time kind n state w' = enterDecorator time kind n state w :=
    enterDecorator_quieter quieter time kind n state
  cases did with
  | bareRoot is =>
    refine ⟨w', (evaluate.eq_def ..).trans ?_, silent quieter⟩
    simp only [is, List.map_nil]
  | @root child rest is =>
    obtain ⟨after, quieter⟩ := works child List.mem_cons_self quieter
    rw [Containment.faults_below (t := .node ⟨n, state⟩ (child :: rest)) rfl]
    refine ⟨_, (evaluate_of_root is ..).trans ?_, quieter⟩
    rw [after, Containment.status_live]
    rfl
  | composite is proceeds =>
    obtain ⟨w₁', after, quieter⟩ :=
      proceeds.quieter (t := .node ⟨n, state⟩ children) works rfl quieter
    refine ⟨w₁', (evaluate.eq_def ..).trans ?_, quieter⟩
    simp only [is, after]
  | bareDecorator is => exact ⟨w', (evaluate_of_bare is time state w').1, silent quieter⟩
  | @refused kind child rest is entry =>
    exact ⟨w', (evaluate_of_refuse is (same.trans entry) _ _).1, silent quieter⟩
  | @cutShort kind child rest state' is entry =>
    rw [Containment.faults_cuts, List.append_nil]
    refine ⟨_, (evaluate_of_cutShort is (same.trans entry) _ _).1.trans ?_,
      quieter.abort (Containment.ids_live (c := c) child)⟩
    rw [Containment.reset_live]
    rfl
  | @proceeded kind child rest state' limit is entry =>
    obtain ⟨after, quieter'⟩ := works child List.mem_cons_self quieter
    rw [Containment.faults_below (t := .node ⟨n, state⟩ (child :: rest)) rfl]
    refine ⟨_, (evaluate_of_proceed is (same.trans entry) _ _).1.trans ?_, quieter'⟩
    rw [after, Containment.status_live]
    rfl
  | condition is =>
    obtain ⟨same, quieter⟩ := quieter.condition time.tick n
    refine ⟨_, (evaluate.eq_def ..).trans ?_, silent quieter⟩
    simp only [is, same]
  | handler is => exact absurd is (plain _)

/-- Neither does a leaf of which the handler itself may be contained. -/
theorem Containment.evaluateLeaf_node (c : Containment) {h : Handler} (is : n.behavior = .handler h)
    (quieter : World.Quieter faults w w') (time : TickTime T) (state : NodeState T)
    (children : List (LiveTree T)) :
    let after := evaluateLeaf time n h state w
    ∃ w₁', evaluate time (.node ⟨c.node n, state⟩ children) w' =
        finish (c.node n) after.1 after.1.status children w₁' ∧
      World.Quieter (faults ++ (c.fault? time n state w).toList) after.2 w₁' := by
  intro after
  cases instead : c.instead n with
  | none =>
    have same : c.node n = n := by simp only [node, is, instead]
    have silent : c.fault? time n state w = none := by simp only [fault?, is, instead]
    obtain ⟨alike, quieter⟩ := evaluateLeaf_quieter h quieter time n state
    rw [same, silent, evaluate_of_handler is, alike]
    exact ⟨_, rfl, (List.append_nil faults).symm ▸ quieter⟩
  | some h' =>
    have replaced : c.node n = { n with behavior := .handler h' } := by
      simp only [node, is, instead]
    have faulty : c.fault? time n state w = BehaviorTree.fault? time n h state w := by
      simp only [fault?, is, instead]
    obtain ⟨alike, quieter⟩ :=
      evaluateLeaf_contained (c.contains is instead) quieter time n state
    rw [replaced, faulty, evaluate_of_handler rfl, alike]
    exact ⟨_, rfl, quieter⟩

/-- Evaluation takes no notice of the containment of handlers. -/
theorem evaluate_live (c : Containment) (time : TickTime T) (t : LiveTree T) :
    Carries c time t := by
  induction t using Tree.induction with
  | step label children ih =>
    obtain ⟨n, state⟩ := label
    intro faults w w' quieter
    by_cases plain : ∀ h, n.behavior ≠ .handler h
    · obtain ⟨state', status, children', w₁, trace, did, evaluated, traced⟩ :=
        acts time n state children w
      obtain ⟨w₁', evaluated', quieter⟩ := did.quieter plain ih quieter
      rw [evaluated, traced, Containment.faults_append, Containment.faults_self,
        Containment.fault?_of_ne plain, Option.toList_none, List.append_nil, Containment.live_node,
        c.node_of_ne plain, evaluated']
      refine ⟨?_, quieter.visit n.id status⟩
      rw [finish, finish, Containment.live_node, c.node_of_ne plain]
    · obtain ⟨h, is⟩ := not_forall_not.1 plain
      obtain ⟨w₁', evaluated', quieter⟩ :=
        c.evaluateLeaf_node is quieter time state (children.map c.live)
      have traced : visits time (.node ⟨n, state⟩ children) w =
          [([], .evaluated w (evaluateLeaf time n h state w).1.status)] := by
        refine (visits.eq_def ..).trans ?_
        simp only [is, evaluate_of_handler is]
        rfl
      rw [traced, Containment.faults_self, evaluate_of_handler is, Containment.live_node, evaluated']
      refine ⟨?_, ?_⟩
      · rw [finish, finish, Containment.live_node]
      · rw [finish, finish, c.id_node]
        exact quieter.visit n.id _

end Evaluate

end BehaviorTree
