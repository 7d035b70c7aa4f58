import BehaviorTree.Compilation.Tree
import BehaviorTree.Execution.Clock

/-!
# One tick of a tree

A live tree carries the state of each node beside the node. A tick evaluates the tree from its
root: composites resume at the child that was running, decorators change what their child gives,
conditions and handlers do the work. What the nodes share, the blackboard above all, is the
`World`, which is handed from node to node in the order of evaluation.
-/

namespace BehaviorTree

/-- What a node keeps from tick to tick. -/
structure NodeState (T : Type) where
  status : Status
  /-- A composite's child to resume at. -/
  cursor : Nat
  /-- The successes that a repeat has seen, or the failures that a retry has. -/
  counter : Nat
  /-- How long a leaf has been running, or a timeout's child. -/
  runningTime : T
  running : Bool
  /-- When a cooldown lets its child run again. -/
  readyAt : Option T
  memory : Dict Value

structure LiveNode (T : Type) where
  node : CompiledNode
  state : NodeState T

abbrev LiveTree (T : Type) := Tree (LiveNode T)

/-- Time in one tick. -/
structure TickTime (T : Type) where
  /-- Logical seconds since the tick before. -/
  delta : T
  /-- Logical seconds since the run began. -/
  now : T
  /-- The number of the tick. -/
  tick : Nat

/-- What the nodes of a tree share during a tick. -/
structure World where
  board : Blackboard
  outputs : Outputs
  random : Random
  logs : List LogLine := []
  typeChanges : List TypeChange := []
  /-- The nodes that were evaluated or cut short, in the order in which that ended, with their
  statuses. -/
  visited : List (String × Status) := []

variable {T : Type} [Clock T]

/-- The state of a node at the beginning of a run. -/
def NodeState.initial : NodeState T :=
  ⟨.idle, 0, 0, Clock.zero, false, none, .empty⟩

namespace LiveTree

/-- A tree at the beginning of a run. -/
def ofCompiled (t : Tree CompiledNode) : LiveTree T := t.map fun n => ⟨n, .initial⟩

/-- The tree back at the beginning of a run. -/
def reset (t : LiveTree T) : LiveTree T := t.map fun n => ⟨n.node, .initial⟩

/-- The status of the node at the root. -/
def status (t : LiveTree T) : Status := t.label.state.status

/-- The nodes with their statuses, in pre-order. -/
def statuses (t : LiveTree T) : List (String × Status) :=
  t.preorder.map fun n => (n.node.id, n.state.status)

end LiveTree

namespace World

def visit (w : World) (id : String) (status : Status) : World :=
  { w with visited := w.visited ++ [(id, status)] }

/-- Adds a log line of a node that failed. -/
def logError (w : World) (tick : Nat) (id : String) (e : NodeError) : World :=
  { w with logs := w.logs ++ [⟨tick, id, .error, e.message⟩] }

/-- The value of a slot of a node. -/
def property? (w : World) (n : CompiledNode) (slot : String) : Option Value :=
  n.toNodeInfo.property? w.board w.outputs slot

/-- The number in a slot of a node, or another if there is none. -/
def number (w : World) (n : CompiledNode) (slot : String) (standard : Number) : Number :=
  ((w.property? n slot).bind Value.number?).getD standard

/-- Resets a tree whose evaluation is cut short and lists its nodes as idle. -/
def abort (w : World) (t : LiveTree T) : LiveTree T × World :=
  (LiveTree.reset t,
    { w with visited := w.visited ++ t.preorder.map fun n => (n.node.id, Status.idle) })

end World

/-! ## Leaves -/

/-- Whether the variable that a condition names has the value that it expects. -/
def evaluateCondition (tick : Nat) (n : CompiledNode) (w : World) : Status × World :=
  match w.property? n "key" with
  | some (.string key) =>
    if key.isEmpty then (.failure, w.logError tick n.id (.missingProperty n.id "key"))
    else
      let scope := Node.scopeNamed (w.property? n "scope")
      let expected := (w.property? n "value").getD .null
      match w.board.get? key scope with
      | some found => (.ofBool (found.looselyEq expected), w)
      | none => (.failure, w)
  | _ => (.failure, w.logError tick n.id (.missingProperty n.id "key"))

/-- What a handler gives, where idle is no answer. -/
def settleResult (h : Handler) (id : String) (result : Except NodeError Status) :
    Except NodeError Status :=
  match result with
  | .ok .idle => .error (.failed id s!"handler '{h.nodeType}' returned idle")
  | other => other

/-- The world after a handler has run on a node. -/
def World.afterHandler (w : World) (tick : Nat) (id : String) (s : HandlerState) : World :=
  { w with
    board := s.board
    random := s.random
    outputs := match s.output with
      | some value => w.outputs.insert id value
      | none => w.outputs
    logs := w.logs ++ s.logs.map fun line => ⟨tick, id, line.1, line.2⟩
    typeChanges := w.typeChanges ++ s.typeChanges }

/-- Runs the handler of a leaf. One that fails makes the leaf fail. -/
def evaluateLeaf (time : TickTime T) (n : CompiledNode) (h : Handler) (state : NodeState T)
    (w : World) : NodeState T × World :=
  let runningTime := if state.running then Clock.add state.runningTime time.delta else time.delta
  let context : HandlerContext :=
    { node := n.toNodeInfo, outputs := w.outputs, deltaTime := Clock.toNumber time.delta,
      runningTime := Clock.toNumber runningTime,
      hasRunFor := fun duration => Clock.reaches runningTime (Clock.ofNumber duration),
      tick := time.tick }
  let (result, after) := h.run context ⟨w.board, w.random, state.memory, none, [], []⟩
  let w := w.afterHandler time.tick n.id after
  let (status, w) := match settleResult h n.id result with
    | .ok status => (status, w)
    | .error e => (Status.failure, w.logError time.tick n.id e)
  ({ state with
      status := status, runningTime := runningTime, running := status == .running,
      memory := after.memory }, w)

/-! ## Decorators -/

/-- What a decorator decides before its child is evaluated. -/
inductive Entry (T : Type) where
  /-- The decorator fails and its child is left alone. -/
  | refuse
  /-- The decorator fails and its child is cut short. -/
  | cutShort (state : NodeState T)
  /-- The child is evaluated. The limit is the count or duration that holds for this tick. -/
  | proceed (state : NodeState T) (limit : Number)

/-- What a decorator decides before its child is evaluated. -/
def enterDecorator (time : TickTime T) (kind : DecoratorKind) (n : CompiledNode)
    (state : NodeState T) (w : World) : Entry T :=
  match kind with
  | .inverter | .alwaysSucceed | .alwaysFail => .proceed state 0
  | .repeat => .proceed state (w.number n "count" 1)
  | .retry => .proceed state ((w.number n "attempts" 3).maximum 1)
  | .cooldown =>
    match state.readyAt with
    | some readyAt =>
      if Clock.isBefore time.now readyAt then .refuse
      else .proceed state (w.number n "duration" 1)
    | none => .proceed state (w.number n "duration" 1)
  | .timeout =>
    let duration := w.number n "duration" 1
    if state.running then
      let runningTime := Clock.add state.runningTime time.delta
      if Clock.reaches runningTime (Clock.ofNumber duration) then
        .cutShort { state with running := false, runningTime := Clock.zero }
      else .proceed { state with runningTime := runningTime } duration
    else .proceed state duration

/-- Whether a count has come up to a limit. -/
def countReaches (count : Nat) (limit : Number) : Bool :=
  Number.atMost limit (Number.ofNat count + Number.timeTolerance)

/-- What a decorator makes of its child's status: its own status and what it keeps. -/
def leaveDecorator (time : TickTime T) (kind : DecoratorKind) (limit : Number)
    (state : NodeState T) (child : Status) : Status × NodeState T :=
  match kind with
  | .inverter =>
    match child with
    | .success => (.failure, state)
    | .failure => (.success, state)
    | other => (other, state)
  | .alwaysSucceed => (if child = .running then .running else .success, state)
  | .alwaysFail => (if child = .running then .running else .failure, state)
  | .repeat =>
    match child with
    | .running => (.running, state)
    | .success =>
      let counter := state.counter + 1
      if Number.atMost 1 limit && countReaches counter limit then
        (.success, { state with counter := 0 })
      else (.running, { state with counter := counter })
    | .failure | .idle => (.failure, { state with counter := 0 })
  | .retry =>
    match child with
    | .running => (.running, state)
    | .success => (.success, { state with counter := 0 })
    | .failure | .idle =>
      let counter := state.counter + 1
      if countReaches counter limit then (.failure, { state with counter := 0 })
      else (.running, { state with counter := counter })
  | .cooldown =>
    if child.isResolved then
      (child, { state with readyAt := some (Clock.add time.now (Clock.ofNumber limit)) })
    else (child, state)
  | .timeout =>
    if child = .running then
      (child, if state.running then state
        else { state with running := true, runningTime := Clock.zero })
    else (child, { state with running := false, runningTime := Clock.zero })

/-! ## Composites -/

/-- The status of a child after which a composite goes on to the next. -/
def CompositeKind.goesOnAfter : CompositeKind → Status
  | .sequence => .success
  | .selector => .failure

/-- The status of a child that settles a composite. -/
def CompositeKind.settlesOn : CompositeKind → Status
  | .sequence => .failure
  | .selector => .success

/-- Ends the evaluation of a node. -/
def finish (n : CompiledNode) (state : NodeState T) (status : Status)
    (children : List (LiveTree T)) (w : World) : LiveTree T × World :=
  (.node ⟨n, { state with status := status }⟩ children, w.visit n.id status)

mutual

/-- Evaluates a tree in a world. -/
def evaluate (time : TickTime T) : LiveTree T → World → LiveTree T × World
  | .node ⟨n, state⟩ children, w =>
    match n.behavior, children with
    | .root, [] => finish n state .idle [] w
    | .root, child :: rest =>
      let (child, w) := evaluate time child w
      finish n state child.status (child :: rest) w
    | .composite kind, children =>
      let (status, cursor, children, w) := evaluateFrom time kind state.cursor 0 children w
      finish n { state with cursor := cursor } status children w
    | .decorator _, [] => finish n state .failure [] w
    | .decorator kind, child :: rest =>
      match enterDecorator time kind n state w with
      | .refuse => finish n state .failure (child :: rest) w
      | .cutShort state =>
        let (child, w) := w.abort child
        finish n state .failure (child :: rest) w
      | .proceed state limit =>
        let (child, w) := evaluate time child w
        let (status, state) := leaveDecorator time kind limit state child.status
        finish n state status (child :: rest) w
    | .condition, children =>
      let (status, w) := evaluateCondition time.tick n w
      finish n state status children w
    | .handler h, children =>
      let (state, w) := evaluateLeaf time n h state w
      finish n state state.status children w

/-- Evaluates the children of a composite from the cursor on, until one of them is running or
settles it. Gives the status of the composite and where to resume. -/
def evaluateFrom (time : TickTime T) (kind : CompositeKind) (cursor place : Nat) :
    List (LiveTree T) → World → Status × Nat × List (LiveTree T) × World
  | [], w => (kind.goesOnAfter, 0, [], w)
  | child :: rest, w =>
    if place < cursor then
      let (status, next, rest, w) := evaluateFrom time kind cursor (place + 1) rest w
      (status, next, child :: rest, w)
    else
      let (child, w) := evaluate time child w
      if child.status = .running then (.running, place, child :: rest, w)
      else if child.status = kind.settlesOn then (kind.settlesOn, 0, child :: rest, w)
      else
        let (status, next, rest, w) := evaluateFrom time kind cursor (place + 1) rest w
        (status, next, child :: rest, w)

end

end BehaviorTree
