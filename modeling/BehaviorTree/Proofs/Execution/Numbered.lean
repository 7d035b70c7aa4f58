import BehaviorTree.Proofs.Execution.Runs

/-!
# Running by number

A compiled tree is a list of nodes, and the states of its nodes can be kept in a list beside it.
Here a tick is performed on these lists: it comes to a node, to its state and to its children by
their places alone. Every access is checked, and so is that no node takes part twice and that it
ends; what would go wrong is a `Fault`. The tick of `Executor.tickTree`, which walks through a tree,
needs none of these checks.
-/

namespace BehaviorTree

/-- What may go wrong where nodes are come to by number. -/
inductive Fault where
  /-- A place is beyond the end of a list. -/
  | outOfRange
  /-- A node takes part again in the same tick. -/
  | again
  /-- An evaluation goes deeper, or a walk further, than there are nodes. -/
  | endless

/-- What stands at a place, which must be in range. -/
def checked {α : Type} (xs : List α) (i : Nat) : Except Fault α :=
  match xs[i]? with
  | some x => .ok x
  | none => .error .outOfRange

variable {T : Type}

/-- The states of the nodes by number, during a tick. -/
structure Slots (T : Type) where
  states : List (NodeState T)
  world : World
  /-- The nodes that have taken part so far. -/
  entered : List Nat := []
  /-- The nodes to report, in the order in which their part in the tick ended. -/
  visited : List Nat := []

namespace Slots

def read (m : Slots T) (i : Nat) : Except Fault (NodeState T) := checked m.states i

def write (m : Slots T) (i : Nat) (state : NodeState T) : Except Fault (Slots T) := do
  let _ ← m.read i
  return { m with states := m.states.set i state }

/-- A node takes part, for the first time. -/
def enter (m : Slots T) (i : Nat) : Except Fault (Slots T) :=
  if i ∈ m.entered then .error .again else .ok { m with entered := i :: m.entered }

/-- The part of a node ends with a status. -/
def finish (m : Slots T) (i : Nat) (id : String) (status : Status) : Except Fault (Slots T) := do
  let m ← m.write i { ← m.read i with status := status }
  return { m with visited := m.visited ++ [i], world := m.world.visit id status }

end Slots

namespace CompiledTree

variable (t : CompiledTree)

def nodeAt (i : Nat) : Except Fault CompiledNode := checked t.nodes i

/-- What is visited by going on from the top of a stack to the children, whose places are put on
the stack instead. -/
def walk : Nat → List Nat → Except Fault (List Nat)
  | _, [] => .ok []
  | 0, _ :: _ => .error .endless
  | fuel + 1, i :: waiting => do
    let _ ← t.nodeAt i
    return i :: (← walk fuel (t.children i ++ waiting))

variable [Clock T]

/-- Resets one of the nodes that are cut short. -/
def resetAt (m : Slots T) (i : Nat) : Except Fault (Slots T) := do
  let n ← t.nodeAt i
  let m ← (← m.enter i).write i .initial
  m.finish i n.id .idle

/-- Resets a node and all nodes below it. -/
def abortAt (i : Nat) (m : Slots T) : Except Fault (Slots T) := do
  (← t.walk t.size [i]).foldlM t.resetAt m

variable (time : TickTime T) (below : Nat → Slots T → Except Fault (Status × Slots T))

/-- Evaluates the children at places from a cursor on, until one of them is running or settles the
composite. Gives the status of the composite and where to resume. -/
def childrenAt (kind : CompositeKind) (children : List Nat) :
    Nat → Nat → Slots T → Except Fault (Status × Nat × Slots T)
  | 0, _, m => .ok (kind.goesOnAfter, 0, m)
  | rounds + 1, cursor, m => do
    let (status, m) ← below (← checked children cursor) m
    if status = .running then return (.running, cursor, m)
    else if status = kind.settlesOn then return (kind.settlesOn, 0, m)
    else childrenAt kind children rounds (cursor + 1) m

def compositeAt (i : Nat) (kind : CompositeKind) (m : Slots T) :
    Except Fault (Status × Slots T) := do
  let children := t.children i
  let cursor := (← m.read i).cursor
  let (status, next, m) ← childrenAt below kind children (children.length - cursor) cursor m
  let m ← m.write i { ← m.read i with cursor := next }
  return (status, m)

def decoratorAt (i : Nat) (n : CompiledNode) (kind : DecoratorKind) (m : Slots T) :
    Except Fault (Status × Slots T) := do
  let child ← checked (t.children i) 0
  match enterDecorator time kind n (← m.read i) m.world with
  | .refuse => return (.failure, m)
  | .cutShort state =>
    let m ← t.abortAt child (← m.write i state)
    return (.failure, m)
  | .proceed state limit =>
    let (status, m) ← below child (← m.write i state)
    let (status, state) := leaveDecorator time kind limit (← m.read i) status
    let m ← m.write i state
    return (status, m)

/-- Evaluates a node. Its children are evaluated by `below`. -/
def behaveAt (i : Nat) (n : CompiledNode) (m : Slots T) : Except Fault (Status × Slots T) :=
  match n.behavior with
  | .root =>
    match (t.children i).head? with
    | none => .ok (.idle, m)
    | some child => below child m
  | .composite kind => t.compositeAt below i kind m
  | .decorator kind => t.decoratorAt time below i n kind m
  | .condition =>
    let (status, w) := evaluateCondition time.tick n m.world
    .ok (status, { m with world := w })
  | .handler h => do
    let (state, w) := evaluateLeaf time n h (← m.read i) m.world
    let m ← m.write i state
    return (state.status, { m with world := w })

/-- Evaluates the node at a place and what is below it. The fuel bounds the depth. -/
def evaluateAt : Nat → Nat → Slots T → Except Fault (Status × Slots T)
  | 0, _, _ => .error .endless
  | fuel + 1, i, m => do
    let n ← t.nodeAt i
    let (status, m) ← t.behaveAt time (evaluateAt fuel) i n (← m.enter i)
    return (status, ← m.finish i n.id status)

/-- The nodes to report with the statuses that they have at the end. -/
def reportAt (m : Slots T) : Except Fault (List (String × Status)) :=
  m.visited.mapM fun i => do return ((← t.nodeAt i).id, (← m.read i).status)

/-- What a tick does to the states and to the blackboard. -/
def runAt (states : List (NodeState T)) (outputs : Outputs) (random : Random)
    (board : Blackboard) : Except Fault (List TypeChange × List (NodeState T) × World) := do
  let (queued, board) := board.applyQueue
  let (_, m) ← t.evaluateAt time t.size 0
    { states := states, world := { board := board, outputs := outputs, random := random } }
  let visited ← t.reportAt m
  return (queued ++ m.world.typeChanges, m.states, { m.world with visited := visited })

end CompiledTree

/-! ## Trees as lists of states -/

namespace LiveTree

/-- The states of the nodes by number. -/
def states (t : LiveTree T) : List (NodeState T) := t.preorder.map (·.state)

variable [Clock T]

mutual

/-- A compiled tree with states taken from the front of a list, and the states left over. -/
def fill : Tree CompiledNode → List (NodeState T) → LiveTree T × List (NodeState T)
  | .node n children, states =>
    let (children, rest) := fills children states.tail
    (.node ⟨n, states.head?.getD .initial⟩ children, rest)

def fills : List (Tree CompiledNode) → List (NodeState T) → List (LiveTree T) × List (NodeState T)
  | [], states => ([], states)
  | t :: others, states =>
    let (t, states) := fill t states
    let (others, states) := fills others states
    (t :: others, states)

end

end LiveTree

/-! ## Executors -/

namespace Executor

variable [Clock T] (t : CompiledTree)

/-- One tick of an executor of a tree, by number. -/
def tickAt (e : Executor T) (delta : T) (s : SharedBlackboard) : Except Fault (Outcome T) :=
  match e.tree with
  | none => .ok ⟨[], e, s⟩
  | some live => do
    let time : TickTime T := ⟨delta, Clock.add e.elapsed delta, e.tickCount + 1⟩
    let (typeChanges, states, w) ← t.runAt time live.states e.outputs e.random s.board
    let report : TickReport T :=
      { tick := time.tick, elapsed := time.now, statuses := w.visited,
        logs := w.logs.take e.config.maxLogLines, typeChanges := typeChanges,
        blackboard := w.board.snapshot }
    return ⟨[report], { e with
      tree := some (LiveTree.fill t.root states).1, outputs := w.outputs, random := w.random,
      elapsed := time.now, tickCount := time.tick, typeChanges := e.typeChanges ++ typeChanges },
      (s.transact fun _ => ((), w.board)).2⟩

/-- The ticks of an update, by number. -/
def tickWhileDueAt : Nat → Executor T → SharedBlackboard → Except Fault (Outcome T)
  | 0, e, s => .ok ⟨[], e, s⟩
  | fuel + 1, e, s =>
    if e.tree.isSome && Clock.reaches e.accumulator e.interval then do
      let first ← e.paid.tickAt t e.interval s
      return first.followedBy (← tickWhileDueAt fuel first.executor first.shared)
    else .ok ⟨[], e, s⟩

/-- Makes a call, which may be refused. Its ticks are performed by number. -/
def performAt (e : Executor T) (s : SharedBlackboard) (c : Call T) : Except Fault (Outcome T) :=
  match e.call s c, c with
  | .ok _, .step => (e.stepping s).tickAt t (e.stepping s).interval s
  | .ok _, .tick delta => e.tickAt t delta s
  | .ok outcome, .update frameDelta =>
    if e.state = .running then
      tickWhileDueAt t e.config.maxTicksPerUpdate (e.addFrame frameDelta) s
    else .ok outcome
  | .ok outcome, _ => .ok outcome
  | .error _, _ => .ok ⟨[], e, s⟩

/-- Makes calls one after the other. Their ticks are performed by number. -/
def performAllAt (e : Executor T) (s : SharedBlackboard) :
    List (Call T) → Except Fault (Outcome T)
  | [] => .ok ⟨[], e, s⟩
  | c :: calls => do
    let first ← e.performAt t s c
    return first.followedBy (← first.executor.performAllAt first.shared calls)

/-- The status of a node, read by number. -/
def statusAt (e : Executor T) (id : String) : Except Fault Status :=
  match e.tree, t.index? id with
  | some live, some i => (checked live.states i).map (·.status)
  | _, _ => .ok .idle

end Executor

end BehaviorTree
