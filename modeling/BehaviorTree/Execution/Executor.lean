import BehaviorTree.Blackboard.Shared
import BehaviorTree.Execution.Config
import BehaviorTree.Execution.Tick

/-!
# Executors

An executor runs a compiled tree on a shared blackboard, tick by tick. Ticks are asked for one by
one, or come out of frame time, which is collected until whole ticks fit into it. The first start
or step of a session remembers the variables of the tree's scope, and stopping brings them back.
-/

namespace BehaviorTree

/-- What happened in one tick. -/
structure TickReport (T : Type) where
  tick : Nat
  /-- Logical seconds since the run began. -/
  elapsed : T
  /-- The nodes that were evaluated or cut short. One that was evaluated comes after those below
  it. -/
  statuses : List (String × Status)
  logs : List LogLine
  /-- The changes of type that writes from outside and from nodes caused. -/
  typeChanges : List TypeChange
  /-- The blackboard after the tick. -/
  blackboard : BlackboardSnapshot

namespace TickReport

variable {T : Type}

/-- The status of a node, if it took part in the tick. -/
def status? (r : TickReport T) (id : String) : Option Status := r.statuses.lookup id

/-- The status of the root. -/
def rootStatus (r : TickReport T) : Status := (r.statuses.getLast?.map (·.2)).getD .idle

end TickReport

structure Executor (T : Type) where
  /-- The tree with the states of its nodes, until the executor is destroyed. -/
  tree : Option (LiveTree T)
  config : ExecutorConfig
  state : ExecutorState
  /-- What the nodes published last. -/
  outputs : Outputs
  /-- The blackboard when the open session began. -/
  session : Option BlackboardSnapshot
  /-- The changes of type that were not taken yet. -/
  typeChanges : List TypeChange
  random : Random
  /-- Scaled frame time that no tick has used up. -/
  accumulator : T
  elapsed : T
  tickCount : Nat

namespace Executor

variable {T : Type} [Clock T]

/-- An idle executor of a tree. The entropy feeds the generator if the settings have no seed. -/
def new (tree : CompiledTree) (config : ExecutorConfig) (entropy : Nat := 0) : Executor T where
  tree := some (.ofCompiled tree.root)
  config := config
  state := .idle
  outputs := .empty
  session := none
  typeChanges := []
  random := .ofSeed (config.seed.getD entropy)
  accumulator := Clock.zero
  elapsed := Clock.zero
  tickCount := 0

/-! ## Views -/

def isDestroyed (e : Executor T) : Bool := e.tree.isNone

/-- The statuses of all nodes in pre-order. -/
def statuses (e : Executor T) : List (String × Status) := (e.tree.map LiveTree.statuses).getD []

/-- The status of a node; idle if the tree does not have it. -/
def status (e : Executor T) (id : String) : Status := (e.statuses.lookup id).getD .idle

/-- What a node published last. -/
def output? (e : Executor T) (id : String) : Option Value := e.outputs.get? id

/-- Takes the changes of type gathered since they were taken last. -/
def takeTypeChanges (e : Executor T) : List TypeChange × Executor T :=
  (e.typeChanges, { e with typeChanges := [] })

/-! ## Ticks -/

/-- The length of a regular tick. -/
def interval (e : Executor T) : T := Clock.ofNumber e.config.tickInterval

/-- Back to the beginning of a run. A seeded generator begins anew. -/
def reset (e : Executor T) : Executor T :=
  { e with
    tree := e.tree.map LiveTree.reset
    outputs := .empty
    random := match e.config.seed with
      | some seed => .ofSeed seed
      | none => e.random
    accumulator := Clock.zero
    elapsed := Clock.zero
    tickCount := 0 }

/-- What a tick does to tree and blackboard: the writes that wait are done, then the tree is
evaluated. -/
def runTree (time : TickTime T) (tree : LiveTree T) (outputs : Outputs) (random : Random)
    (board : Blackboard) : List TypeChange × LiveTree T × World :=
  let (queued, board) := board.applyQueue
  let (tree, w) := evaluate time tree { board := board, outputs := outputs, random := random }
  (queued ++ w.typeChanges, tree, w)

/-- One tick of a tree. The events of the tick are delivered when it is over. -/
def tickTree (e : Executor T) (tree : LiveTree T) (delta : T) (s : SharedBlackboard) :
    TickReport T × Executor T × SharedBlackboard :=
  let time : TickTime T := ⟨delta, Clock.add e.elapsed delta, e.tickCount + 1⟩
  let ((typeChanges, tree, w), s) := s.transact fun board =>
    let result := runTree time tree e.outputs e.random board
    (result, result.2.2.board)
  let report : TickReport T :=
    { tick := time.tick, elapsed := time.now, statuses := w.visited,
      logs := w.logs.take e.config.maxLogLines, typeChanges := typeChanges,
      blackboard := w.board.snapshot }
  (report, { e with
    tree := some tree, outputs := w.outputs, random := w.random, elapsed := time.now,
    tickCount := time.tick, typeChanges := e.typeChanges ++ typeChanges }, s)

/-- The tree of an executor that was not destroyed. -/
def liveTree (e : Executor T) : Except ExecutorError (LiveTree T) :=
  match e.tree with
  | some tree => .ok tree
  | none => .error .destroyed

def invalid {α : Type} (e : Executor T) (action : String) : Except ExecutorError α :=
  .error (.invalidTransition action e.state)

/-- Opens a session at the present state of the blackboard. -/
def openSession (e : Executor T) (s : SharedBlackboard) : Executor T :=
  { e with session := some s.board.snapshot }

/-! ## Control -/

/-- Begins a run. The session that stepping has opened goes on. -/
def start (e : Executor T) (s : SharedBlackboard) : Except ExecutorError (Executor T) := do
  let _ ← e.liveTree
  if e.state ≠ .idle then e.invalid "start"
  else
    let e := if e.session.isNone then e.openSession s else e
    return { e.reset with state := .running }

def pause (e : Executor T) : Except ExecutorError (Executor T) := do
  let _ ← e.liveTree
  if e.state ≠ .running then e.invalid "pause" else return { e with state := .paused }

def resume (e : Executor T) : Except ExecutorError (Executor T) := do
  let _ ← e.liveTree
  if e.state ≠ .paused then e.invalid "resume" else return { e with state := .running }

/-- Ends the run and the session, which brings the variables of the tree's scope back. -/
def stop (e : Executor T) (s : SharedBlackboard) :
    Except ExecutorError (Executor T × SharedBlackboard) := do
  let _ ← e.liveTree
  let s := match e.session with
    | some snapshot => (s.transact fun board => ((), board.restore snapshot)).2
    | none => s
  return ({ e.reset with session := none, state := .idle }, s)

/-- Performs one tick of regular length while not running. Stepping while idle opens a session. -/
def step (e : Executor T) (s : SharedBlackboard) :
    Except ExecutorError (TickReport T × Executor T × SharedBlackboard) := do
  let _ ← e.liveTree
  let e ← match e.state with
    | .running => e.invalid "step"
    | .idle => if e.session.isNone then .ok (e.openSession s).reset else .ok e
    | .paused => .ok e
  return e.tickTree (← e.liveTree) e.interval s

/-- Performs one tick of a given length while running. -/
def tick (e : Executor T) (delta : T) (s : SharedBlackboard) :
    Except ExecutorError (TickReport T × Executor T × SharedBlackboard) := do
  let tree ← e.liveTree
  if e.state ≠ .running then e.invalid "tick" else return e.tickTree tree delta s

/-- Performs ticks while the collected time is enough for one, at most the given number. -/
def tickWhileDue : Nat → Executor T → SharedBlackboard →
    List (TickReport T) × Executor T × SharedBlackboard
  | 0, e, s => ([], e, s)
  | fuel + 1, e, s =>
    match e.tree with
    | none => ([], e, s)
    | some tree =>
      if Clock.reaches e.accumulator e.interval then
        let e := { e with
          accumulator := Clock.max (Clock.sub e.accumulator e.interval) Clock.zero }
        let (report, e, s) := e.tickTree tree e.interval s
        let (reports, e, s) := tickWhileDue fuel e s
        (report :: reports, e, s)
      else ([], e, s)

/-- Adds frame time to what was collected. Time does not run backwards. -/
def addFrame (e : Executor T) (frameDelta : T) : Executor T :=
  let scaled := Clock.mul (Clock.max frameDelta Clock.zero) (Clock.ofNumber e.config.speed)
  { e with accumulator := Clock.add e.accumulator scaled }

/-- Takes in the time of one frame and performs the whole ticks that fit, up to the cap; the time
of further ones is kept. Nothing happens unless the executor is running. -/
def update (e : Executor T) (frameDelta : T) (s : SharedBlackboard) :
    Except ExecutorError (List (TickReport T) × Executor T × SharedBlackboard) := do
  let _ ← e.liveTree
  if e.state ≠ .running then return ([], e, s)
  ExecutorConfig.checkInterval e.config.tickInterval
  return tickWhileDue e.config.maxTicksPerUpdate (e.addFrame frameDelta) s

/-- Gives up the tree and the session. Every later call fails. -/
def destroy (e : Executor T) : Executor T :=
  { e with
    tree := none, session := none, typeChanges := [], state := .idle, outputs := .empty }

end Executor

end BehaviorTree
