import BehaviorTree.Proofs.Blackboard.Types
import BehaviorTree.Proofs.Execution.Runs
import BehaviorTree.Proofs.Handler.Actions

/-!
# The changes of type that a run tells

Types change through writes that wait, through writes of handlers, and when a session is closed.
What an executor has told since it was asked last accounts for all of it, as long as its handlers
are those that come with the program and the listeners keep types (`Executor.Accounted.performAll`).
Closing a session brings old types back without telling, which is no gap: whatever has changed since
the beginning of the session was told when it did.
-/

namespace BehaviorTree

variable {T : Type}

/-! ## What an evaluation does to its world -/

/-- A relation that can be followed from node to node, and past what is only noted down. -/
structure World.Carried (R : World → World → Prop) : Prop where
  refl (w : World) : R w w
  trans {first second third : World} : R first second → R second third → R first third
  noted (w : World) (visited : List (String × Status)) (logs : List LogLine) :
    R w { w with visited := visited, logs := logs }

section Evaluate

variable {R : World → World → Prop} {P : Handler → Prop}

theorem World.Carried.condition (carried : World.Carried R) (tick : Nat) (n : CompiledNode)
    (w : World) : R w (evaluateCondition tick n w).2 := by
  unfold evaluateCondition
  split
  · split
    · exact carried.noted w w.visited _
    · dsimp only
      split
      · exact carried.refl w
      · exact carried.refl w
  · exact carried.noted w w.visited _

theorem World.Carried.finish (carried : World.Carried R) {w w' : World} (leads : R w w')
    (n : CompiledNode) (state : NodeState T) (status : Status) (children : List (LiveTree T)) :
    R w (finish n state status children w').2 :=
  carried.trans leads (carried.noted w' _ w'.logs)

variable [Clock T]

mutual

/-- What every leaf does to the world, the tree does. -/
theorem evaluate_leads (carried : World.Carried R) (time : TickTime T)
    (leaves : ∀ h, P h → ∀ (n : CompiledNode) (state : NodeState T) (w : World),
      R w (evaluateLeaf time n h state w).2) (t : LiveTree T) (w : World)
    (all : ∀ n ∈ t.preorder, ∀ h, n.node.behavior = .handler h → P h) :
    R w (evaluate time t w).2 := by
  match t with
  | .node ⟨n, state⟩ children =>
    have below : ∀ m ∈ Tree.preorders children, ∀ h, m.node.behavior = .handler h → P h :=
      fun m member => all m (List.mem_cons_of_mem _ member)
    unfold evaluate
    match behavior : n.behavior, children with
    | .root, [] => exact carried.finish (carried.refl w) n state _ _
    | .root, child :: rest =>
      have first := evaluate_leads carried time leaves child w fun m member =>
        below m (List.mem_append_left _ member)
      exact carried.finish first n state _ _
    | .composite kind, children =>
      have inner := evaluateFrom_leads carried time leaves kind state.cursor 0 children w below
      exact carried.finish inner n _ _ _
    | .decorator kind, [] => exact carried.finish (carried.refl w) n state _ _
    | .decorator kind, child :: rest =>
      dsimp only
      split
      · exact carried.finish (carried.refl w) n state _ _
      · exact carried.finish (carried.noted w _ w.logs) n _ _ _
      · have first := evaluate_leads carried time leaves child w fun m member =>
          below m (List.mem_append_left _ member)
        exact carried.finish first n _ _ _
    | .condition, children => exact carried.finish (carried.condition time.tick n w) n state _ _
    | .handler h, children =>
      have mine : P h := all _ List.mem_cons_self h behavior
      exact carried.finish (leaves h mine n state w) n _ _ _

theorem evaluateFrom_leads (carried : World.Carried R) (time : TickTime T)
    (leaves : ∀ h, P h → ∀ (n : CompiledNode) (state : NodeState T) (w : World),
      R w (evaluateLeaf time n h state w).2) (kind : CompositeKind) (cursor place : Nat)
    (children : List (LiveTree T)) (w : World)
    (all : ∀ n ∈ Tree.preorders children, ∀ h, n.node.behavior = .handler h → P h) :
    R w (evaluateFrom time kind cursor place children w).2.2.2 := by
  match children with
  | [] => exact carried.refl w
  | child :: rest =>
    have first := evaluate_leads carried time leaves child w fun m member =>
      all m (List.mem_append_left _ member)
    have others := fun w =>
      evaluateFrom_leads carried time leaves kind cursor (place + 1) rest w fun m member =>
        all m (List.mem_append_right _ member)
    unfold evaluateFrom
    split
    · exact others w
    · dsimp only
      split
      · exact first
      · split
        · exact first
        · exact carried.trans first (others _)

end

end Evaluate

/-! ## What handlers tell -/

theorem HandlerM.carried_tells : HandlerM.Carried fun state after =>
    Tells state.typeChanges after.typeChanges state.board after.board where
  refl state := .refl state.typeChanges state.board
  trans := Tells.trans

/-- A handler that comes with the program tells of every type that it changes. -/
theorem Handler.IsBuiltin.tells {h : Handler} (builtin : h.IsBuiltin) (context : HandlerContext)
    (state : HandlerState) : Tells state.typeChanges (h.run context state).2.typeChanges state.board
      (h.run context state).2.board := by
  refine leads_of_isBuiltin HandlerM.carried_tells ?writes ?outputs ?logs ?draws builtin context
    state
  case writes =>
    intro name value scope _ state
    exact ⟨_, rfl, accounts_set state.board name value scope⟩
  case outputs => exact fun _ _ state => .refl state.typeChanges state.board
  case logs => exact fun _ _ _ state => .refl state.typeChanges state.board
  case draws => exact fun _ _ state => .refl state.typeChanges state.board

theorem World.carried_tells : World.Carried fun w w' =>
    Tells w.typeChanges w'.typeChanges w.board w'.board where
  refl w := .refl w.typeChanges w.board
  trans := Tells.trans
  noted w _ _ := .refl w.typeChanges w.board

theorem evaluateLeaf_tells [Clock T] {h : Handler} (builtin : h.IsBuiltin) (time : TickTime T)
    (n : CompiledNode) (state : NodeState T) (w : World) :
    Tells w.typeChanges (evaluateLeaf time n h state w).2.typeChanges w.board
      (evaluateLeaf time n h state w).2.board := by
  let before : HandlerState := ⟨w.board, w.random, state.memory, none, [], []⟩
  have told (context : HandlerContext) : Tells w.typeChanges
      (w.typeChanges ++ (h.run context before).2.typeChanges) w.board
      (h.run context before).2.board := by
    obtain ⟨new, eq, accounts⟩ := builtin.tells context before
    exact ⟨new, congrArg _ eq, accounts⟩
  simp only [evaluateLeaf]
  split <;> exact told _

namespace Executor

/-- A tick of a tree tells of every type that changes in it. -/
theorem runTree_accounts [Clock T] (time : TickTime T) (tree : LiveTree T)
    (builtin : ∀ n ∈ tree.preorder, ∀ h, n.node.behavior = .handler h → h.IsBuiltin)
    (outputs : Outputs) (random : Random) (board : Blackboard) :
    let result := runTree time tree outputs random board
    Accounts result.1 board.vars result.2.2.board.vars := by
  obtain ⟨new, eq, accounts⟩ := evaluate_leads World.carried_tells time
    (fun h builtin => evaluateLeaf_tells builtin time) tree
    { board := board.applyQueue.2, outputs := outputs, random := random } builtin
  have told : Accounts (board.applyQueue.1 ++ new) board.vars _ :=
    (accounts_applyQueue board).append accounts
  rw [List.nil_append] at eq
  rw [← eq] at told
  exact told

/-! ## What runs tell -/

/-- A tree of handlers that come with the program. -/
def BuiltinTree (t : CompiledTree) : Prop :=
  ∀ n ∈ t.nodes, ∀ h, n.behavior = .handler h → h.IsBuiltin

/-- What drives an executor: every call but those that take its changes of type away, and writes
that wait for the next tick. -/
inductive Call.Drives : Call T → Prop
  | start : Drives .start
  | pause : Drives .pause
  | resume : Drives .resume
  | stop : Drives .stop
  | step : Drives .step
  | tick (delta : T) : Drives (.tick delta)
  | update (frameDelta : T) : Drives (.update frameDelta)
  | enqueue (name : String) (value : Value) (scope : Scope) :
    Drives (.direct fun board => board.enqueue name value scope)

/-- What an executor has told accounts for the types on the blackboard, and for those that closing
the session would bring back. -/
structure Accounted (first : Scope → Dict Variable) (e : Executor T) (s : SharedBlackboard) :
    Prop where
  board : Accounts e.typeChanges first s.board.vars
  session : ∀ snapshot, e.session = some snapshot → Accounts e.typeChanges first snapshot.vars
  listeners : ∀ l ∈ s.listeners, l.Obeys Blackboard.KeepsTypes

variable {first : Scope → Dict Variable} {e : Executor T} {s : SharedBlackboard}
  {t : CompiledTree} {config : ExecutorConfig}

theorem Accounted.openSession (accounted : e.Accounted first s) :
    (e.openSession s).Accounted first s := by
  refine ⟨accounted.board, fun snapshot open_ => ?_, accounted.listeners⟩
  obtain rfl := Option.some.inj open_
  rw [Blackboard.vars_snapshot]
  exact accounted.board

/-- An executor without a session has nothing to account for yet. -/
theorem accounted_of_closed (closed : e.session = none)
    (listeners : ∀ l ∈ s.listeners, l.Obeys Blackboard.KeepsTypes) :
    e.Accounted s.board.vars s where
  board := .refl _ _
  session snapshot open_ := by
    rw [closed] at open_
    cases open_
  listeners := listeners

section Ticks

variable [Clock T]

theorem Accounted.tickTree (accounted : e.Accounted first s) (runs : e.Runs t config)
    (builtin : BuiltinTree t) {tree : LiveTree T} (alive : e.tree = some tree) (delta : T) :
    (e.tickTree tree delta s).2.1.Accounted first (e.tickTree tree delta s).2.2 := by
  have handlers : ∀ n ∈ tree.preorder, ∀ h, n.node.behavior = .handler h → h.IsBuiltin := by
    intro n member
    apply builtin n.node
    rw [CompiledTree.nodes, ← runs.tree tree alive, LiveTree.compiled, Tree.preorder_map]
    exact List.mem_map_of_mem member
  let time : TickTime T := ⟨delta, Clock.add e.elapsed delta, e.tickCount + 1⟩
  have told := runTree_accounts time tree handlers e.outputs e.random s.board
  have sub := List.subset_append_left e.typeChanges
    (runTree time tree e.outputs e.random s.board).1
  refine ⟨?board, fun snapshot open_ => (accounted.session snapshot open_).mono sub, ?listeners⟩
  case board =>
    rw [tickTree_shared]
    exact SharedBlackboard.accounts_transact accounted.listeners (accounted.board.mono sub) _
      (accounted.board.append told)
  case listeners =>
    rw [tickTree_listeners]
    exact accounted.listeners

theorem Accounted.tickWhileDue (accounted : e.Accounted first s) (runs : e.Runs t config)
    (builtin : BuiltinTree t) (count : Nat) :
    let after := Outcome.ofTicks (tickWhileDue count e s)
    after.executor.Accounted first after.shared := by
  induction count generalizing e s with
  | zero => exact accounted
  | succ count ih =>
    rcases e.due_or_early with ⟨tree, alive, due⟩ | early
    · have paid : e.paid.Accounted first s :=
        ⟨accounted.board, accounted.session, accounted.listeners⟩
      have runs : e.paid.Runs t config := ⟨runs.config, runs.tree⟩
      have ticked := paid.tickTree runs builtin (e := e.paid) alive e.interval
      rw [tickWhileDue_due alive due]
      exact ih ticked (runs.kept (tickTree_kept (e := e.paid) alive e.interval s))
    · rw [tickWhileDue_early early]
      exact accounted

/-- A call that drives an executor leaves nothing unaccounted for. -/
theorem Accounted.perform (accounted : e.Accounted first s) (runs : e.Runs t config)
    (builtin : BuiltinTree t) {c : Call T} (drives : c.Drives) :
    (e.perform s c).executor.Accounted first (e.perform s c).shared := by
  rcases e.perform_cases s c with ⟨-, refused⟩ | ⟨-, does⟩
  · rw [refused]
    exact accounted
  · generalize e.perform s c = o at does
    cases does with
    | start alive idle =>
      have opened : Accounted first (if e.session.isNone then e.openSession s else e) s := by
        split
        · exact accounted.openSession
        · exact accounted
      exact ⟨opened.board, opened.session, opened.listeners⟩
    | stop alive =>
      refine ⟨?board, fun snapshot open_ => (nomatch open_), ?listeners⟩
      case board =>
        cases closes : e.session with
        | none => exact accounted.board
        | some snapshot =>
          exact SharedBlackboard.accounts_transact accounted.listeners accounted.board
            (fun board => ((), board.restore snapshot))
            (accounted.board.restore (accounted.session snapshot closes))
      case listeners =>
        rw [restored_listeners]
        exact accounted.listeners
    | step still alive =>
      have ready : (e.stepping s).Accounted first s := by
        unfold stepping
        split
        · have opened := accounted.openSession
          exact ⟨opened.board, opened.session, opened.listeners⟩
        · exact accounted
      exact ready.tickTree (runs.stepping s) builtin alive _
    | tick running alive => exact accounted.tickTree runs builtin alive _
    | @update frameDelta alive running checked =>
      have fed : (e.addFrame frameDelta).Accounted first s :=
        ⟨accounted.board, accounted.session, accounted.listeners⟩
      have runs : (e.addFrame frameDelta).Runs t config := ⟨runs.config, runs.tree⟩
      exact fed.tickWhileDue runs builtin _
    | direct change =>
      cases drives with
      | enqueue name value scope =>
        refine ⟨?board, accounted.session, ?listeners⟩
        case board =>
          have enqueued : Accounts e.typeChanges first
              (s.board.enqueue name value scope).vars := by
            rw [Blackboard.vars_enqueue]
            exact accounted.board
          rw [(s.direct_board fun board => ((), board.enqueue name value scope)).1]
          split
          · exact enqueued
          · rw [Blackboard.vars_contents]
            exact enqueued
        case listeners =>
          rw [s.direct_listeners]
          exact accounted.listeners
    | takeTypeChanges => cases drives
    | destroy => cases drives
    | transact change => cases drives
    | pause | resume | wait => exact ⟨accounted.board, accounted.session, accounted.listeners⟩

/-- What an executor tells along a run accounts for all types at its end. -/
theorem Accounted.performAll (accounted : e.Accounted first s) (runs : e.Runs t config)
    (builtin : BuiltinTree t) (calls : List (Call T)) (drives : ∀ c ∈ calls, c.Drives) :
    (e.performAll s calls).executor.Accounted first (e.performAll s calls).shared := by
  induction calls generalizing e s with
  | nil => exact accounted
  | cons c calls ih =>
    obtain ⟨here, later⟩ := List.forall_mem_cons.1 drives
    exact ih (accounted.perform runs builtin here) (runs.perform s c) later

end Ticks

end Executor

end BehaviorTree
