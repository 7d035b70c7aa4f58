import BehaviorTree.Handler.Builtin
import BehaviorTree.Proofs.Blackboard.Listeners
import BehaviorTree.Proofs.Execution.Calls

/-!
# Runs of an executor

A run is a list of calls, made one after the other on an executor and a shared blackboard, which
others change in between. A call that is refused leaves no trace (`perform_of_refused`), and what an
accepted one does is said once, by cases (`Executor.Does`). What one call keeps, a run keeps
(`performAll_keeps`). Listeners are told at the end of each tick and when a session is closed, and
delivery to those that keep answering on the blackboard itself is cut off each time
(`SharedBlackboard.dispatchBound`).
-/

namespace BehaviorTree

variable {T : Type}

/-! ## What ticks leave as it is -/

namespace LiveTree

/-- The tree without the states of its nodes. -/
def compiled (t : LiveTree T) : Tree CompiledNode := t.map LiveNode.node

theorem label_compiled (t : LiveTree T) : t.compiled.label = t.label.node := by
  cases t
  rfl

theorem children_compiled (t : LiveTree T) : t.compiled.children = t.children.map compiled := by
  rw [compiled, Tree.children_map, Tree.maps_eq_map]
  rfl

variable [Clock T]

@[simp]
theorem compiled_ofCompiled (t : Tree CompiledNode) :
    compiled (.ofCompiled t : LiveTree T) = t := by
  rw [compiled, ofCompiled, Tree.map_map]
  exact t.map_id

/-- A reset tree is the compiled one at the beginning of a run. -/
theorem reset_eq (t : LiveTree T) : t.reset = .ofCompiled t.compiled := by
  rw [compiled, ofCompiled, Tree.map_map]
  rfl

theorem compiled_reset (t : LiveTree T) : t.reset.compiled = t.compiled := by
  rw [reset_eq, compiled_ofCompiled]

end LiveTree

section Evaluate

variable [Clock T]

mutual

/-- An evaluation changes nothing but the states of the nodes. -/
theorem compiled_evaluate (time : TickTime T) (t : LiveTree T) (w : World) :
    (evaluate time t w).1.compiled = t.compiled := by
  match t with
  | .node ⟨n, state⟩ children =>
    unfold evaluate
    match n.behavior, children with
    | .root, [] =>
      simp only [finish]
      rfl
    | .root, child :: rest =>
      have below := compiled_evaluate time child w
      simp only [finish, LiveTree.compiled, Tree.map, Tree.maps] at below ⊢
      rw [below]
    | .composite kind, children =>
      have below := compiled_evaluateFrom time kind state.cursor 0 children w
      simp only [finish, LiveTree.compiled, Tree.map]
      rw [below]
    | .decorator kind, [] =>
      simp only [finish]
      rfl
    | .decorator kind, child :: rest =>
      have below := compiled_evaluate time child w
      have reset := LiveTree.compiled_reset child
      simp only [finish, LiveTree.compiled, Tree.map, Tree.maps] at below reset ⊢
      split
      · rfl
      · simp only [World.abort, Tree.map, Tree.maps, reset]
      · simp only [Tree.map, Tree.maps, below]
    | .condition, children =>
      simp only [finish]
      rfl
    | .handler h, children =>
      simp only [finish]
      rfl

theorem compiled_evaluateFrom (time : TickTime T) (kind : CompositeKind) (cursor place : Nat)
    (children : List (LiveTree T)) (w : World) :
    Tree.maps LiveNode.node (evaluateFrom time kind cursor place children w).2.2.1 =
      Tree.maps LiveNode.node children := by
  match children with
  | [] => rfl
  | child :: rest =>
    have first := compiled_evaluate time child w
    have others := fun w => compiled_evaluateFrom time kind cursor (place + 1) rest w
    simp only [evaluateFrom]
    unfold LiveTree.compiled at first
    split <;> (try split) <;> (try split) <;> simp only [Tree.maps, first, others]

end

end Evaluate

namespace Executor

/-- What ticks and other calls lead to. -/
structure Outcome (T : Type) where
  /-- The reports of the ticks performed, oldest first. -/
  reports : List (TickReport T)
  executor : Executor T
  shared : SharedBlackboard

/-- The outcome of one tick. -/
def Outcome.ofTick (result : TickReport T × Executor T × SharedBlackboard) : Outcome T :=
  ⟨[result.1], result.2.1, result.2.2⟩

/-- The outcome of the ticks of an update. -/
def Outcome.ofTicks (result : List (TickReport T) × Executor T × SharedBlackboard) : Outcome T :=
  ⟨result.1, result.2.1, result.2.2⟩

/-- One outcome and then another one. -/
def Outcome.followedBy (first others : Outcome T) : Outcome T :=
  { others with reports := first.reports ++ others.reports }

/-- What ticks keep of an executor: all but the states of the nodes, what these published, and
time. -/
structure Kept (e e' : Executor T) : Prop where
  config : e'.config = e.config
  state : e'.state = e.state
  session : e'.session = e.session
  compiled : e'.tree.map LiveTree.compiled = e.tree.map LiveTree.compiled

variable {e : Executor T} {s : SharedBlackboard}

theorem Kept.refl (e : Executor T) : Kept e e := ⟨rfl, rfl, rfl, rfl⟩

theorem Kept.trans {e₁ e₂ e₃ : Executor T} (first : Kept e₁ e₂) (second : Kept e₂ e₃) :
    Kept e₁ e₃ :=
  ⟨second.config.trans first.config, second.state.trans first.state,
    second.session.trans first.session, second.compiled.trans first.compiled⟩

/-- An executor of a compiled tree with settings. -/
structure Runs (t : CompiledTree) (config : ExecutorConfig) (e : Executor T) : Prop where
  config : e.config = config
  tree : ∀ live, e.tree = some live → live.compiled = t.root

variable {t : CompiledTree} {config : ExecutorConfig} {e' : Executor T}

theorem Runs.kept (runs : e.Runs t config) (kept : e.Kept e') : e'.Runs t config := by
  refine ⟨kept.config.trans runs.config, fun live alive => ?_⟩
  have same := kept.compiled
  rw [alive] at same
  obtain ⟨before, was, eq⟩ := Option.map_eq_some_iff.1 same.symm
  exact eq.symm.trans (runs.tree before was)

section Ticks

variable [Clock T]

theorem tickTree_kept {tree : LiveTree T} (alive : e.tree = some tree) (delta : T)
    (s : SharedBlackboard) : e.Kept (e.tickTree tree delta s).2.1 := by
  refine ⟨rfl, rfl, rfl, ?_⟩
  rw [alive]
  exact congrArg some (compiled_evaluate _ tree _)

/-- What a tick does to the blackboard. -/
theorem tickTree_shared (e : Executor T) (tree : LiveTree T) (delta : T) (s : SharedBlackboard) :
    (e.tickTree tree delta s).2.2 = (s.transact fun board => ((), (runTree
      ⟨delta, Clock.add e.elapsed delta, e.tickCount + 1⟩ tree e.outputs e.random
        board).2.2.board)).2 :=
  rfl

theorem tickTree_listeners (e : Executor T) (tree : LiveTree T) (delta : T)
    (s : SharedBlackboard) : (e.tickTree tree delta s).2.2.listeners = s.listeners := by
  rw [tickTree_shared]
  exact s.transact_listeners _

/-- The executor when the time of a tick was taken from the time collected. -/
def paid (e : Executor T) : Executor T :=
  { e with accumulator := Clock.max (Clock.sub e.accumulator e.interval) Clock.zero }

/-- While time enough was collected, a tick is performed, and then the others that are due. -/
theorem tickWhileDue_due {tree : LiveTree T} (alive : e.tree = some tree)
    (due : Clock.reaches e.accumulator e.interval = true) (count : Nat) (s : SharedBlackboard) :
    let first := Outcome.ofTick (e.paid.tickTree tree e.interval s)
    Outcome.ofTicks (tickWhileDue (count + 1) e s) =
      first.followedBy (.ofTicks (tickWhileDue count first.executor first.shared)) := by
  simp only [tickWhileDue, alive, due, if_true]
  rfl

/-- Otherwise no tick is performed. -/
theorem tickWhileDue_early (early : e.tree = none ∨ Clock.reaches e.accumulator e.interval = false)
    (count : Nat) (s : SharedBlackboard) : tickWhileDue count e s = ([], e, s) := by
  cases count with
  | zero => rfl
  | succ count =>
    unfold tickWhileDue
    rcases early with dead | early
    · rw [dead]
    · split
      · rfl
      · rw [if_neg (by simp [early])]

/-- Either a tick is due or none is. -/
theorem due_or_early (e : Executor T) :
    (∃ tree, e.tree = some tree ∧ Clock.reaches e.accumulator e.interval = true) ∨
      (e.tree = none ∨ Clock.reaches e.accumulator e.interval = false) := by
  cases alive : e.tree with
  | none => exact .inr (.inl rfl)
  | some tree =>
    cases due : Clock.reaches e.accumulator e.interval with
    | true => exact .inl ⟨tree, rfl, rfl⟩
    | false => exact .inr (.inr rfl)

theorem tickWhileDue_kept (count : Nat) (e : Executor T) (s : SharedBlackboard) :
    e.Kept (tickWhileDue count e s).2.1 ∧ (tickWhileDue count e s).2.2.listeners = s.listeners := by
  show e.Kept (Outcome.ofTicks (tickWhileDue count e s)).executor ∧
    (Outcome.ofTicks (tickWhileDue count e s)).shared.listeners = s.listeners
  induction count generalizing e s with
  | zero => exact ⟨.refl e, rfl⟩
  | succ count ih =>
    rcases e.due_or_early with ⟨tree, alive, due⟩ | early
    · have paid : e.Kept e.paid := ⟨rfl, rfl, rfl, rfl⟩
      have ticked := paid.trans (tickTree_kept (e := e.paid) alive e.interval s)
      rw [tickWhileDue_due alive due]
      obtain ⟨kept, listeners⟩ := ih (e.paid.tickTree tree e.interval s).2.1
        (e.paid.tickTree tree e.interval s).2.2
      exact ⟨ticked.trans kept,
        listeners.trans (tickTree_listeners e.paid tree e.interval s)⟩
    · rw [tickWhileDue_early early]
      exact ⟨.refl e, rfl⟩

end Ticks

/-! ## Calls -/

/-- What can be asked of an executor. The last two are what others do to the blackboard: to define,
to write, to remove or to rename a variable, or to leave a write for the next tick. -/
inductive Call (T : Type) where
  | start
  | pause
  | resume
  | stop
  | step
  | tick (delta : T)
  | update (frameDelta : T)
  | takeTypeChanges
  | destroy
  /-- A change with its events delivered afterwards, or none if it is refused. -/
  | transact (change : Blackboard → Option Blackboard)
  /-- A change of the blackboard itself. -/
  | direct (change : Blackboard → Blackboard)

/-- The blackboard after a change that others make. -/
def changed (s : SharedBlackboard) (change : Blackboard → Option Blackboard) : SharedBlackboard :=
  match change s.board with
  | some board => (s.transact fun _ => ((), board)).2
  | none => s

/-- The blackboard after a session was closed. -/
def restored (s : SharedBlackboard) : Option BlackboardSnapshot → SharedBlackboard
  | some snapshot => (s.transact fun board => ((), board.restore snapshot)).2
  | none => s

variable [Clock T]

def call (e : Executor T) (s : SharedBlackboard) : Call T → Except ExecutorError (Outcome T)
  | .start => (e.start s).map (⟨[], ·, s⟩)
  | .pause => e.pause.map (⟨[], ·, s⟩)
  | .resume => e.resume.map (⟨[], ·, s⟩)
  | .stop => (e.stop s).map fun result => ⟨[], result.1, result.2⟩
  | .step => (e.step s).map .ofTick
  | .tick delta => (e.tick delta s).map .ofTick
  | .update frameDelta => (e.update frameDelta s).map .ofTicks
  | .takeTypeChanges => .ok ⟨[], e.takeTypeChanges.2, s⟩
  | .destroy => .ok ⟨[], e.destroy, s⟩
  | .transact change => .ok ⟨[], e, changed s change⟩
  | .direct change => .ok ⟨[], e, (s.direct fun board => ((), change board)).2⟩

/-- Makes a call, which may be refused. -/
def perform (e : Executor T) (s : SharedBlackboard) (c : Call T) : Outcome T :=
  match e.call s c with
  | .ok outcome => outcome
  | .error _ => ⟨[], e, s⟩

/-- Makes calls one after the other. -/
def performAll (e : Executor T) (s : SharedBlackboard) : List (Call T) → Outcome T
  | [] => ⟨[], e, s⟩
  | c :: calls =>
    let first := e.perform s c
    first.followedBy (first.executor.performAll first.shared calls)

variable {c : Call T} {o : Outcome T}

theorem perform_of_refused {error : ExecutorError} (refused : e.call s c = .error error) :
    e.perform s c = ⟨[], e, s⟩ := by
  rw [perform, refused]

theorem perform_of_accepted (accepted : e.call s c = .ok o) : e.perform s c = o := by
  rw [perform, accepted]

theorem performAll_append (e : Executor T) (s : SharedBlackboard) (calls later : List (Call T)) :
    e.performAll s (calls ++ later) =
      let first := e.performAll s calls
      first.followedBy (first.executor.performAll first.shared later) := by
  induction calls generalizing e s with
  | nil => rfl
  | cons c calls ih =>
    simp only [List.cons_append, performAll, ih, Outcome.followedBy, List.append_assoc]

/-- What an accepted call does, and when it is accepted. -/
inductive Does (e : Executor T) (s : SharedBlackboard) : Call T → Outcome T → Prop
  | start (alive : e.tree.isSome) (idle : e.state = .idle) :
    Does e s .start ⟨[], { (if e.session.isNone then e.openSession s else e).reset with
      state := .running }, s⟩
  | pause (alive : e.tree.isSome) (running : e.state = .running) :
    Does e s .pause ⟨[], { e with state := .paused }, s⟩
  | resume (alive : e.tree.isSome) (paused : e.state = .paused) :
    Does e s .resume ⟨[], { e with state := .running }, s⟩
  | stop (alive : e.tree.isSome) :
    Does e s .stop ⟨[], { e.reset with session := none, state := .idle }, restored s e.session⟩
  | step {tree : LiveTree T} (still : e.state ≠ .running)
    (alive : (e.stepping s).tree = some tree) :
    Does e s .step (.ofTick ((e.stepping s).tickTree tree (e.stepping s).interval s))
  | tick {delta : T} {tree : LiveTree T} (running : e.state = .running)
    (alive : e.tree = some tree) : Does e s (.tick delta) (.ofTick (e.tickTree tree delta s))
  | update {frameDelta : T} (alive : e.tree.isSome) (running : e.state = .running)
    (checked : ExecutorConfig.checkInterval e.config.tickInterval = .ok ()) :
    Does e s (.update frameDelta)
      (.ofTicks (tickWhileDue e.config.maxTicksPerUpdate (e.addFrame frameDelta) s))
  | wait {frameDelta : T} (alive : e.tree.isSome) (still : e.state ≠ .running) :
    Does e s (.update frameDelta) ⟨[], e, s⟩
  | takeTypeChanges : Does e s .takeTypeChanges ⟨[], { e with typeChanges := [] }, s⟩
  | destroy : Does e s .destroy ⟨[], e.destroy, s⟩
  | transact (change : Blackboard → Option Blackboard) :
    Does e s (.transact change) ⟨[], e, changed s change⟩
  | direct (change : Blackboard → Blackboard) :
    Does e s (.direct change) ⟨[], e, (s.direct fun board => ((), change board)).2⟩

theorem does_of_call (accepted : e.call s c = .ok o) : e.Does s c o := by
  cases c with
  | start =>
    obtain ⟨e', done, rfl⟩ := Checks.map_eq_ok.1 accepted
    obtain ⟨idle, rfl⟩ := of_start done
    obtain ⟨tree, alive, -⟩ := Checks.bind_eq_ok.1 done
    exact .start (isSome_of_liveTree alive) idle
  | pause =>
    obtain ⟨e', done, rfl⟩ := Checks.map_eq_ok.1 accepted
    obtain ⟨running, rfl⟩ := of_pause done
    obtain ⟨tree, alive, -⟩ := Checks.bind_eq_ok.1 done
    exact .pause (isSome_of_liveTree alive) running
  | resume =>
    obtain ⟨e', done, rfl⟩ := Checks.map_eq_ok.1 accepted
    obtain ⟨paused, rfl⟩ := of_resume done
    obtain ⟨tree, alive, -⟩ := Checks.bind_eq_ok.1 done
    exact .resume (isSome_of_liveTree alive) paused
  | stop =>
    obtain ⟨⟨e', s'⟩, done, rfl⟩ := Checks.map_eq_ok.1 accepted
    obtain ⟨tree, alive, done⟩ := Checks.bind_eq_ok.1 done
    obtain ⟨rfl, rfl⟩ := Prod.mk.inj (Except.ok.inj done)
    exact .stop (isSome_of_liveTree alive)
  | step =>
    obtain ⟨⟨report, e', s'⟩, done, rfl⟩ := Checks.map_eq_ok.1 accepted
    obtain ⟨still, tree, alive, ticked⟩ := of_step done
    rw [← ticked]
    exact .step still alive
  | tick delta =>
    obtain ⟨⟨report, e', s'⟩, done, rfl⟩ := Checks.map_eq_ok.1 accepted
    obtain ⟨running, tree, alive, ticked⟩ := of_tick done
    rw [← ticked]
    exact .tick running alive
  | update frameDelta =>
    obtain ⟨⟨reports, e', s'⟩, done, rfl⟩ := Checks.map_eq_ok.1 accepted
    obtain ⟨tree, alive, -⟩ := Checks.bind_eq_ok.1 done
    rcases of_update done with ⟨still, same⟩ | ⟨running, checked, ticked⟩
    · rw [same]
      exact .wait (isSome_of_liveTree alive) still
    · rw [ticked]
      exact .update (isSome_of_liveTree alive) running checked
  | takeTypeChanges =>
    obtain rfl := Except.ok.inj accepted
    exact .takeTypeChanges
  | destroy =>
    obtain rfl := Except.ok.inj accepted
    exact .destroy
  | transact change =>
    obtain rfl := Except.ok.inj accepted
    exact .transact change
  | direct change =>
    obtain rfl := Except.ok.inj accepted
    exact .direct change

theorem step_of_still {tree : LiveTree T} (still : e.state ≠ .running)
    (alive : (e.stepping s).tree = some tree) :
    e.step s = .ok ((e.stepping s).tickTree tree (e.stepping s).interval s) := by
  have was : e.tree.isSome := by
    unfold stepping at alive
    split at alive
    · exact Option.isSome_map.symm.trans (Option.isSome_of_eq_some alive)
    · exact Option.isSome_of_eq_some alive
  obtain ⟨live, was⟩ := liveTree_of_isSome was
  refine Checks.bind_eq_ok.2 ⟨live, was, ?_⟩
  have ticks (ready : Executor T) (same : e.stepping s = ready) :
      (do return ready.tickTree (← ready.liveTree) ready.interval s) =
        (.ok ((e.stepping s).tickTree tree (e.stepping s).interval s) :
          Except ExecutorError _) := by
    rw [← same]
    exact Checks.bind_eq_ok.2 ⟨tree, liveTree_eq_ok.2 alive, rfl⟩
  cases state : e.state with
  | running => exact absurd state still
  | paused => exact ticks e (if_neg (by simp [state]))
  | idle =>
    dsimp only
    split
    · rename_i fresh
      exact ticks _ (if_pos ⟨state, fresh⟩)
    · rename_i open_
      exact ticks e (if_neg fun opens => open_ opens.2)

/-- A call is accepted exactly if it can do what it is said to do. -/
theorem call_eq_ok : e.call s c = .ok o ↔ e.Does s c o := by
  refine ⟨does_of_call, fun does => ?_⟩
  cases does with
  | start alive idle =>
    obtain ⟨tree, alive⟩ := liveTree_of_isSome alive
    exact Checks.map_eq_ok.2 ⟨_, Checks.bind_eq_ok.2
      ⟨tree, alive, Checks.guard_eq_ok.2 ⟨not_not_intro idle, rfl⟩⟩, rfl⟩
  | pause alive running =>
    obtain ⟨tree, alive⟩ := liveTree_of_isSome alive
    exact Checks.map_eq_ok.2 ⟨_, Checks.bind_eq_ok.2
      ⟨tree, alive, Checks.guard_eq_ok.2 ⟨not_not_intro running, rfl⟩⟩, rfl⟩
  | resume alive paused =>
    obtain ⟨tree, alive⟩ := liveTree_of_isSome alive
    exact Checks.map_eq_ok.2 ⟨_, Checks.bind_eq_ok.2
      ⟨tree, alive, Checks.guard_eq_ok.2 ⟨not_not_intro paused, rfl⟩⟩, rfl⟩
  | stop alive =>
    obtain ⟨tree, alive⟩ := liveTree_of_isSome alive
    exact Checks.map_eq_ok.2 ⟨_, Checks.bind_eq_ok.2 ⟨tree, alive, rfl⟩, rfl⟩
  | step still alive => exact Checks.map_eq_ok.2 ⟨_, step_of_still still alive, rfl⟩
  | tick running alive =>
    exact Checks.map_eq_ok.2 ⟨_, Checks.bind_eq_ok.2
      ⟨_, liveTree_eq_ok.2 alive, Checks.guard_eq_ok.2 ⟨not_not_intro running, rfl⟩⟩, rfl⟩
  | update alive running checked =>
    obtain ⟨tree, alive⟩ := liveTree_of_isSome alive
    refine Checks.map_eq_ok.2 ⟨_, Checks.bind_eq_ok.2 ⟨tree, alive, ?_⟩, rfl⟩
    rw [if_neg (not_not_intro running)]
    exact Checks.bind_eq_ok.2 ⟨(), checked, rfl⟩
  | wait alive still =>
    obtain ⟨tree, alive⟩ := liveTree_of_isSome alive
    refine Checks.map_eq_ok.2 ⟨([], e, s), Checks.bind_eq_ok.2 ⟨tree, alive, ?_⟩, rfl⟩
    exact if_pos still
  | _ => rfl

/-- Either a call is refused and nothing happens, or it does what it is said to do. -/
theorem perform_cases (e : Executor T) (s : SharedBlackboard) (c : Call T) :
    ((∃ error, e.call s c = .error error) ∧ e.perform s c = ⟨[], e, s⟩) ∨
      (∃ o, e.call s c = .ok o) ∧ e.Does s c (e.perform s c) := by
  cases made : e.call s c with
  | error error => exact .inl ⟨⟨error, rfl⟩, perform_of_refused made⟩
  | ok o => exact .inr ⟨⟨o, rfl⟩, (perform_of_accepted made).symm ▸ does_of_call made⟩

/-- What every call keeps, every run keeps. -/
theorem performAll_keeps {P : Executor T → SharedBlackboard → Prop}
    (step : ∀ {e s}, P e s → ∀ c, P (e.perform s c).executor (e.perform s c).shared)
    (holds : P e s) (calls : List (Call T)) :
    P (e.performAll s calls).executor (e.performAll s calls).shared := by
  induction calls generalizing e s with
  | nil => exact holds
  | cons c calls ih => exact ih (step holds c)

/-! ## What calls leave as it is -/

theorem changed_listeners (s : SharedBlackboard) (change : Blackboard → Option Blackboard) :
    (changed s change).listeners = s.listeners := by
  unfold changed
  split
  · exact s.transact_listeners _
  · rfl

theorem restored_listeners (s : SharedBlackboard) (session : Option BlackboardSnapshot) :
    (restored s session).listeners = s.listeners := by
  cases session with
  | some snapshot => exact s.transact_listeners _
  | none => rfl

/-- No call subscribes a listener or takes one away. -/
theorem perform_listeners (e : Executor T) (s : SharedBlackboard) (c : Call T) :
    (e.perform s c).shared.listeners = s.listeners := by
  rcases e.perform_cases s c with ⟨-, refused⟩ | ⟨-, does⟩
  · rw [refused]
  · generalize e.perform s c = o at does
    cases does with
    | stop => exact restored_listeners s e.session
    | step => exact tickTree_listeners _ _ _ s
    | tick => exact tickTree_listeners _ _ _ s
    | update => exact (tickWhileDue_kept _ _ s).2
    | transact change => exact changed_listeners s change
    | direct change => exact s.direct_listeners fun board => ((), change board)
    | _ => rfl

theorem runs_new (t : CompiledTree) (config : ExecutorConfig) (entropy : Nat) :
    Runs t config (Executor.new t config entropy : Executor T) := by
  refine ⟨rfl, fun live alive => ?_⟩
  obtain rfl := Option.some.inj alive
  exact LiveTree.compiled_ofCompiled t.root

theorem Runs.reset (runs : e.Runs t config) : e.reset.Runs t config := by
  refine ⟨runs.config, fun live alive => ?_⟩
  obtain ⟨before, was, rfl⟩ := Option.map_eq_some_iff.1 alive
  exact (LiveTree.compiled_reset before).trans (runs.tree before was)

theorem Runs.stepping (runs : e.Runs t config) (s : SharedBlackboard) :
    (e.stepping s).Runs t config := by
  unfold Executor.stepping
  split
  · exact Runs.reset ⟨runs.config, runs.tree⟩
  · exact runs

/-- An executor stays with its tree and its settings. -/
theorem Runs.perform (runs : e.Runs t config) (s : SharedBlackboard) (c : Call T) :
    (e.perform s c).executor.Runs t config := by
  rcases e.perform_cases s c with ⟨-, refused⟩ | ⟨-, does⟩
  · rw [refused]
    exact runs
  · generalize e.perform s c = o at does
    cases does with
    | start alive idle =>
      have opened : Runs t config (if e.session.isNone then e.openSession s else e) := by
        split
        · exact ⟨runs.config, runs.tree⟩
        · exact runs
      exact ⟨opened.reset.config, opened.reset.tree⟩
    | stop alive => exact ⟨runs.reset.config, runs.reset.tree⟩
    | step still alive => exact (runs.stepping s).kept (tickTree_kept alive _ s)
    | tick running alive => exact runs.kept (tickTree_kept alive _ s)
    | @update frameDelta alive running checked =>
      have fed : (e.addFrame frameDelta).Runs t config := ⟨runs.config, runs.tree⟩
      exact fed.kept (tickWhileDue_kept _ _ s).1
    | destroy => exact ⟨runs.config, fun live alive => by cases alive⟩
    | _ => exact ⟨runs.config, runs.tree⟩

theorem runs_performAll (runs : e.Runs t config) (s : SharedBlackboard) (calls : List (Call T)) :
    (e.performAll s calls).executor.Runs t config :=
  performAll_keeps (P := fun e _ => e.Runs t config) (fun runs c => runs.perform _ c) runs calls

/-! ## What runs report -/

section Reports

variable {P : TickReport T → Prop}
  (each : ∀ {e : Executor T} {live : LiveTree T}, e.Runs t config → e.tree = some live →
    ∀ delta s, P (e.tickTree live delta s).1)

include each

theorem tickWhileDue_reports (runs : e.Runs t config) (count : Nat) (s : SharedBlackboard) :
    ∀ r ∈ (Outcome.ofTicks (tickWhileDue count e s)).reports, P r := by
  induction count generalizing e s with
  | zero => exact fun r mem => nomatch mem
  | succ count ih =>
    rcases e.due_or_early with ⟨live, alive, due⟩ | early
    · have paid : e.paid.Runs t config := ⟨runs.config, runs.tree⟩
      rw [tickWhileDue_due alive due]
      refine List.forall_mem_cons.2 ⟨each paid alive e.interval s, ?_⟩
      exact ih (paid.kept (tickTree_kept (e := e.paid) alive e.interval s)) _
    · rw [tickWhileDue_early early]
      exact fun r mem => nomatch mem

theorem perform_reports (runs : e.Runs t config) (s : SharedBlackboard) (c : Call T) :
    ∀ r ∈ (e.perform s c).reports, P r := by
  rcases e.perform_cases s c with ⟨-, refused⟩ | ⟨-, does⟩
  · rw [refused]
    exact fun r mem => nomatch mem
  · generalize e.perform s c = o at does
    cases does with
    | step still alive =>
      exact List.forall_mem_singleton.2 (each (runs.stepping s) alive _ s)
    | tick running alive => exact List.forall_mem_singleton.2 (each runs alive _ s)
    | @update frameDelta alive running checked =>
      have fed : (e.addFrame frameDelta).Runs t config := ⟨runs.config, runs.tree⟩
      exact tickWhileDue_reports each fed _ s
    | _ => exact fun r mem => nomatch mem

/-- What every tick of a tree reports, every run reports. -/
theorem performAll_reports (runs : e.Runs t config) (s : SharedBlackboard)
    (calls : List (Call T)) :
    ∀ r ∈ (e.performAll s calls).reports, P r := by
  induction calls generalizing e s with
  | nil => exact fun r mem => nomatch mem
  | cons c calls ih =>
    exact List.forall_mem_append.2 ⟨perform_reports each runs s c, ih (runs.perform s c) _⟩

end Reports

end Executor

/-- A root above a leaf that counts the ticks in a variable. -/
def countingTree : CompiledTree :=
  let compiled (id : String) (kind : NodeKind) (config : Dict Value) (behavior : Behavior) :
      CompiledNode :=
    { id := id, typeId := id, kind := kind, config := config, bindings := .empty,
      behavior := behavior }
  let key : Dict Value := .ofList [("key", .string "count")]
  ⟨.node (compiled "root" .root .empty .root)
    [.node (compiled "increment" .action key (.handler .increment)) []], []⟩

end BehaviorTree
