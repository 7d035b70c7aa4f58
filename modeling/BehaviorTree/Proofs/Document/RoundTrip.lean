import BehaviorTree.Proofs.Blackboard.Listeners
import BehaviorTree.Proofs.Document.Loading

/-!
# Saving and loading

Every workspace that calls lead to from a new or a loaded one can be saved and loaded
(`document_round_trip`). The graph is loadable because it was edited through commands alone, and the
blackboard is well typed because nothing but the changes of a blackboard happened to it, those of
listeners and of other users of the blackboard included. Where delivery to listeners was cut off,
the changes up to then have happened.
-/

namespace BehaviorTree

namespace SharedBlackboard

/-- What may happen to a shared blackboard without the workspace: changes, which may be made
directly, and listeners that come and go. -/
inductive Step (own : List BlackboardSnapshot) (s : SharedBlackboard) : SharedBlackboard → Prop
  | transact {α : Type} {change : Blackboard → α × Blackboard}
      (changed : Blackboard.Changes own s.board (change s.board).2) :
      Step own s (s.transact change).2
  | direct {α : Type} {change : Blackboard → α × Blackboard}
      (changed : Blackboard.Changes own s.board (change s.board).2) :
      Step own s (s.direct change).2
  | subscribe (react : BlackboardEvent → Blackboard → List Reaction) :
      Step own s (s.subscribe react).2
  | unsubscribe (id : Nat) : Step own s (s.unsubscribe id).2
  | drain : Step own s s.drain.2

variable {own : List BlackboardSnapshot} {s s' : SharedBlackboard}

theorem Step.changes (step : s.Step own s') (lawful : s.Lawful own) :
    Blackboard.Changes own s.board s'.board := by
  cases step with
  | transact changed => exact (transact_follows lawful changed).changes
  | direct changed => exact (changeDirectly_follows [] changed).changes
  | subscribe react => exact .refl
  | unsubscribe id => exact .refl
  | drain => exact .refl

/-- A change that fails does nothing. -/
theorem attempt_changes {ε : Type} (lawful : s.Lawful own)
    {change : Blackboard → Except ε Blackboard}
    (changed : ∀ b, change s.board = .ok b → Blackboard.Changes own s.board b) :
    Blackboard.Changes own s.board (s.attempt change).board := by
  unfold attempt transactExcept
  dsimp only
  cases done : change s.board with
  | error e => exact .refl
  | ok b =>
    have follows : Follows own s (s.transact fun _ => ((), b)).2 :=
      transact_follows lawful (changed b done)
    exact follows.changes

end SharedBlackboard

namespace Workspace

/-- The workspaces that calls lead to, with the snapshots taken of their blackboards so far. What
else happens to the blackboard is one of its steps, and listeners make nothing but changes. -/
inductive Reachable : Workspace → List BlackboardSnapshot → Prop
  | made {ws : Workspace} (starts : ws.Starts) : Reachable ws []
  | loaded {d : TreeDocument} {registry : TemplateRegistry} {ws : Workspace}
      (loaded : d.toWorkspace registry = .ok ws) : Reachable ws []
  | call {ws : Workspace} {own : List BlackboardSnapshot} (reachable : Reachable ws own)
      (lawful : ws.shared.Lawful own) (call : Call)
      (elsewhere : ∀ change, call = .blackboard change → ws.shared.Step own (change ws.shared)) :
      Reachable (ws.perform call) own
  | snapshot {ws : Workspace} {own : List BlackboardSnapshot} (reachable : Reachable ws own) :
      Reachable ws (ws.board.snapshot :: own)

/-- What keeps a workspace loadable. -/
structure Storable (ws : Workspace) (own : List BlackboardSnapshot) : Prop where
  tracked : ws.Tracked (Graph.Loadable ws.registry)
  typed : ws.board.Typed
  snapshots : ∀ s ∈ own, s.Typed

variable {ws : Workspace} {own : List BlackboardSnapshot}

/-- Calls make nothing but changes of the blackboard. -/
theorem sharedAfter_changes (lawful : ws.shared.Lawful own) (call : Call)
    (elsewhere : ∀ change, call = .blackboard change → ws.shared.Step own (change ws.shared)) :
    Blackboard.Changes own ws.board (ws.sharedAfter call).board := by
  cases call with
  | defineVariable name type initial scope =>
    exact SharedBlackboard.attempt_changes lawful fun b done => .single (.define done)
  | setVariable name value scope =>
    exact (SharedBlackboard.transact_follows lawful (.single (.set name value scope))).changes
  | removeVariable name scope =>
    exact (SharedBlackboard.transact_follows lawful (.single (.remove name scope))).changes
  | renameVariable former current scope =>
    exact SharedBlackboard.attempt_changes lawful fun b done => .single (.rename done)
  | enqueueVariable name value scope => exact .single (.enqueue name value scope)
  | blackboard change => exact (elsewhere change rfl).changes lawful
  | _ => exact .refl

theorem Starts.storable (starts : ws.Starts) : Storable ws [] := by
  obtain ⟨⟨history, shared⟩, root, kind, found, graph⟩ := starts.empty
  have loadable : ws.graph.Loadable ws.registry := by
    refine ⟨graph ▸ Graph.wellFormed_new kind, fun t member => ?_⟩
    rw [graph] at member
    obtain rfl : t = root := by simpa [Graph.templates, Graph.new, Node.ofTemplate] using member
    exact ws.registry.keyed _ _ found ▸ found
  refine ⟨tracked_of_empty history loadable, fun scope => ?_, by simp⟩
  rw [board, shared]
  cases scope <;> exact typedVars_empty _

theorem Storable.perform (storable : Storable ws own) (lawful : ws.shared.Lawful own) (call : Call)
    (elsewhere : ∀ change, call = .blackboard change → ws.shared.Step own (change ws.shared)) :
    Storable (ws.perform call) own := by
  have edited := perform_edited (Graph.keeps_loadable ws.registry) call
  refine ⟨?_, ?_, storable.snapshots⟩
  · rw [edited.registry]
    exact edited.tracked (storable.tracked.withShared _)
  · rw [board, edited.shared]
    exact storable.typed.changes storable.snapshots (sharedAfter_changes lawful call elsewhere)

theorem Reachable.storable (reachable : ws.Reachable own) : Storable ws own := by
  induction reachable with
  | made starts => exact starts.storable
  | loaded loaded =>
    obtain ⟨loadable, typed, history⟩ := TreeDocument.loadable_of_toWorkspace loaded
    exact ⟨tracked_of_empty history loadable, typed, by simp⟩
  | call _ lawful call elsewhere ih => exact ih.perform lawful call elsewhere
  | snapshot _ ih =>
    exact ⟨ih.tracked, ih.typed, List.forall_mem_cons.2 ⟨ih.typed.snapshot, ih.snapshots⟩⟩

/-- Loading what was saved of a workspace succeeds and gives back its metadata, its nodes and
connections, and its variables in both scopes. -/
theorem document_round_trip (reachable : ws.Reachable own) :
    ∃ loaded, (TreeDocument.ofWorkspace ws).toWorkspace ws.registry = .ok loaded ∧
      loaded.metadata = ws.metadata ∧
      (loaded.graph.nodes = ws.graph.nodes ∧ loaded.graph.connections = ws.graph.connections) ∧
      loaded.board.tree = ws.board.tree ∧ loaded.board.project = ws.board.project := by
  obtain ⟨tracked, typed, -⟩ := reachable.storable
  exact ⟨_, TreeDocument.toWorkspace_ofWorkspace tracked.holds typed, rfl, ⟨rfl, rfl⟩, rfl, rfl⟩

/-- A leaf below the root of a new workspace and a variable of the project. -/
theorem document_round_trip_new :
    let calls : List Call := [.addNode TypeId.wait {} .empty, .connect Node.rootId "wait-1",
      .setVariable "goal" (.string "door") .project]
    let ws := (Workspace.new "patrol").performAll calls
    ∃ loaded, (TreeDocument.ofWorkspace ws).toWorkspace ws.registry = .ok loaded ∧
      loaded.graph.nodes = ws.graph.nodes ∧ loaded.board.project = ws.board.project := by
  intro calls ws
  have unheard {ws : Workspace} (none : ws.shared.listeners = []) : ws.shared.Lawful [] := by
    simp [SharedBlackboard.Lawful, none]
  have added := (Reachable.made (.new "patrol")).call (unheard rfl)
    (.addNode TypeId.wait {} .empty) (by simp)
  have connected := added.call (unheard rfl) (.connect Node.rootId "wait-1") (by simp)
  have reachable : ws.Reachable [] :=
    connected.call (unheard rfl) (.setVariable "goal" (.string "door") .project) (by simp)
  obtain ⟨loaded, done, -, ⟨nodes, -⟩, -, project⟩ := document_round_trip reachable
  exact ⟨loaded, done, nodes, project⟩

end Workspace

end BehaviorTree
