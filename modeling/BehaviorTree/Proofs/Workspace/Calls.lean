import BehaviorTree.Proofs.History.Timeline
import BehaviorTree.Workspace.Basic

/-!
# Calls of a workspace

Whatever a workspace is asked to do to its graph goes through its history, so the graph of a
workspace is the present of a timeline (`Workspace.Tracked`). `Edited` is what holds between a
workspace before and after its graph was edited: only graph and history differ, and a timeline of
graphs with a property that commands keep (`Keeps`) stays one. `Call.edited` says it of every call.

A call that changes a variable has the listeners told before it is done. Where they keep answering
on the blackboard itself, delivery is cut off (`SharedBlackboard.dispatchBound`), and the workspaces
that calls lead to are those with the blackboard that is left then.
-/

namespace BehaviorTree

/-- A node is added with a template of the registry and without children. -/
def Command.Stocked (registry : TemplateRegistry) : Command → Prop
  | .addNode n => n.children = [] ∧ ∃ typeId, registry.get? typeId = some n.template
  | _ => True

theorem Command.Stocked.childless {registry : TemplateRegistry} {command : Command}
    (stocked : command.Stocked registry) : command.Childless := by
  cases command with
  | addNode n => exact stocked.1
  | _ => trivial

/-- A property of consistent graphs that commands keep. -/
structure Keeps (registry : TemplateRegistry) (P : Graph → Prop) : Prop where
  consistent : ∀ {g : Graph}, P g → g.Consistent
  renumber : ∀ {g : Graph} (number : Nat), P g → P (g.renumber number)
  execute : ∀ {g after : Graph} {command : Command} {receipt : Receipt}, P g →
    command.Stocked registry → command.execute g = .ok (after, receipt) → P after

/-- The timeline with another number given out last in each of its states. -/
def Timeline.renumber (t : Timeline) (number : Nat) : Timeline :=
  ⟨t.past.map (·.renumber number), t.present.renumber number, t.future.map (·.renumber number)⟩

variable {P : Graph → Prop} {registry : TemplateRegistry}

theorem Done.renumber {entries : List (Command × Receipt)} {past : List Graph} {g : Graph}
    (done : Done P entries past g) (keeps : ∀ g number, P g → P (g.renumber number))
    (number : Nat) : Done P entries (past.map (·.renumber number)) (g.renumber number) := by
  induction done with
  | none => exact .none
  | step holds edit _ ih => exact .step (keeps _ _ holds) (Graph.execute_renumber edit) ih

theorem Undone.renumber {commands : List Command} {future : List Graph} {g : Graph}
    (undone : Undone P commands g future) (keeps : ∀ g number, P g → P (g.renumber number))
    (number : Nat) : Undone P commands (g.renumber number) (future.map (·.renumber number)) := by
  induction undone with
  | none => exact .none
  | step holds edit _ ih => exact .step (keeps _ _ holds) (Graph.execute_renumber edit) ih

/-- Giving out an id does not come between a history and its graph. -/
theorem Tracks.renumber {h : History} {t : Timeline} (tracks : Tracks P h t)
    (keeps : ∀ g number, P g → P (g.renumber number)) (number : Nat) :
    Tracks P h (t.renumber number) where
  present := keeps _ _ tracks.present
  done := tracks.done.renumber keeps number
  undone := tracks.undone.renumber keeps number
  bounded := by simpa [Timeline.renumber] using tracks.bounded

/-- The blackboard after a change that may have failed. -/
def SharedBlackboard.attempt {ε : Type} (s : SharedBlackboard)
    (change : Blackboard → Except ε Blackboard) : SharedBlackboard :=
  match s.transactExcept fun board => (change board).map fun board => ((), board) with
  | .ok (_, s) => s
  | .error _ => s

namespace Workspace

/-- The graph is the present of a timeline that the history stands for. -/
def Tracked (P : Graph → Prop) (ws : Workspace) : Prop :=
  ∃ t, Tracks P ws.history t ∧ t.present = ws.graph

theorem Tracked.holds {ws : Workspace} (tracked : ws.Tracked P) : P ws.graph := by
  obtain ⟨t, tracks, eq⟩ := tracked
  exact eq ▸ tracks.present

/-- What holds between a workspace before and after edits of its graph. -/
structure Edited (P : Graph → Prop) (ws after : Workspace) : Prop where
  shared : after.shared = ws.shared
  registry : after.registry = ws.registry
  tracked : ws.Tracked P → after.Tracked P
  remembers : 0 < ws.history.depth → 0 < after.history.depth

theorem Edited.refl (ws : Workspace) : Edited P ws ws := ⟨rfl, rfl, id, id⟩

theorem Edited.trans {ws₁ ws₂ ws₃ : Workspace} (first : Edited P ws₁ ws₂)
    (second : Edited P ws₂ ws₃) : Edited P ws₁ ws₃ :=
  ⟨second.shared.trans first.shared, second.registry.trans first.registry,
    second.tracked ∘ first.tracked, second.remembers ∘ first.remembers⟩

variable {ws : Workspace}

/-! ## The history -/

/-- The workspace after a call of its history. -/
def withHistoryCall (ws : Workspace) (call : HistoryCall) : Workspace :=
  { ws with
    history := (call.perform (ws.history, ws.graph)).2.1
    graph := (call.perform (ws.history, ws.graph)).2.2 }

theorem execute_eq (command : Command) :
    (ws.execute command).2 = ws.withHistoryCall (.execute command) := by
  simp only [execute, withHistoryCall, HistoryCall.perform]
  cases ws.history.execute ws.graph command <;> rfl

/-- A call of the history edits the graph. -/
theorem withHistoryCall_edited (keeps : Keeps ws.registry P) (call : HistoryCall)
    (stocked : ∀ command, call = .execute command → command.Stocked ws.registry) :
    Edited P ws (ws.withHistoryCall call) := by
  refine ⟨rfl, rfl, ?_, ?_⟩
  · rintro ⟨t, tracks, eq⟩
    obtain ⟨h, step, -, tracks'⟩ := tracks.perform (fun g => keeps.consistent) call
      fun command eq after receipt done => keeps.execute tracks.present (stocked command eq) done
    rw [eq] at step
    exact ⟨_, by rwa [withHistoryCall, step], by rw [withHistoryCall, step]⟩
  · intro positive
    rwa [withHistoryCall, HistoryCall.depth_perform]

theorem execute_edited (keeps : Keeps ws.registry P) (command : Command)
    (stocked : command.Stocked ws.registry) : Edited P ws (ws.execute command).2 := by
  rw [execute_eq]
  apply withHistoryCall_edited keeps _
  intro command' eq
  cases eq
  exact stocked

theorem undo_edited (keeps : Keeps ws.registry P) : Edited P ws ws.undo.2 :=
  withHistoryCall_edited keeps .undo (by simp)

theorem redo_edited (keeps : Keeps ws.registry P) : Edited P ws ws.redo.2 :=
  withHistoryCall_edited keeps .redo (by simp)

/-! ## Edits of several steps -/

theorem renumber_edited (keeps : Keeps ws.registry P) (number : Nat) :
    Edited P ws { ws with graph := ws.graph.renumber number } := by
  refine ⟨rfl, rfl, ?_, id⟩
  rintro ⟨t, tracks, eq⟩
  exact ⟨_, tracks.renumber (fun g => keeps.renumber) number,
    congrArg (Graph.renumber · number) eq⟩

theorem addNode_edited (keeps : Keeps ws.registry P) (typeId : String) (position : Position)
    (data : Dict Value) : Edited P ws (ws.addNode typeId position data).2 := by
  unfold addNode
  cases found : ws.registry.get? typeId with
  | none => exact .refl ws
  | some template =>
    have stocked (id : String) : (Command.addNode (.ofTemplate id template position data)).Stocked
        ws.registry := ⟨rfl, typeId, found⟩
    let number := ws.graph.freshNumber typeId ws.graph.nodes.length ws.graph.lastId
    have numbered := renumber_edited keeps number
    have keeps : Keeps ({ ws with graph := ws.graph.renumber number } : Workspace).registry P := keeps
    exact numbered.trans (execute_edited keeps _ (stocked (typeId ++ "-" ++ toString number)))

theorem addConnection_edited (keeps : Keeps ws.registry P) (c : Connection) :
    Edited P ws (ws.addConnection c).2 :=
  execute_edited keeps (.addConnection c) trivial

theorem removeConnection_edited (keeps : Keeps ws.registry P) (source target : String)
    (sourceSlot targetSlot : Option String) :
    Edited P ws (ws.removeConnection source target sourceSlot targetSlot).2 := by
  unfold removeConnection
  split
  · next c _ => exact execute_edited keeps (.disconnect [c]) trivial
  · exact .refl ws

theorem cascade_edited (keeps : Keeps ws.registry P) (name : String) (scope : Scope) :
    Edited P ws (ws.cascade name scope).2 := by
  unfold cascade
  split
  · exact .refl ws
  · next v _ =>
    dsimp only
    split
    · exact .refl ws
    · exact execute_edited keeps
        (.disconnect (ws.graph.incompatibleBindings name scope v.type)) trivial

theorem cascadeAll_edited (keeps : Keeps ws.registry P) (changed : List (String × Scope)) :
    Edited P ws (ws.cascadeAll changed).2 := by
  induction changed generalizing ws with
  | nil => exact .refl ws
  | cons v rest ih =>
    have step := cascade_edited keeps v.1 v.2
    rw [cascadeAll]
    split
    · next eq => rwa [eq] at step
    · next eq =>
      rw [eq] at step
      exact step.trans (ih (step.registry ▸ keeps))

theorem repoint_edited (keeps : Keeps ws.registry P) (name : String) (ids : List String) :
    Edited P ws (ws.repoint name ids).2 := by
  induction ids generalizing ws with
  | nil => exact .refl ws
  | cons id rest ih =>
    have step : Edited P ws (ws.setProperty id "variableName" (some (.string name))).2 :=
      execute_edited keeps (.setProperty id "variableName" (some (.string name))) trivial
    rw [repoint]
    split
    · next eq => rwa [eq] at step
    · next eq =>
      rw [eq] at step
      exact step.trans (ih (step.registry ▸ keeps))

/-! ## New workspaces -/

/-- How a workspace is made. -/
inductive Starts : Workspace → Prop
  | new (name : String) : Starts (.new name)
  | withRegistry {name : String} {registry : TemplateRegistry} {root : NodeTemplate}
      {ws : Workspace} (found : registry.get? TypeId.root = some root) (kind : root.kind = .root)
      (made : withRegistry name registry = .ok ws) : Starts ws

/-- A new workspace has the graph of a root alone, and nothing else yet. -/
theorem Starts.empty (starts : ws.Starts) :
    (ws.history = {} ∧ ws.shared = {}) ∧
      ∃ root, root.kind = .root ∧ ws.registry.get? TypeId.root = some root ∧
        ws.graph = .new root := by
  cases starts with
  | new name => exact ⟨⟨rfl, rfl⟩, _, rfl, rfl, rfl⟩
  | withRegistry found kind made =>
    rw [Workspace.withRegistry, found] at made
    obtain rfl := Except.ok.inj made
    exact ⟨⟨rfl, rfl⟩, _, kind, found, rfl⟩

/-- A graph without a history is a timeline of one state. -/
theorem tracked_of_empty {P : Graph → Prop} (empty : ws.history = {}) (holds : P ws.graph) :
    ws.Tracked P :=
  ⟨{ present := ws.graph }, empty ▸ tracks_start holds, rfl⟩

/-! ## Calls -/

/-- What can be asked of a workspace. `blackboard` stands for whatever happens to the blackboard
without the workspace. -/
inductive Call where
  | addNode (typeId : String) (position : Position) (data : Dict Value)
  | removeNodes (ids : List String)
  | moveNodes (moves : Dict Position)
  | connect (parent child : String)
  | bind (source target slot : String)
  | addConnection (connection : Connection)
  | removeConnection (source target : String) (sourceSlot targetSlot : Option String)
  | setProperty (node key : String) (value : Option Value)
  | undo
  | redo
  | defineVariable (name : String) (type : ValueType) (initial : Value) (scope : Scope)
  | setVariable (name : String) (value : Value) (scope : Scope)
  | removeVariable (name : String) (scope : Scope)
  | renameVariable (former current : String) (scope : Scope)
  | enqueueVariable (name : String) (value : Value) (scope : Scope)
  | reconcile (changes : List TypeChange)
  | describe (metadata : TreeMetadata)
  | withHistoryDepth (depth : Nat)
  | blackboard (change : SharedBlackboard → SharedBlackboard)

/-- The workspace after a call, which may have been rejected. -/
def perform (ws : Workspace) : Call → Workspace
  | .addNode typeId position data => (ws.addNode typeId position data).2
  | .removeNodes ids => (ws.removeNodes ids).2
  | .moveNodes moves => (ws.moveNodes moves).2
  | .connect parent child => (ws.connect parent child).2
  | .bind source target slot => (ws.bind source target slot).2
  | .addConnection connection => (ws.addConnection connection).2
  | .removeConnection source target sourceSlot targetSlot =>
    (ws.removeConnection source target sourceSlot targetSlot).2
  | .setProperty node key value => (ws.setProperty node key value).2
  | .undo => ws.undo.2
  | .redo => ws.redo.2
  | .defineVariable name type initial scope => (ws.defineVariable name type initial scope).2
  | .setVariable name value scope => (ws.setVariable name value scope).2
  | .removeVariable name scope => (ws.removeVariable name scope).2
  | .renameVariable former current scope => (ws.renameVariable former current scope).2
  | .enqueueVariable name value scope => ws.enqueueVariable name value scope
  | .reconcile changes => (ws.reconcile changes).2
  | .describe metadata => { ws with metadata := metadata }
  | .withHistoryDepth depth => ws.withHistoryDepth depth
  | .blackboard change => { ws with shared := change ws.shared }

/-- The workspace after calls one after the other. -/
def performAll (ws : Workspace) (calls : List Call) : Workspace := calls.foldl perform ws

/-- What a call does to the blackboard. -/
def sharedAfter (ws : Workspace) : Call → SharedBlackboard
  | .defineVariable name type initial scope =>
    ws.shared.attempt fun board => board.define name type initial scope
  | .setVariable name value scope => (ws.shared.transact fun board => board.set name value scope).2
  | .removeVariable name scope => (ws.shared.transact fun board => board.remove name scope).2
  | .renameVariable former current scope =>
    ws.shared.attempt fun board => board.rename former current scope
  | .enqueueVariable name value scope =>
    { ws.shared with board := ws.board.enqueue name value scope }
  | .blackboard change => change ws.shared
  | _ => ws.shared

/-- A call changes the blackboard, and then edits the graph. -/
theorem perform_edited (keeps : Keeps ws.registry P) (call : Call) :
    Edited P { ws with shared := ws.sharedAfter call } (ws.perform call) := by
  have changed : Keeps ({ ws with shared := ws.sharedAfter call } : Workspace).registry P := keeps
  cases call with
  | addNode typeId position data => exact addNode_edited keeps typeId position data
  | removeNodes ids => exact execute_edited keeps (.removeNodes ids) trivial
  | moveNodes moves => exact execute_edited keeps (.moveNodes moves) trivial
  | connect parent child => exact addConnection_edited keeps (.toChild parent child)
  | bind source target slot => exact addConnection_edited keeps (.toSlot source target slot)
  | addConnection connection => exact addConnection_edited keeps connection
  | removeConnection source target sourceSlot targetSlot =>
    exact removeConnection_edited keeps source target sourceSlot targetSlot
  | setProperty node key value =>
    exact execute_edited keeps (.setProperty node key value) trivial
  | undo => exact undo_edited keeps
  | redo => exact redo_edited keeps
  | defineVariable name type initial scope =>
    simp only [perform, defineVariable, sharedAfter, SharedBlackboard.attempt]
    cases ws.shared.transactExcept fun board =>
      (board.define name type initial scope).map fun board => ((), board) <;> exact .refl _
  | setVariable name value scope =>
    simp only [perform, setVariable]
    split
    · exact cascade_edited changed _ _
    · exact .refl _
  | removeVariable name scope => exact .refl _
  | renameVariable former current scope =>
    simp only [perform, renameVariable, sharedAfter, SharedBlackboard.attempt]
    cases ws.shared.transactExcept fun board =>
      (board.rename former current scope).map fun board => ((), board) with
    | error e => exact .refl _
    | ok result =>
      have keeps : Keeps ({ ws with shared := result.2 } : Workspace).registry P := keeps
      exact repoint_edited keeps current _
  | enqueueVariable name value scope => exact .refl _
  | reconcile changes => exact cascadeAll_edited keeps (changedVariables changes)
  | describe metadata => exact ⟨rfl, rfl, id, id⟩
  | withHistoryDepth depth =>
    exact ⟨rfl, rfl, fun tracked => ⟨{ present := ws.graph }, tracks_start tracked.holds, rfl⟩,
      fun _ => Nat.le_max_right depth 1⟩
  | blackboard change => exact .refl _

/-- A blackboard that changes leaves the graph and its history alone. -/
theorem Tracked.withShared (tracked : ws.Tracked P) (shared : SharedBlackboard) :
    ({ ws with shared := shared } : Workspace).Tracked P := tracked

/-- Every call keeps a timeline of graphs with a property that commands keep. -/
theorem Tracked.perform (tracked : ws.Tracked P) (keeps : Keeps ws.registry P) (call : Call) :
    (ws.perform call).Tracked P :=
  (perform_edited keeps call).tracked (tracked.withShared _)

theorem Tracked.performAll (tracked : ws.Tracked P) (keeps : Keeps ws.registry P)
    (calls : List Call) : (ws.performAll calls).Tracked P := by
  induction calls generalizing ws with
  | nil => exact tracked
  | cons call rest ih =>
    exact ih (tracked.perform keeps call) ((perform_edited keeps call).registry ▸ keeps)

end Workspace

end BehaviorTree
