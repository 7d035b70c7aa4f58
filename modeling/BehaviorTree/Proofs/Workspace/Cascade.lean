import BehaviorTree.Proofs.Blackboard.Types
import BehaviorTree.Proofs.Document.Loading
import BehaviorTree.Proofs.Graph.Misfits

/-!
# What a change of type removes

A binding is stale if it leads from a variable into a slot that does not take the present type of
the variable (`Workspace.Stale`). A cascade for a variable removes its stale bindings as one entry
of the history (`cascade_of_misfit`). Writing a variable is such a cascade if it changes the type,
and touches neither graph nor history if it does not (`setVariable_cascades`).

It goes through in every workspace that calls lead to (`Arises`), however it was made, because its
connections are told apart by their ids.
-/

namespace BehaviorTree

namespace Graph

theorem keeps_consistent (registry : TemplateRegistry) : Keeps registry Consistent where
  consistent := id
  renumber _ := Consistent.renumber
  execute consistent stocked := consistent.execute stocked.childless

end Graph

/-- A history with one more command done. -/
def History.remembering (h : History) (command : Command) (receipt : Receipt) : History :=
  { h with done := ((command, receipt) :: h.done).take h.depth, undone := [] }

namespace Workspace

/-! ## Workspaces that arise -/

/-- How a workspace comes about: made for the builtin templates or for others, or loaded. -/
inductive Opened : Workspace → Prop
  | new (name : String) : Opened (.new name)
  | withRegistry {name : String} {registry : TemplateRegistry} {ws : Workspace}
      (made : withRegistry name registry = .ok ws) : Opened ws
  | loaded {d : TreeDocument} {registry : TemplateRegistry} {ws : Workspace}
      (loaded : d.toWorkspace registry = .ok ws) : Opened ws

/-- A workspace that calls lead to. -/
def Arises (ws : Workspace) : Prop :=
  ∃ origin calls, Opened origin ∧ ws = origin.performAll calls

variable {ws : Workspace} {name : String} {scope : Scope} {v : Variable} {c : Connection}

theorem Opened.consistent (opened : ws.Opened) :
    ws.Tracked Graph.Consistent ∧ 0 < ws.history.depth := by
  cases opened with
  | new name =>
    exact ⟨tracked_of_empty rfl (Graph.consistent_new _), Nat.succ_pos 99⟩
  | withRegistry made =>
    unfold Workspace.withRegistry at made
    split at made
    · cases made
    · obtain rfl := Except.ok.inj made
      exact ⟨tracked_of_empty rfl (Graph.consistent_new _), Nat.succ_pos 99⟩
  | loaded loaded =>
    obtain ⟨loadable, -, history⟩ := TreeDocument.loadable_of_toWorkspace loaded
    refine ⟨tracked_of_empty history loadable.wellFormed.consistent, ?_⟩
    rw [history]
    exact Nat.succ_pos 99

theorem performAll_remembers (calls : List Call) (positive : 0 < ws.history.depth) :
    0 < (ws.performAll calls).history.depth := by
  induction calls generalizing ws with
  | nil => exact positive
  | cons call rest ih =>
    exact ih ((perform_edited (Graph.keeps_consistent ws.registry) call).remembers positive)

theorem Arises.tracked (arises : ws.Arises) : ws.Tracked Graph.Consistent := by
  obtain ⟨origin, calls, opened, rfl⟩ := arises
  exact opened.consistent.1.performAll (Graph.keeps_consistent _) calls

theorem Arises.consistent (arises : ws.Arises) : ws.graph.Consistent := arises.tracked.holds

theorem Arises.remembers (arises : ws.Arises) : 0 < ws.history.depth := by
  obtain ⟨origin, calls, opened, rfl⟩ := arises
  exact performAll_remembers calls opened.consistent.2

theorem Arises.perform (arises : ws.Arises) (call : Call) : (ws.perform call).Arises := by
  obtain ⟨origin, calls, opened, rfl⟩ := arises
  refine ⟨origin, calls ++ [call], opened, ?_⟩
  simp [performAll]

theorem execute_of_ok {command : Command} {after : Graph} {receipt : Receipt}
    (done : command.execute ws.graph = .ok (after, receipt)) : ws.execute command =
      (.ok (), { ws with graph := after, history := ws.history.remembering command receipt }) := by
  have remembered : ws.history.execute ws.graph command =
      .ok (ws.history.remembering command receipt, after) :=
    Checks.bind_eq_ok.2 ⟨_, done, rfl⟩
  rw [execute, remembered]

/-- A command that was just done is what undoing takes back. -/
theorem undo_remembering {command : Command} {after : Graph} {receipt : Receipt}
    (consistent : ws.graph.Consistent) (remembers : 0 < ws.history.depth)
    (done : command.execute ws.graph = .ok (after, receipt)) (shared : SharedBlackboard) :
    ∃ history, undo { ws with
        graph := after
        history := ws.history.remembering command receipt
        shared := shared } =
      (true, { ws with history := history, shared := shared }) := by
  have latest : (ws.history.remembering command receipt).done =
      (command, receipt) :: ws.history.done.take (ws.history.depth - 1) := by
    obtain ⟨depth, eq⟩ := Nat.exists_eq_add_of_lt remembers
    rw [History.remembering, eq, Nat.zero_add, List.take_succ_cons, Nat.add_sub_cancel]
  have back := consistent.undo_execute done
  rw [undo]
  dsimp only
  rw [History.undo, latest]
  dsimp only
  rw [back]
  exact ⟨_, rfl⟩

/-! ## One variable -/

/-- A connection leads from a variable into a slot that does not take the variable's type. -/
def Stale (ws : Workspace) (name : String) (scope : Scope) (c : Connection) : Prop :=
  ∃ v, ws.board.find? name scope = some v ∧ ws.graph.Misfit name scope v.type c

theorem stale_iff (found : ws.board.find? name scope = some v) :
    ws.Stale name scope c ↔ ws.graph.Misfit name scope v.type c := by
  simp [Stale, found]

instance : DecidablePred (ws.Stale name scope) := fun c =>
  match found : ws.board.find? name scope with
  | some _ => decidable_of_iff _ (stale_iff found).symm
  | none => isFalse (by simp [Stale, found])

/-- Where all bindings of a variable fit, a cascade does nothing. -/
theorem cascade_of_fit (fit : ∀ v, ws.board.find? name scope = some v →
    ws.graph.incompatibleBindings name scope v.type = []) :
    ws.cascade name scope = (.ok none, ws) := by
  unfold cascade
  cases found : ws.board.find? name scope with
  | none => rfl
  | some v =>
    dsimp only
    rw [fit v found]
    rfl

/-- Where some do not, it disconnects them by one command that is remembered. -/
theorem cascade_of_misfit (ids : (ws.graph.connections.map (·.id)).Nodup)
    (found : ws.board.find? name scope = some v)
    (misfit : ws.graph.incompatibleBindings name scope v.type ≠ []) :
    let removed := ws.graph.incompatibleBindings name scope v.type
    ∃ receipt, (Command.disconnect removed).execute ws.graph =
        .ok (ws.graph.withoutMisfits name scope v.type, receipt) ∧
      ws.cascade name scope = (.ok (some ⟨name, scope, v.type, removed⟩), { ws with
        graph := ws.graph.withoutMisfits name scope v.type
        history := ws.history.remembering (.disconnect removed) receipt }) := by
  intro removed
  obtain ⟨receipt, done⟩ := Graph.execute_disconnect_misfits ids name scope v.type
  refine ⟨receipt, done, ?_⟩
  have some_removed : ¬ removed.isEmpty = true := by rwa [List.isEmpty_iff]
  unfold cascade
  rw [found]
  dsimp only
  rw [if_neg some_removed, execute_of_ok done]
  rfl

/-! ## A write -/

/-- A write to a variable that is defined, with listeners that change nothing: the variable has the
value, and the cascade is done exactly if the type has changed. -/
theorem setVariable_eq (unchanging : ws.shared.Unchanging)
    (defined : ws.board.find? name scope = some v) (value : Value) :
    ∃ shared : SharedBlackboard,
      shared.board.find? name scope =
        some ⟨name, scope, Blackboard.typeAfter v.type value scope, value⟩ ∧
      ws.setVariable name value scope =
        if v.type = Blackboard.typeAfter v.type value scope then
          (.ok none, { ws with shared := shared })
        else ({ ws with shared := shared } : Workspace).cascade name scope := by
  let written := ws.shared.transact fun board => board.set name value scope
  have contents := (SharedBlackboard.transact_contents unchanging
    fun board => board.set name value scope).1
  have change : written.1 = _ := Blackboard.set_change defined value
  refine ⟨written.2, ?_, ?_⟩
  · show written.2.board.find? name scope = _
    rw [contents, Blackboard.find?_contents]
    exact Blackboard.find?_set_self defined value
  · have done : ws.shared.transact (fun board => board.set name value scope) =
        (written.1, written.2) := rfl
    rw [setVariable, done, change]
    split_ifs <;> rfl

/-- Either a write removes nothing, or it removes misfits by a command that is remembered. -/
theorem setVariable_cases (ids : (ws.graph.connections.map (·.id)).Nodup)
    (unchanging : ws.shared.Unchanging) (defined : ws.board.find? name scope = some v)
    (value : Value) :
    let type := Blackboard.typeAfter v.type value scope
    let removed := ws.graph.incompatibleBindings name scope type
    ∃ shared : SharedBlackboard,
      shared.board.find? name scope = some ⟨name, scope, type, value⟩ ∧
      ((v.type = type ∨ removed = []) ∧
          ws.setVariable name value scope = (.ok none, { ws with shared := shared }) ∨
        v.type ≠ type ∧ removed ≠ [] ∧ ∃ receipt,
          (Command.disconnect removed).execute ws.graph =
            .ok (ws.graph.withoutMisfits name scope type, receipt) ∧
          ws.setVariable name value scope = (.ok (some ⟨name, scope, type, removed⟩), { ws with
            graph := ws.graph.withoutMisfits name scope type
            history := ws.history.remembering (.disconnect removed) receipt
            shared := shared })) := by
  intro type removed
  obtain ⟨shared, stored, eq⟩ := setVariable_eq unchanging defined value
  refine ⟨shared, stored, ?_⟩
  let written : Workspace := { ws with shared := shared }
  have found : written.board.find? name scope = some ⟨name, scope, type, value⟩ := stored
  by_cases same : v.type = type
  · rw [if_pos same] at eq
    exact .inl ⟨.inl same, eq⟩
  · rw [if_neg same] at eq
    by_cases fit : removed = []
    · refine .inl ⟨.inr fit, eq.trans (cascade_of_fit fun w present => ?_)⟩
      obtain rfl := Option.some.inj (found.symm.trans present)
      exact fit
    · have ids : (written.graph.connections.map (·.id)).Nodup := ids
      obtain ⟨receipt, executed, done⟩ := cascade_of_misfit ids found fit
      exact .inr ⟨same, fit, receipt, executed, eq.trans done⟩

/-- Writing a variable that is defined always goes through, and the variable has the value after
it. A write that changes the type removes the bindings from the variable that do not take the new
type, and these alone; the warning lists them in the order of the connections, and undoing the one
command brings the graph back and leaves the variable. Where there is nothing to remove, or the type
is the same, graph and history stay as they are. -/
theorem setVariable_cascades (arises : ws.Arises) (unchanging : ws.shared.Unchanging)
    (defined : ws.board.find? name scope = some v) (value : Value) :
    let type := Blackboard.typeAfter v.type value scope
    let removed := ws.graph.connections.filter fun c => ws.graph.Misfit name scope type c
    let result := (ws.setVariable name value scope).1
    let after := (ws.setVariable name value scope).2
    after.board.find? name scope = some ⟨name, scope, type, value⟩ ∧
      (v.type ≠ type → (∀ c ∈ after.graph.connections, ¬ after.graph.Misfit name scope type c) ∧
        after.graph = { ws.graph with
          connections := ws.graph.connections.filter fun c =>
            ¬ ws.graph.Misfit name scope type c }) ∧
      (v.type ≠ type → removed ≠ [] → result = .ok (some ⟨name, scope, type, removed⟩) ∧
        (∃ entry, after.history = { ws.history with
          done := (entry :: ws.history.done).take ws.history.depth, undone := [] }) ∧
        ∃ back, after.undo = (true, back) ∧ back.graph = ws.graph ∧
          back.board.find? name scope = some ⟨name, scope, type, value⟩) ∧
      (v.type = type ∨ removed = [] →
        result = .ok none ∧ after.graph = ws.graph ∧ after.history = ws.history) := by
  intro type removed result after
  have consistent := arises.consistent
  have listed : ws.graph.incompatibleBindings name scope type = removed :=
    Graph.incompatibleBindings_eq
  obtain ⟨shared, found, cases⟩ :=
    setVariable_cases consistent.connection_ids unchanging defined value
  rcases cases with ⟨same, eq⟩ | ⟨changed, misfit, receipt, executed, eq⟩
  · have result_eq : result = .ok none := congrArg Prod.fst eq
    have after_eq : after = { ws with shared := shared } := congrArg Prod.snd eq
    clear_value result after
    subst result_eq after_eq
    refine ⟨found, fun changed => ?_, fun changed misfit => ?_, fun _ => ⟨rfl, rfl, rfl⟩⟩
    · have whole := Graph.withoutMisfits_eq_self (same.resolve_left changed)
      have none_left := ws.graph.not_misfit_withoutMisfits name scope type
      rw [whole] at none_left
      exact ⟨none_left, whole.symm⟩
    · exact absurd (listed.symm.trans (same.resolve_left changed)) misfit
  · have result_eq : result = .ok (some ⟨name, scope, type, _⟩) := congrArg Prod.fst eq
    have after_eq : after = { ws with graph := _, history := _, shared := shared } :=
      congrArg Prod.snd eq
    clear_value result after
    subst result_eq after_eq
    obtain ⟨history, back⟩ := undo_remembering consistent arises.remembers executed shared
    refine ⟨found, fun _ => ⟨Graph.not_misfit_withoutMisfits _ _ _ _, rfl⟩, fun _ _ => ?_,
      fun same => ?_⟩
    · exact ⟨by rw [← listed], ⟨_, rfl⟩, _, back, rfl, found⟩
    · exact absurd same (not_or.2 ⟨changed, listed ▸ misfit⟩)

/-- A variable that feeds the message of a log line and the duration of a wait, in a new
workspace. -/
def boundCalls : List Call :=
  [.defineVariable "delay" .number (.number 1) .tree,
    .addNode TypeId.blackboardVariable {} (.ofList [("variableName", .string "delay")]),
    .addNode TypeId.log {} .empty, .addNode TypeId.wait {} .empty,
    .bind "blackboard-variable-1" "log-2" "message",
    .bind "blackboard-variable-1" "wait-3" "duration"]

def boundWorkspace : Workspace := (Workspace.new "patrol").performAll boundCalls

theorem arises_boundWorkspace : boundWorkspace.Arises := ⟨_, boundCalls, .new "patrol", rfl⟩

theorem listeners_boundWorkspace : boundWorkspace.shared.listeners = [] := by decide +kernel

theorem find?_boundWorkspace : boundWorkspace.board.find? "delay" .tree =
    some ⟨"delay", .tree, .number, .number 1⟩ := by decide +kernel

/-- When the variable becomes a text, only the wait loses it. -/
theorem setVariable_cascades_wait :
    let result := boundWorkspace.setVariable "delay" (.string "soon") .tree
    result.1 = .ok (some ⟨"delay", .tree, .string,
        [.toSlot "blackboard-variable-1" "wait-3" "duration"]⟩) ∧
      result.2.graph.connections = [.toSlot "blackboard-variable-1" "log-2" "message"] := by
  have unchanging : boundWorkspace.shared.Unchanging := by
    rw [SharedBlackboard.Unchanging, listeners_boundWorkspace]
    simp
  obtain ⟨-, changes, removes, -⟩ := setVariable_cascades arises_boundWorkspace unchanging
    find?_boundWorkspace (.string "soon")
  have changed : ValueType.number ≠ Blackboard.typeAfter .number (.string "soon") .tree := by decide
  have removed : (boundWorkspace.graph.connections.filter fun c =>
      boundWorkspace.graph.Misfit "delay" .tree
        (Blackboard.typeAfter .number (.string "soon") .tree) c) =
      [.toSlot "blackboard-variable-1" "wait-3" "duration"] := by decide +kernel
  obtain ⟨warned, -⟩ := removes changed (by rw [removed]; simp)
  rw [removed] at warned
  refine ⟨warned, ?_⟩
  rw [(changes changed).2]
  decide +kernel

end Workspace

end BehaviorTree
