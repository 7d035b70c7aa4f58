import BehaviorTree.Proofs.Execution.TypeLog
import BehaviorTree.Proofs.Workspace.Sweep

/-!
# Reconciling a graph with what a run has told

A run changes the types of variables without regard to the graph, and leaves a list of these changes
to reconcile the graph with later. Reconciling looks at the present types alone and removes what is
stale of each variable that the list names (`reconcile_eq`). As the list accounts for every type
that is not the former one, no binding is stale afterwards that was not stale before
(`reconciled_run_leaves_nothing_stale`). Listeners are to keep types, and whether delivery to them
is cut off makes no difference.
-/

namespace BehaviorTree

namespace Workspace

variable {ws : Workspace} {name : String} {scope : Scope} {c : Connection}

/-- Reconciling goes through, and removes what is stale of each variable that is named. -/
theorem reconcile_eq (ids : (ws.graph.connections.map (·.id)).Nodup) (changes : List TypeChange) :
    ∃ warnings, (ws.reconcile changes).1 = .ok warnings ∧
      (ws.reconcile changes).2.graph.nodes = ws.graph.nodes ∧
      (ws.reconcile changes).2.shared = ws.shared ∧
      ∀ c ∈ (ws.reconcile changes).2.graph.connections, c ∈ ws.graph.connections ∧
        ∀ name scope, Names changes name scope → ¬ ws.Stale name scope c := by
  obtain ⟨entries, -, -, done⟩ := cascadeAll_sweeps ids (nodup_changedVariables changes)
  rw [reconcile, done]
  refine ⟨_, rfl, rfl, rfl, fun c member => ?_⟩
  obtain ⟨member, fits⟩ := List.mem_filter.1 member
  refine ⟨member, fun name scope names => ?_⟩
  exact of_decide_eq_true fits (name, scope) (mem_changedVariables.2 names)

/-! ## After a run -/

variable {T : Type} [Clock T] {t : CompiledTree} {config : ExecutorConfig} {e : Executor T}

/-- Let an executor without a session, of a tree of handlers that come with the program, be driven
in whichever way on the blackboard of a workspace, while listeners keep the types of variables. When
the graph is then reconciled with what the executor has told, no binding of a variable is stale of
which none was stale before. -/
theorem reconciled_run_leaves_nothing_stale (arises : ws.Arises) (runs : e.Runs t config)
    (builtin : Executor.BuiltinTree t) (closed : e.session = none)
    (listeners : ∀ l ∈ ws.shared.listeners, l.Obeys Blackboard.KeepsTypes)
    (calls : List (Executor.Call T)) (drives : ∀ c ∈ calls, c.Drives) :
    let run := e.performAll ws.shared calls
    let result := ({ ws with shared := run.shared } : Workspace).reconcile
      run.executor.takeTypeChanges.1
    (∃ warnings, result.1 = .ok warnings) ∧
      ∀ name scope v v', ws.board.find? name scope = some v →
        result.2.board.find? name scope = some v' →
        (∀ c ∈ ws.graph.connections, ¬ ws.graph.Misfit name scope v.type c) →
        ∀ c ∈ result.2.graph.connections, ¬ result.2.graph.Misfit name scope v'.type c := by
  intro run result
  let later : Workspace := { ws with shared := run.shared }
  have accounted := (Executor.accounted_of_closed closed listeners).performAll runs builtin calls
    drives
  have ids : (later.graph.connections.map (·.id)).Nodup := arises.consistent.connection_ids
  obtain ⟨warnings, answered, nodes, shared, left⟩ :=
    reconcile_eq ids run.executor.takeTypeChanges.1
  refine ⟨⟨warnings, answered⟩, ?_⟩
  intro name scope v v' defined present fits c member misfit
  obtain ⟨member, removed⟩ := left c member
  have misfit : later.graph.Misfit name scope v'.type c := (Graph.misfit_congr nodes).1 misfit
  have present : later.board.find? name scope = some v' := by
    rw [board, ← shared]
    exact present
  obtain ⟨w, found, same | named⟩ := accounted.board name scope v defined
  · obtain rfl := Option.some.inj (found.symm.trans present)
    rw [same] at misfit
    exact fits c member misfit
  · exact removed name scope named ⟨v', present, misfit⟩

theorem builtinTree_counting : Executor.BuiltinTree countingTree := by
  intro n member h behavior
  have increments : n.behavior = .root ∨ n.behavior = .handler .increment := by
    simp only [CompiledTree.nodes, countingTree, Tree.preorder, Tree.preorders, List.mem_cons,
      List.append_nil, List.not_mem_nil, or_false] at member
    rcases member with rfl | rfl
    · exact .inl rfl
    · exact .inr rfl
  rcases increments with other | increments
  · rw [other] at behavior
    cases behavior
  · rw [increments] at behavior
    cases behavior
    exact .inl (by simp [Handler.builtins])

/-- A write that waits makes a text of a variable. -/
def overdueCalls : List (Executor.Call Number) :=
  [.start, .direct fun board => board.enqueue "delay" (.string "soon") .tree, .tick 1]

/-- What is left of the workspace after a run and a reconciliation. -/
def reconciledAfter (ws : Workspace) (calls : List (Executor.Call Number)) : Workspace :=
  let run := (.new countingTree {} : Executor Number).performAll ws.shared calls
  (({ ws with shared := run.shared } : Workspace).reconcile run.executor.takeTypeChanges.1).2

/-- The variable has become a text, and does not feed the duration of a wait any more. -/
theorem reconciled_run_leaves_nothing_stale_wait :
    ((reconciledAfter boundWorkspace overdueCalls).board.find? "delay" .tree).map (·.type) =
        some .string ∧
      ∀ c ∈ (reconciledAfter boundWorkspace overdueCalls).graph.connections,
        ¬ (reconciledAfter boundWorkspace overdueCalls).graph.Misfit "delay" .tree .string c := by
  have drives : ∀ c ∈ overdueCalls, c.Drives := by
    intro c member
    simp only [overdueCalls, List.mem_cons, List.not_mem_nil, or_false] at member
    rcases member with rfl | rfl | rfl
    · exact .start
    · exact .enqueue "delay" (.string "soon") .tree
    · exact .tick 1
  have runs : (.new countingTree {} : Executor Number).Runs countingTree {} :=
    Executor.runs_new countingTree {} 0
  have listeners : ∀ l ∈ boundWorkspace.shared.listeners, l.Obeys Blackboard.KeepsTypes := by
    rw [listeners_boundWorkspace]
    simp
  have present : (reconciledAfter boundWorkspace overdueCalls).board.find? "delay" .tree =
      some ⟨"delay", .tree, .string, .string "soon"⟩ := by decide +kernel
  have before : ∀ c ∈ boundWorkspace.graph.connections,
      ¬ boundWorkspace.graph.Misfit "delay" .tree .number c := by decide +kernel
  have fits := (reconciled_run_leaves_nothing_stale arises_boundWorkspace runs builtinTree_counting
    rfl listeners overdueCalls drives).2
  exact ⟨congrArg (Option.map (·.type)) present,
    fits "delay" .tree _ _ find?_boundWorkspace present before⟩

/-- The workspace with a listener that makes a text of the variable whenever anything happens. -/
def meddledWorkspace : Workspace :=
  boundWorkspace.perform <| .blackboard fun s =>
    (s.subscribe fun _ _ => [.transact fun b => (b.set "delay" (.string "soon") .tree).2]).2

/-- Where a listener changes a type during a run, the executor does not tell of it, and a binding
that did fit is stale in the end. So it is with a change that was told and taken away before. -/
theorem reconciled_run_leaves_stale :
    let e : Executor Number := .new countingTree {}
    (Executor.BuiltinTree countingTree ∧ e.session = none ∧ e.typeChanges = []) ∧
      (meddledWorkspace.Arises ∧ boundWorkspace.Arises) ∧
      ∀ run ∈ [(meddledWorkspace, [.start, .tick (1 : Number)]),
          (boundWorkspace, overdueCalls ++ [.takeTypeChanges])],
        (run.1.board.find? "delay" .tree).map (·.type) = some .number ∧
        (∀ c ∈ run.1.graph.connections, ¬ run.1.graph.Misfit "delay" .tree .number c) ∧
        ((reconciledAfter run.1 run.2).board.find? "delay" .tree).map (·.type) = some .string ∧
        ∃ c ∈ (reconciledAfter run.1 run.2).graph.connections,
          (reconciledAfter run.1 run.2).graph.Misfit "delay" .tree .string c := by
  refine ⟨⟨builtinTree_counting, rfl, rfl⟩,
    ⟨arises_boundWorkspace.perform _, arises_boundWorkspace⟩, ?_⟩
  intro run member
  simp only [List.mem_cons, List.not_mem_nil, or_false] at member
  rcases member with rfl | rfl
  · decide +kernel
  · decide +kernel

end Workspace

end BehaviorTree
