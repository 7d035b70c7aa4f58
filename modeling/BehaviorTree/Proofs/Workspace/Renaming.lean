import BehaviorTree.Proofs.Blackboard.Store
import BehaviorTree.Proofs.Compilation.Renaming
import BehaviorTree.Proofs.Workspace.Cascade

/-!
# Renaming a variable

A variable is renamed on the blackboard first, and then in the configuration of one node after the
other, by a command for each. Both halves are one `Renaming`, so what was compiled before is compiled
again, under the new name (`Workspace.renameVariable_preserves_compilation`). Listeners are told in
between. If they leave the blackboard as it is, nothing but the renaming has happened to it; if one
of them removes the variable, the nodes come to name a variable that does not exist
(`Workspace.renameVariable_loses_compilation`). The blackboard that listeners leave which keep
answering on the blackboard itself is the one that there is when delivery to them is cut off.
-/

namespace BehaviorTree

open Checks

/-! ## On the blackboard -/

/-- A variable got another name on a blackboard. -/
structure Renaming.Moves (r : Renaming) (v : Variable) (b b' : Blackboard) : Prop where
  former : b.find? r.former r.scope = some v
  free : b.find? r.current r.scope = none
  current : b'.find? r.current r.scope = some { v with name := r.current }
  gone : b'.find? r.former r.scope = none
  others : ∀ name scope, ¬ (scope = r.scope ∧ (name = r.former ∨ name = r.current)) →
    b'.find? name scope = b.find? name scope
  queue : b'.queue = b.queue

namespace Blackboard

variable {b renamed : Blackboard} {name former current : String} {scope : Scope}

theorem queue_withVars (b : Blackboard) (scope : Scope) (vars : Dict Variable) :
    (b.withVars scope vars).queue = b.queue := by
  cases scope <;> rfl

theorem contains_iff : b.contains name scope = true ↔ ∃ v, b.find? name scope = some v :=
  Option.isSome_iff_exists

theorem contains_snapshot (b : Blackboard) (name : String) (scope : Scope) :
    b.snapshot.contains name scope = b.contains name scope := by
  cases scope <;> rfl

theorem moves_of_rename (done : b.rename former current scope = .ok renamed) :
    ∃ v, (⟨former, current, scope⟩ : Renaming).Moves v b renamed := by
  unfold rename at done
  obtain ⟨free, done⟩ := guard_eq_ok.1 done
  have free : b.find? current scope = none := contains_eq_false_iff.1 (by simpa using free)
  cases found : b.find? former scope with
  | none => simp [found] at done
  | some v =>
    rw [found] at done
    obtain rfl := Except.ok.inj done
    have differ : former ≠ current := by
      rintro rfl
      rw [found] at free
      cases free
    let vars := ((b.vars scope).erase former).insert current { v with name := current }
    have there (name : String) (other : Scope) :
        ((b.withVars scope vars).raise (.renamed former current scope)).find? name other =
          if other = scope then vars.get? name else b.find? name other := by
      rw [find?_raise, find?, vars_withVars]
      split <;> rfl
    refine ⟨v, found, free, ?_, ?_, ?_, queue_withVars b scope vars⟩
    · exact (there current scope).trans ((if_pos rfl).trans (Dict.get?_insert_self _ _ _))
    · refine (there former scope).trans ((if_pos rfl).trans ?_)
      rw [Dict.get?_insert_of_ne _ differ, Dict.get?_erase_self]
    · intro name other apart
      refine (there name other).trans ?_
      split
      · next here =>
        obtain ⟨notFormer, notCurrent⟩ := not_or.1 fun either => apart ⟨here, either⟩
        rw [Dict.get?_insert_of_ne _ notCurrent, Dict.get?_erase_of_ne _ notFormer, here]
        rfl
      · rfl

end Blackboard

namespace Renaming.Moves

variable {r : Renaming} {v : Variable} {b b' : Blackboard} (moves : r.Moves v b b')

include moves

/-- What was defined is defined under the name that it has now. -/
theorem contains {name : String} {scope : Scope} (defined : b.contains name scope = true) :
    b'.contains (r.onName name scope) scope = true := by
  rw [Blackboard.contains_iff] at defined ⊢
  by_cases here : name = r.former ∧ scope = r.scope
  · obtain ⟨rfl, rfl⟩ := here
    rw [r.onName_self]
    exact ⟨_, moves.current⟩
  · rw [r.onName_of_ne here, moves.others]
    · exact defined
    · rintro ⟨rfl, rfl | rfl⟩
      · exact here ⟨rfl, rfl⟩
      · obtain ⟨w, found⟩ := defined
        rw [moves.free] at found
        cases found

/-- What compiles before compiles under the new name, whatever else is defined by then. -/
theorem build {after : Blackboard} {builder : TreeBuilder} {g : Graph} {t : CompiledTree}
    (kept : ∀ name s, b'.contains name s = true → after.contains name s = true)
    (built : builder.build g b.snapshot = .ok t) :
    builder.build (r.onGraph g) after.snapshot = .ok (r.onTree t) := by
  refine TreeBuilder.build_renamed r (fun name s defined => ?_) built
  rw [Blackboard.contains_snapshot] at defined ⊢
  exact kept _ _ (moves.contains defined)

theorem contents : r.Moves v b b'.contents where
  former := moves.former
  free := moves.free
  current := (b'.find?_contents _ _).trans moves.current
  gone := (b'.find?_contents _ _).trans moves.gone
  others name scope apart := (b'.find?_contents _ _).trans (moves.others name scope apart)
  queue := moves.queue

end Renaming.Moves

/-! ## In the graph -/

theorem Node.keepsIds_pointAt (name : String) : Graph.KeepsIds (Node.pointAt name) := fun _ => rfl

namespace Graph

variable {g : Graph} {id : String}

/-- The graph in which the nodes of some ids point at a variable. -/
def pointAt (g : Graph) (ids : List String) (name : String) : Graph :=
  { g with nodes := g.nodes.map fun n => if n.id ∈ ids then n.pointAt name else n }

/-- The ids of the nodes that point at a variable. -/
def referring (g : Graph) (name : String) (scope : Scope) : List String :=
  (g.nodes.filter fun n => n.variableReference? == some (name, scope)).map Node.id

/-- Writing the name into a node makes that node point at the variable. -/
theorem Distinct.setProperty_name (distinct : g.Distinct) (present : g.contains id = true)
    (name : String) : ∃ before, g.setProperty id "variableName" (some (.string name)) =
      .ok (g.update id (Node.pointAt name), before) := by
  obtain ⟨n, found⟩ := exists_node? present
  refine ⟨_, setProperty_eq_ok.2 ⟨n, found, rfl, ?_⟩⟩
  have same : ∀ m ∈ g.nodes, (if m.id = id then m.pointAt name else m) =
      if m.id = id then { m with data := writeEntry n.data "variableName" (some (.string name)) }
        else m := by
    intro m member
    by_cases here : m.id = id
    · obtain rfl := Option.some.inj (found.symm.trans (here ▸ distinct.node?_of_mem member))
      rw [if_pos here, if_pos here]
      rfl
    · rw [if_neg here, if_neg here]
  rw [Graph.update, Graph.update, List.map_congr_left same]

theorem pointAt_cons {ids : List String} (new : id ∉ ids) (name : String) :
    (g.update id (Node.pointAt name)).pointAt ids name = g.pointAt (id :: ids) name := by
  simp only [pointAt, update, List.map_map]
  congr 1
  apply List.map_congr_left
  intro n _
  by_cases here : n.id = id
  · have later : (n.pointAt name).id ∉ ids := here ▸ new
    simp only [Function.comp_apply, here, if_true, List.mem_cons, true_or]
    exact if_neg later
  · simp [here]

theorem contains_of_referring {name : String} {scope : Scope} (listed : id ∈ g.referring name scope) :
    g.contains id = true := by
  obtain ⟨n, member, rfl⟩ := List.mem_map.1 listed
  exact contains_iff.2 ⟨n, (List.mem_filter.1 member).1, rfl⟩

theorem Distinct.nodup_referring (distinct : g.Distinct) (name : String) (scope : Scope) :
    (g.referring name scope).Nodup :=
  distinct.sublist (List.filter_sublist.map Node.id)

theorem Distinct.mem_referring (distinct : g.Distinct) {n : Node} (member : n ∈ g.nodes)
    {name : String} {scope : Scope} :
    n.id ∈ g.referring name scope ↔ n.variableReference? = some (name, scope) := by
  simp only [referring, List.mem_map, List.mem_filter, beq_iff_eq]
  constructor
  · rintro ⟨m, ⟨listed, refers⟩, same⟩
    obtain rfl : m = n := List.inj_on_of_nodup_map distinct listed member same
    exact refers
  · intro refers
    exact ⟨n, ⟨member, refers⟩, rfl⟩

/-- Where the nodes that point at a variable point at its new name, it is renamed. -/
theorem Distinct.pointAt_referring (distinct : g.Distinct) (r : Renaming) :
    g.pointAt (g.referring r.former r.scope) r.current = r.onGraph g := by
  unfold pointAt Renaming.onGraph
  congr 1
  apply List.map_congr_left
  intro n member
  simp only [distinct.mem_referring member, r.onNode_eq]

end Graph

/-! ## In a workspace -/

namespace Workspace

variable {ws : Workspace} {former current : String} {scope : Scope}

/-- Nodes that exist are made to point at a variable, with a command for each. -/
theorem repoint_eq {ids : List String} (distinct : ws.graph.Distinct) (once : ids.Nodup)
    (present : ∀ id ∈ ids, ws.graph.contains id = true) (name : String) : ∃ history,
      ws.repoint name ids =
        (.ok (), { ws with graph := ws.graph.pointAt ids name, history := history }) := by
  induction ids generalizing ws with
  | nil =>
    have same : ws.graph.pointAt [] name = ws.graph := by simp [Graph.pointAt]
    rw [same]
    exact ⟨ws.history, rfl⟩
  | cons id rest ih =>
    obtain ⟨new, once⟩ := List.nodup_cons.1 once
    obtain ⟨here, present⟩ := List.forall_mem_cons.1 present
    obtain ⟨before, written⟩ := distinct.setProperty_name here name
    have done := execute_of_ok (Graph.execute_setProperty.2 ⟨before, written, rfl⟩)
    have keeps := Node.keepsIds_pointAt name
    let next : Workspace := { ws with
      graph := ws.graph.update id (Node.pointAt name)
      history := ws.history.remembering (.setProperty id "variableName" (some (.string name)))
        (.wrote id "variableName" before) }
    have still : ∀ other ∈ rest, next.graph.contains other = true := by
      intro other member
      exact (Graph.contains_update keeps other).trans (present other member)
    have distinct : next.graph.Distinct := distinct.update keeps
    obtain ⟨history, others⟩ := ih distinct once still
    refine ⟨history, ?_⟩
    rw [repoint, setProperty, done]
    exact others.trans (by rw [Graph.pointAt_cons new])

/-- What the blackboard refuses leaves the workspace as it is. -/
theorem renameVariable_of_error {e : BlackboardError}
    (refused : ws.board.rename former current scope = .error e) :
    ws.renameVariable former current scope = (.error (.blackboard e), ws) := by
  have nothing : (ws.shared.transactExcept fun board =>
      (board.rename former current scope).map fun board => ((), board)) = .error e := by
    show ((ws.board.rename former current scope).map _ >>= _) = _
    rw [refused]
    rfl
  rw [renameVariable, nothing]

/-- What it does not refuse goes through in the graph. -/
theorem renameVariable_of_ok (distinct : ws.graph.Distinct) {renamed : Blackboard}
    (done : ws.board.rename former current scope = .ok renamed) : ∃ history,
      ws.renameVariable former current scope = (.ok (), { ws with
        graph := (⟨former, current, scope⟩ : Renaming).onGraph ws.graph
        history := history
        shared := (ws.shared.transact fun _ => ((), renamed)).2 }) := by
  have changed : (ws.shared.transactExcept fun board =>
      (board.rename former current scope).map fun board => ((), board)) =
        .ok (ws.shared.transact fun _ => ((), renamed)) := by
    show ((ws.board.rename former current scope).map _ >>= _) = _
    rw [done]
    rfl
  let told : Workspace := { ws with shared := (ws.shared.transact fun _ => ((), renamed)).2 }
  have distinct : told.graph.Distinct := distinct
  obtain ⟨history, pointed⟩ := repoint_eq distinct (distinct.nodup_referring former scope)
    (fun _ => Graph.contains_of_referring) current
  refine ⟨history, ?_⟩
  rw [renameVariable, changed]
  exact pointed.trans (by rw [distinct.pointAt_referring ⟨former, current, scope⟩])

/-- Renaming a variable either fails and changes nothing, or the variable has its new name on the
blackboard, with its value and its type, and in the nodes that pointed at it; nothing else of the
graph is changed. A tree that could be compiled before can be compiled afterwards, and it is the
former one with the new name in it. This asks of the listeners that they leave the blackboard as it
is when they are told, or, if it is the tree alone that matters, that they remove no variable. -/
theorem renameVariable_preserves_compilation (arises : ws.Arises) (former current : String)
    (scope : Scope) :
    let r : Renaming := ⟨former, current, scope⟩
    let result := (ws.renameVariable former current scope).1
    let after := (ws.renameVariable former current scope).2
    (∀ e, result = .error e → after = ws) ∧
      (result = .ok () → ∃ v renamed, r.Moves v ws.board renamed ∧
        after = { ws with
          graph := r.onGraph ws.graph
          history := after.history
          shared := (ws.shared.transact fun _ => ((), renamed)).2 } ∧
        (ws.shared.UnmovedBy renamed.raised → r.Moves v ws.board after.board ∧
          ∀ builder t, ws.build builder = .ok t → after.build builder = .ok (r.onTree t)) ∧
        ((∀ name s, renamed.contains name s = true → after.board.contains name s = true) →
          ∀ builder t, ws.build builder = .ok t → after.build builder = .ok (r.onTree t))) := by
  intro r result after
  have distinct := arises.consistent.distinct
  cases renames : ws.board.rename former current scope with
  | error e =>
    have eq := renameVariable_of_error renames
    have result_eq : result = .error (.blackboard e) := congrArg Prod.fst eq
    have after_eq : after = ws := congrArg Prod.snd eq
    refine ⟨fun _ _ => after_eq, fun done => ?_⟩
    rw [result_eq] at done
    cases done
  | ok renamed =>
    obtain ⟨v, moves⟩ := Blackboard.moves_of_rename renames
    obtain ⟨history, eq⟩ := renameVariable_of_ok distinct renames
    have result_eq : result = .ok () := congrArg Prod.fst eq
    have after_eq : after = { ws with graph := _, history := _, shared := _ } :=
      congrArg Prod.snd eq
    clear_value result after
    subst result_eq after_eq
    refine ⟨fun _ => nofun, fun _ => ⟨v, renamed, moves, rfl, fun unmoved => ?_, fun kept _ _ =>
      moves.build kept⟩⟩
    let told := (ws.shared.transact fun _ => ((), renamed)).2
    have board : told.board = renamed.contents := (SharedBlackboard.transact_unmoved unmoved).1
    have kept (name : String) (s : Scope) (defined : renamed.contains name s = true) :
        told.board.contains name s = true := by
      rw [Blackboard.contains_iff] at defined ⊢
      rwa [board, Blackboard.find?_contents]
    refine ⟨?_, fun _ _ => moves.build kept⟩
    show r.Moves v ws.board told.board
    rw [board]
    exact moves.contents

/-- A wait, for as long as a variable of the tree says, below the root of a new workspace. -/
def delayCalls : List Call :=
  [.defineVariable "delay" .number (.number 1) .tree,
    .addNode TypeId.blackboardVariable {} (.ofList [("variableName", .string "delay")]),
    .addNode TypeId.wait {} .empty, .connect "root" "wait-2",
    .bind "blackboard-variable-1" "wait-2" "duration"]

/-- The slot of the wait is bound to the variable by its new name, and a name that is taken is
refused. -/
theorem renameVariable_preserves_compilation_wait :
    let ws := (Workspace.new "patrol").performAll delayCalls
    let r : Renaming := ⟨"delay", "pause", .tree⟩
    (∃ t, ws.build {} = .ok t ∧
        (ws.renameVariable "delay" "pause" .tree).2.build {} = .ok (r.onTree t) ∧
        (r.onTree t).nodes.map (·.bindings) =
          [.empty, .ofList [("duration", ⟨[.variable "pause" .tree], false⟩)]]) ∧
      (ws.renameVariable "delay" "delay" .tree).2 = ws := by
  intro ws r
  have arises : ws.Arises := ⟨_, delayCalls, .new "patrol", rfl⟩
  have done : (ws.renameVariable "delay" "pause" .tree).1 = .ok () := by decide +kernel
  have taken : (ws.renameVariable "delay" "delay" .tree).1 =
      .error (.blackboard (.duplicateVariable "delay" .tree)) := by decide +kernel
  have listeners : ws.shared.listeners = [] := by decide +kernel
  obtain ⟨v, renamed, -, -, rebuilds, -⟩ :=
    (renameVariable_preserves_compilation arises "delay" "pause" .tree).2 done
  have unmoved : ws.shared.UnmovedBy renamed.raised := by
    rw [SharedBlackboard.UnmovedBy, listeners]
    simp
  refine ⟨?_, (renameVariable_preserves_compilation arises "delay" "delay" .tree).1 _ taken⟩
  have bindings : (ws.build {}).map (fun t => (r.onTree t).nodes.map (·.bindings)) =
      .ok [.empty, .ofList [("duration", ⟨[.variable "pause" .tree], false⟩)]] := by
    decide +kernel
  obtain ⟨t, built, bound⟩ := map_eq_ok.1 bindings
  exact ⟨t, built, (rebuilds unmoved).2 {} t built, bound⟩

/-- A listener that removes a variable as soon as it has another name. -/
def removeRenamed : BlackboardEvent → Blackboard → List Reaction
  | .renamed _ current scope, _ => [.transact fun b => (b.remove current scope).2]
  | _, _ => []

/-- The workspace after a session is stopped that began before a variable was renamed. -/
def stoppedAfterRenaming (ws : Workspace) : Option Workspace := do
  let t ← (ws.build {}).toOption
  let e ← ((Executor.new t {} : Executor Number).start ws.shared).toOption
  let ws := (ws.renameVariable "delay" "pause" .tree).2
  let (_, shared) ← (e.stop ws.shared).toOption
  return { ws with shared := shared }

/-- Renaming a variable goes through, and what was compiled before does not compile afterwards,
where a listener removes the variable when it is told. It does not compile either when a session
that began before has been stopped: this brings back the variable under its former name, and the
nodes keep the new one. -/
theorem renameVariable_loses_compilation :
    let ws := (Workspace.new "patrol").performAll delayCalls
    let heard := ws.perform (.blackboard fun s => (s.subscribe removeRenamed).2)
    let lost : BuildError :=
      .unresolvedBinding "wait-2" "duration" (.undefinedVariable "pause" .tree)
    (ws.Arises ∧ heard.Arises) ∧ (∃ t, ws.build {} = .ok t) ∧ (∃ t, heard.build {} = .ok t) ∧
      (heard.renameVariable "delay" "pause" .tree).1 = .ok () ∧
      (heard.renameVariable "delay" "pause" .tree).2.build {} = .error lost ∧
      (ws.renameVariable "delay" "pause" .tree).1 = .ok () ∧
      ∃ after, ws.stoppedAfterRenaming = some after ∧ after.build {} = .error lost := by
  intro ws heard lost
  have arises : ws.Arises := ⟨_, delayCalls, .new "patrol", rfl⟩
  have before : (ws.build {}).map (·.size) = .ok 2 := by decide +kernel
  have beforeHeard : (heard.build {}).map (·.size) = .ok 2 := by decide +kernel
  have afterHeard : ((heard.renameVariable "delay" "pause" .tree).2.build {}).map (·.size) =
      .error lost := by decide +kernel
  have afterStop : ws.stoppedAfterRenaming.map (fun after => (after.build {}).map (·.size)) =
      some (.error lost) := by decide +kernel
  obtain ⟨t, built, -⟩ := map_eq_ok.1 before
  obtain ⟨t', built', -⟩ := map_eq_ok.1 beforeHeard
  obtain ⟨after, stopped, fails⟩ := Option.map_eq_some_iff.1 afterStop
  exact ⟨⟨arises, arises.perform _⟩, ⟨t, built⟩, ⟨t', built'⟩, by decide +kernel,
    map_eq_error.1 afterHeard, by decide +kernel, after, stopped, map_eq_error.1 fails⟩

end Workspace

end BehaviorTree
