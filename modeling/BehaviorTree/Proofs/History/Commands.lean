import BehaviorTree.History.Command
import BehaviorTree.Proofs.Graph.Consistent

/-!
# Commands and their receipts

Every command keeps graphs consistent and well formed (`Consistent.execute`, `WellFormed.execute`),
and in a consistent graph the receipt of a command that was done takes it back exactly
(`Consistent.undo_execute`). Commands neither read nor change the numbering of new ids
(`execute_renumber`).
-/

namespace BehaviorTree

/-- Nodes are added without children; these come with connections. -/
def Command.Childless : Command → Prop
  | .addNode n => n.children = []
  | _ => True

namespace Graph

/-- The graph with another number given out last. -/
def renumber (g : Graph) (number : Nat) : Graph := { g with lastId := number }

variable {g after : Graph} {command : Command} {receipt : Receipt} {number : Nat}

/-! ## What a command does -/

theorem execute_addNode {n : Node} : (Command.addNode n).execute g = .ok (after, receipt) ↔
    g.checkNewNode n = .ok () ∧ after = g.withNode n ∧ receipt = .added n.id := by
  simp only [Command.execute, Checks.bind_eq_ok, addNode_eq_ok, pure, Except.pure, Except.ok.injEq,
    Prod.mk.injEq]
  constructor
  · rintro ⟨_, ⟨checked, rfl⟩, rfl, rfl⟩
    exact ⟨checked, rfl, rfl⟩
  · rintro ⟨checked, rfl, rfl⟩
    exact ⟨_, ⟨checked, rfl⟩, rfl, rfl⟩

/-- An edit that goes through leaves its record in the receipt. -/
theorem receipt_eq_ok {α : Type} {result : Except GraphError (Graph × α)} {record : α → Receipt} :
    (do let (g, x) ← result; return (g, record x)) = Except.ok (after, receipt) ↔
      ∃ x, result = .ok (after, x) ∧ receipt = record x := by
  simp only [Checks.bind_eq_ok, pure, Except.pure, Except.ok.injEq, Prod.mk.injEq]
  constructor
  · rintro ⟨⟨_, x⟩, done, rfl, rfl⟩
    exact ⟨x, done, rfl⟩
  · rintro ⟨x, done, rfl⟩
    exact ⟨_, done, rfl, rfl⟩

theorem execute_removeNodes {ids : List String} :
    (Command.removeNodes ids).execute g = .ok (after, receipt) ↔
      ∃ removed, g.removeNodes ids = .ok (after, removed) ∧ receipt = .removed removed :=
  receipt_eq_ok

theorem execute_moveNodes {moves : Dict Position} :
    (Command.moveNodes moves).execute g = .ok (after, receipt) ↔
      ∃ before, g.moveNodes moves = .ok (after, before) ∧ receipt = .moved before :=
  receipt_eq_ok

theorem execute_addConnection {c : Connection} :
    (Command.addConnection c).execute g = .ok (after, receipt) ↔
      ∃ change, g.connect c = .ok (after, change) ∧ receipt = .connected change :=
  receipt_eq_ok

theorem execute_removeConnections {connections : List Connection} :
    (Command.removeConnections connections).execute g = .ok (after, receipt) ↔
      connections.forM (Command.checkConnected g) = .ok () ∧
        ∃ changes, connections.foldlM Command.disconnectStep (g, []) = .ok (after, changes) ∧
          receipt = .disconnected changes := by
  rw [Command.execute, Checks.bind_eq_ok]
  constructor
  · rintro ⟨_, connected, done⟩
    exact ⟨connected, receipt_eq_ok.1 done⟩
  · rintro ⟨connected, done⟩
    exact ⟨_, connected, receipt_eq_ok.2 done⟩

theorem execute_setProperty {id key : String} {value : Option Value} :
    (Command.setProperty id key value).execute g = .ok (after, receipt) ↔
      ∃ before, g.setProperty id key value = .ok (after, before) ∧
        receipt = .wrote id key before :=
  receipt_eq_ok

/-- One of several connections is removed where it stands. -/
theorem disconnectStep_eq_ok {state out : Graph × List ConnectionChange} {c : Connection}
    (done : Command.disconnectStep state c = .ok out) :
    ∃ d index, state.1.connections[index]? = some d ∧
      out = ((state.1.disconnectAt index d).1, (state.1.disconnectAt index d).2 :: state.2) := by
  simp only [Command.disconnectStep, Checks.bind_eq_ok, pure, Except.pure, Except.ok.injEq] at done
  obtain ⟨step, found, rfl⟩ := done
  obtain ⟨d, index, here, -, rfl⟩ := disconnect_eq_ok found
  exact ⟨d, index, here, rfl⟩

/-- What removing one connection keeps, removing connections one after the other does. -/
theorem foldlM_disconnectStep_keeps {P : Graph → Prop}
    (keeps : ∀ {h : Graph} {d : Connection} {index : Nat}, P h →
      h.connections[index]? = some d → P (h.disconnectAt index d).1)
    (holds : P g) {connections : List Connection} {before changes : List ConnectionChange}
    (done : connections.foldlM Command.disconnectStep (g, before) = .ok (after, changes)) :
    P after := by
  induction connections generalizing g before with
  | nil =>
    obtain ⟨rfl, rfl⟩ := Prod.mk.inj (Except.ok.inj done)
    exact holds
  | cons c rest ih =>
    obtain ⟨state, step, steps⟩ := Checks.foldlM_cons_eq_ok.1 done
    obtain ⟨d, index, here, rfl⟩ := disconnectStep_eq_ok step
    exact ih (keeps holds here) steps

/-! ## Keeping graphs in order -/

/-- A command that is done keeps the graph well formed. -/
theorem WellFormed.execute (wf : g.WellFormed) (childless : command.Childless)
    (done : command.execute g = .ok (after, receipt)) : after.WellFormed := by
  cases command with
  | addNode n =>
    obtain ⟨checked, rfl, -⟩ := execute_addNode.1 done
    exact wf.withNode checked childless
  | removeNodes ids =>
    obtain ⟨removed, edited, -⟩ := execute_removeNodes.1 done
    obtain ⟨removable, rfl, -⟩ := removeNodes_eq_ok.1 edited
    exact wf.without fun listed => (removable _ listed).1 rfl
  | moveNodes moves =>
    obtain ⟨before, edited, -⟩ := execute_moveNodes.1 done
    exact (sameShape_moveNodes edited).wellFormed wf
  | addConnection c =>
    obtain ⟨change, edited, -⟩ := execute_addConnection.1 done
    exact wf.connect edited
  | removeConnections connections =>
    obtain ⟨-, changes, edited, -⟩ := execute_removeConnections.1 done
    exact foldlM_disconnectStep_keeps (fun wf here => wf.disconnectAt here) wf edited
  | setProperty id key value =>
    obtain ⟨before, edited, -⟩ := execute_setProperty.1 done
    exact (sameShape_setProperty edited).wellFormed wf

/-- A command that is done keeps the graph consistent. -/
theorem Consistent.execute (consistent : g.Consistent) (childless : command.Childless)
    (done : command.execute g = .ok (after, receipt)) : after.Consistent := by
  cases command with
  | addNode n =>
    obtain ⟨checked, rfl, -⟩ := execute_addNode.1 done
    exact consistent.withNode checked childless
  | removeNodes ids =>
    obtain ⟨removed, edited, -⟩ := execute_removeNodes.1 done
    obtain ⟨removable, rfl, -⟩ := removeNodes_eq_ok.1 edited
    exact consistent.without fun listed => (removable _ listed).1 rfl
  | moveNodes moves =>
    obtain ⟨before, edited, -⟩ := execute_moveNodes.1 done
    exact (sameShape_moveNodes edited).consistent consistent
  | addConnection c =>
    obtain ⟨change, edited, -⟩ := execute_addConnection.1 done
    exact consistent.connect edited
  | removeConnections connections =>
    obtain ⟨-, changes, edited, -⟩ := execute_removeConnections.1 done
    exact foldlM_disconnectStep_keeps (fun consistent here => consistent.disconnectAt here)
      consistent edited
  | setProperty id key value =>
    obtain ⟨before, edited, -⟩ := execute_setProperty.1 done
    exact (sameShape_setProperty edited).consistent consistent

/-! ## Taking back -/

/-- Connections that were removed one after the other are put back in the opposite order. -/
theorem Consistent.revert_foldlM_disconnectStep (consistent : g.Consistent)
    {connections : List Connection} {before changes : List ConnectionChange}
    (done : connections.foldlM Command.disconnectStep (g, before) = .ok (after, changes)) :
    ∃ new, changes = new ++ before ∧ new.foldl Graph.revertDisconnect after = g := by
  induction connections generalizing g before with
  | nil =>
    obtain ⟨rfl, rfl⟩ := Prod.mk.inj (Except.ok.inj done)
    exact ⟨[], rfl, rfl⟩
  | cons c rest ih =>
    obtain ⟨state, step, steps⟩ := Checks.foldlM_cons_eq_ok.1 done
    obtain ⟨d, index, here, rfl⟩ := disconnectStep_eq_ok step
    obtain ⟨new, rfl, reverted⟩ := ih (consistent.disconnectAt here) steps
    have present := (consistent.ends_exist d (List.mem_of_getElem? here)).1
    refine ⟨new ++ [(g.disconnectAt index d).2], by simp, ?_⟩
    rw [List.foldl_append, reverted]
    exact revertDisconnect_disconnectAt consistent.distinct present here

/-- The receipt of a command takes it back exactly. -/
theorem Consistent.undo_execute (consistent : g.Consistent)
    (done : command.execute g = .ok (after, receipt)) : receipt.undo after = g := by
  cases command with
  | addNode n =>
    obtain ⟨checked, rfl, rfl⟩ := execute_addNode.1 done
    obtain ⟨new, ne_root⟩ := consistent.new_of_checkNewNode checked
    have removable : ∀ id ∈ [n.id],
        id ≠ Node.rootId ∧ (g.withNode n).contains id = true := by
      intro id listed
      obtain rfl := List.mem_singleton.1 listed
      exact ⟨ne_root, (contains_withNode new).2 (.inl rfl)⟩
    have removed := removeNodes_eq_ok.2 ⟨removable, rfl, rfl⟩
    rw [Receipt.undo, removed]
    exact consistent.without_withNode new
  | removeNodes ids =>
    obtain ⟨removed, edited, rfl⟩ := execute_removeNodes.1 done
    obtain ⟨-, rfl, rfl⟩ := removeNodes_eq_ok.1 edited
    exact restoreNodes_without consistent.distinct
  | moveNodes moves =>
    obtain ⟨before, edited, rfl⟩ := execute_moveNodes.1 done
    obtain ⟨again, restored⟩ := moveNodes_restore consistent.distinct edited
    rw [Receipt.undo, restored]
    rfl
  | addConnection c =>
    obtain ⟨change, edited, rfl⟩ := execute_addConnection.1 done
    exact revertConnect_connect consistent.distinct edited
  | removeConnections connections =>
    obtain ⟨-, changes, edited, rfl⟩ := execute_removeConnections.1 done
    obtain ⟨new, rfl, reverted⟩ := consistent.revert_foldlM_disconnectStep edited
    rwa [Receipt.undo, List.append_nil]
  | setProperty id key value =>
    obtain ⟨before, edited, rfl⟩ := execute_setProperty.1 done
    obtain ⟨again, restored⟩ := setProperty_restore consistent.distinct edited
    rw [Receipt.undo, restored]
    rfl

/-! ## The numbering of new ids -/

theorem WellFormed.renumber (wf : g.WellFormed) : (g.renumber number).WellFormed :=
  ⟨⟨wf.root, wf.root_only, wf.arity, wf.child_exists, wf.child_ne_root, wf.children_nodup,
    wf.one_parent, wf.connected, wf.ends_exist, wf.agrees, wf.acyclic⟩, wf.distinct,
    wf.connection_ids, wf.no_loops⟩

theorem Consistent.renumber (consistent : g.Consistent) : (g.renumber number).Consistent :=
  ⟨consistent.root, consistent.child_exists, consistent.ends_exist, consistent.distinct,
    consistent.connection_ids⟩

theorem isReachable_renumber (a b : String) :
    (g.renumber number).isReachable a b = g.isReachable a b := by
  rw [Bool.eq_iff_iff, isReachable_iff, isReachable_iff]
  rfl

theorem checkConnection_renumber (c : Connection) :
    (g.renumber number).checkConnection c = g.checkConnection c := by
  unfold checkConnection checkNewChild
  simp only [isReachable_renumber]
  rfl

theorem disconnectAt_renumber (index : Nat) (c : Connection) :
    (g.renumber number).disconnectAt index c =
      ((g.disconnectAt index c).1.renumber number, (g.disconnectAt index c).2) := by
  have same : (g.renumber number).contains c.source = g.contains c.source := rfl
  unfold disconnectAt
  rw [same]
  split <;> rfl

theorem disconnect_renumber (id : String) : (g.renumber number).disconnect id =
    (g.disconnect id).map fun p => (p.1.renumber number, p.2) := by
  have same : (g.renumber number).connections = g.connections := rfl
  unfold disconnect
  rw [same]
  cases g.connections.zipIdx.find? fun p => p.1.id == id with
  | none => rfl
  | some p => exact congrArg Except.ok (disconnectAt_renumber p.2 p.1)

theorem foldlM_disconnectStep_renumber {connections : List Connection}
    {before changes : List ConnectionChange}
    (done : connections.foldlM Command.disconnectStep (g, before) = .ok (after, changes)) :
    connections.foldlM Command.disconnectStep (g.renumber number, before) =
      .ok (after.renumber number, changes) := by
  induction connections generalizing g before with
  | nil =>
    obtain ⟨rfl, rfl⟩ := Prod.mk.inj (Except.ok.inj done)
    rfl
  | cons c rest ih =>
    obtain ⟨state, step, steps⟩ := Checks.foldlM_cons_eq_ok.1 done
    refine Checks.foldlM_cons_eq_ok.2 ⟨(state.1.renumber number, state.2), ?_, ih steps⟩
    obtain ⟨p, found, eq⟩ := Checks.bind_eq_ok.1 step
    obtain rfl := Except.ok.inj eq
    rw [Command.disconnectStep, disconnect_renumber, found]
    rfl

/-- Commands do the same under any numbering, and keep it. -/
theorem execute_renumber (done : command.execute g = .ok (after, receipt)) :
    command.execute (g.renumber number) = .ok (after.renumber number, receipt) := by
  cases command with
  | addNode n =>
    obtain ⟨checked, rfl, rfl⟩ := execute_addNode.1 done
    exact execute_addNode.2 ⟨checked, rfl, rfl⟩
  | removeNodes ids =>
    obtain ⟨removed, edited, rfl⟩ := execute_removeNodes.1 done
    obtain ⟨removable, rfl, rfl⟩ := removeNodes_eq_ok.1 edited
    exact execute_removeNodes.2 ⟨_, removeNodes_eq_ok.2 ⟨removable, rfl, rfl⟩, rfl⟩
  | moveNodes moves =>
    obtain ⟨before, edited, rfl⟩ := execute_moveNodes.1 done
    obtain ⟨present, rfl, rfl⟩ := moveNodes_eq_ok.1 edited
    exact execute_moveNodes.2 ⟨_, moveNodes_eq_ok.2 ⟨present, rfl, rfl⟩, rfl⟩
  | addConnection c =>
    obtain ⟨change, edited, rfl⟩ := execute_addConnection.1 done
    refine execute_addConnection.2 ⟨change, ?_, rfl⟩
    cases child : c.isChild with
    | true =>
      obtain ⟨checked, rfl, rfl⟩ := (connect_child child).1 edited
      exact (connect_child child).2 ⟨(checkConnection_renumber c).trans checked, rfl, rfl⟩
    | false =>
      obtain ⟨checked, rfl, rfl⟩ := (connect_binding child).1 edited
      exact (connect_binding child).2 ⟨(checkConnection_renumber c).trans checked, rfl, rfl⟩
  | removeConnections connections =>
    obtain ⟨connected, changes, edited, rfl⟩ := execute_removeConnections.1 done
    exact execute_removeConnections.2 ⟨connected, changes, foldlM_disconnectStep_renumber edited, rfl⟩
  | setProperty id key value =>
    obtain ⟨before, edited, rfl⟩ := execute_setProperty.1 done
    obtain ⟨n, found, rfl, rfl⟩ := setProperty_eq_ok.1 edited
    exact execute_setProperty.2 ⟨_, setProperty_eq_ok.2 ⟨n, found, rfl, rfl⟩, rfl⟩

end Graph

end BehaviorTree
