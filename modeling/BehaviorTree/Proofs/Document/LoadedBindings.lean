import BehaviorTree.Proofs.Document.Loading
import BehaviorTree.Proofs.Graph.Remaking

/-!
# Connections that are loaded

Loading a document validates its graph and makes no connection anew. A graph that was loaded is well
formed, and so its connections meet the rules of `Graph.connect` for ends, parents, children and
cycles. The rules for slots and data nodes are not checked: the graph follows them exactly if its
connections could each be made by an edit (`toWorkspace_bound_iff`), and a document may break all of
them (`toWorkspace_unbound`).
-/

namespace BehaviorTree.TreeDocument

/-- A stored node of a builtin type, without configuration. -/
def plainRecord (id typeId : String) (children : List String) : NodeRecord :=
  ⟨id, typeId, .empty, children, {}⟩

/-- The bindings of a loaded graph are in order exactly if an edit would accept each connection. -/
theorem toWorkspace_bound_iff {d : TreeDocument} {registry : TemplateRegistry} {ws : Workspace}
    (loaded : d.toWorkspace registry = .ok ws) :
    ws.graph.WellFormed ∧ (ws.graph.Bound ↔
      ∀ (index : Nat) (c : Connection), ws.graph.connections[index]? = some c →
        ∃ out, (ws.graph.disconnectAt index c).1.connect c = .ok out) := by
  have wf := (loadable_of_toWorkspace loaded).1.wellFormed
  exact ⟨wf, wf.bound_iff⟩

/-- Two constants in slots of two nodes. -/
theorem toWorkspace_bound_iff_patrol :
    let d : TreeDocument :=
      { metadata := ⟨"patrol", ""⟩
        nodes := [plainRecord "root" "root" ["all"], plainRecord "all" "sequence" ["rest", "note"],
          plainRecord "rest" "wait" [], plainRecord "note" "log" [],
          plainRecord "one" "constant" []]
        connections := [.toChild "root" "all", .toChild "all" "rest", .toChild "all" "note",
          .toSlot "one" "rest" "duration", .toSlot "one" "note" "message"]
        vars := [] }
    ∃ ws, d.toWorkspace .builtin = .ok ws ∧ ws.graph.WellFormed ∧ ws.graph.Bound := by
  intro d
  have accepted : (d.toWorkspace .builtin).toOption.any (fun ws =>
      ws.graph.connections.zipIdx.all fun p =>
        ((ws.graph.disconnectAt p.2 p.1).1.connect p.1).isOk) = true := by
    decide +kernel
  cases loaded : d.toWorkspace .builtin with
  | error e => rw [loaded] at accepted; cases accepted
  | ok ws =>
    obtain ⟨wf, bound_iff⟩ := toWorkspace_bound_iff loaded
    refine ⟨ws, rfl, wf, bound_iff.2 fun index c here => ?_⟩
    rw [loaded] at accepted
    have each := List.all_eq_true.1 accepted (c, index) (List.mem_zipIdx_iff_getElem?.2 here)
    cases again : (ws.graph.disconnectAt index c).1.connect c with
    | ok out => exact ⟨out, rfl⟩
    | error e => simp [again, Except.isOk, Except.toBool] at each

/-- Loading accepts a binding into a slot that no template declares, two bindings into a slot with
room for one, and a data node as a child. -/
theorem toWorkspace_unbound :
    let d : TreeDocument :=
      { metadata := ⟨"patrol", ""⟩
        nodes := [plainRecord "root" "root" ["all"], plainRecord "all" "sequence" ["rest", "one"],
          plainRecord "rest" "wait" [], plainRecord "one" "constant" [],
          plainRecord "two" "constant" []]
        connections := [.toChild "root" "all", .toChild "all" "rest", .toChild "all" "one",
          .toSlot "one" "rest" "duration", .toSlot "two" "rest" "duration",
          .toSlot "two" "rest" "colour"]
        vars := [] }
    ∃ ws, d.toWorkspace .builtin = .ok ws ∧
      (∃ c ∈ ws.graph.connections, c.isChild = false ∧ c.targetSlot = some "colour" ∧
        (ws.graph.template? c.target).bind (·.slot? "colour") = none) ∧
      ((ws.graph.bindingsIntoSlot "rest" "duration").length = 2 ∧
        ((ws.graph.template? "rest").bind (·.slot? "duration")).map (·.multiple) = some false) ∧
      ("one" ∈ ws.graph.children "all" ∧
        (ws.graph.template? "one").map (·.kind) = some .data) := by
  intro d
  have loads : (d.toWorkspace .builtin).toOption.any (fun ws =>
      (ws.graph.connections.any fun c => c.isChild == false && c.targetSlot == some "colour" &&
        (ws.graph.template? c.target).bind (·.slot? "colour") == none) &&
      (ws.graph.bindingsIntoSlot "rest" "duration").length == 2 &&
      ((ws.graph.template? "rest").bind (·.slot? "duration")).map (·.multiple) == some false &&
      (ws.graph.children "all").contains "one" &&
      (ws.graph.template? "one").map (·.kind) == some .data) = true := by
    decide +kernel
  cases loaded : d.toWorkspace .builtin with
  | error e => rw [loaded] at loads; cases loads
  | ok ws =>
    refine ⟨ws, rfl, ?_⟩
    simpa [loaded, Except.toOption, and_assoc] using loads

end BehaviorTree.TreeDocument
