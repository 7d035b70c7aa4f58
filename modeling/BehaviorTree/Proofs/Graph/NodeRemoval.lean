import BehaviorTree.Proofs.Graph.Remaking
import BehaviorTree.Proofs.History.Timeline

/-!
# Removals as filters

The editing functions take nodes and connections out at recorded places and put them back there.
What comes of it is told without places: a removal filters nodes, connections and children by the
given ids (`Leaves`), it is refused if one of the ids may not go, and putting back what it recorded
undoes it (`removeNodes_filters`).
-/

namespace BehaviorTree.Graph

variable {g after : Graph} {ids : List String} {removed : RemovedNodes} {e : GraphError}

/-- What a removal of nodes leaves of a graph. -/
structure Leaves (g : Graph) (ids : List String) (after : Graph) : Prop where
  order : after.nodes.map (·.id) = (g.nodes.map (·.id)).filter (· ∉ ids)
  connections : after.connections =
    g.connections.filter fun c => c.source ∉ ids ∧ c.target ∉ ids
  gone : ∀ id ∈ ids, after.node? id = none
  /-- A node that stays loses the removed ones among its children, and nothing else. -/
  survivor : ∀ id ∉ ids, after.node? id = (g.node? id).map fun n =>
    { n with children := n.children.filter (· ∉ ids) }
  /-- A child whose parent goes stays without one. -/
  orphan : ∀ a ∈ ids, ∀ b ∉ ids, g.IsChild a b → after.contains b = true ∧ after.parent? b = none
  numbering : after.lastId = g.lastId

theorem WellFormed.leaves_without (wf : g.WellFormed) (ids : List String) :
    g.Leaves ids (g.without ids) where
  order := by
    rw [nodes_without, List.map_map, List.filter_map]
    simp [Function.comp_def, Graph.prune]
  connections := by simp [Graph.without]
  gone id listed := by rw [node?_without, if_pos listed]
  survivor id unlisted := by
    have same : prune ids = fun n => { n with children := n.children.filter (· ∉ ids) } := by
      funext n
      simp [prune]
    rw [node?_without, if_neg unlisted, same]
  orphan a a_goes b b_stays child := by
    refine ⟨contains_without.2 ⟨b_stays, wf.child_exists child⟩, ?_⟩
    apply wf.distinct.without.parent?_eq_none
    intro other listed
    obtain ⟨other_stays, -, child'⟩ := isChild_without.1 listed
    exact other_stays (wf.one_parent child child' ▸ a_goes)
  numbering := rfl

/-! ## Refusals -/

/-- A node that may not be removed is the root or is not there, and the refusal says which. -/
theorem checkRemovable_eq_error {id : String} : g.checkRemovable id = .error e ↔
    (id = Node.rootId ∧ e = .rootRemoval) ∨
      (id ≠ Node.rootId ∧ g.contains id = false ∧ e = .nodeNotFound id) := by
  simp [checkRemovable, Checks.guard_eq_error, eq_comm (b := e)]

/-- A removal that is refused names the root or an id that is not there. -/
theorem exists_removeNodes_error
    (refused : ¬ ∀ id ∈ ids, id ≠ Node.rootId ∧ g.contains id = true) :
    ∃ e, g.removeNodes ids = .error e ∧
      ((e = .rootRemoval ∧ Node.rootId ∈ ids) ∨
        ∃ id ∈ ids, e = .nodeNotFound id ∧ g.contains id = false) := by
  cases checked : ids.forM g.checkRemovable with
  | ok =>
    exact absurd (fun id listed => checkRemovable_eq_ok.1 (Checks.forM_eq_ok.1 checked id listed))
      refused
  | error e =>
    obtain ⟨id, listed, error⟩ := Checks.exists_of_forM_eq_error checked
    refine ⟨e, Checks.bind_eq_error.2 (.inl checked), ?_⟩
    rcases checkRemovable_eq_error.1 error with ⟨rfl, rfl⟩ | ⟨-, absent, rfl⟩
    · exact .inl ⟨rfl, listed⟩
    · exact .inr ⟨id, listed, rfl, absent⟩

/-! ## Removals -/

/-- Removing nodes other than the root filters them out of a graph, and what was removed can be put
back. A list that names the root or no node of the graph is refused, and the graph stays. -/
theorem removeNodes_filters (reached : g.Reached) (ids : List String) :
    ((∀ id ∈ ids, g.contains id = true ∧ id ≠ Node.rootId) →
      ∃ after removed, g.removeNodes ids = .ok (after, removed) ∧ g.Leaves ids after ∧
        after.restoreNodes removed = g) ∧
    ((∃ id ∈ ids, id = Node.rootId ∨ g.contains id = false) →
      ∃ e, g.removeNodes ids = .error e ∧
        ((e = .rootRemoval ∧ Node.rootId ∈ ids) ∨
          ∃ id ∈ ids, e = .nodeNotFound id ∧ g.contains id = false) ∧
        ∀ h, HistoryCall.perform (.execute (.removeNodes ids)) (h, g) = (.error e, h, g)) := by
  have wf := reached.wellFormed
  constructor
  · intro removable
    refine ⟨g.without ids, g.removalOf ids, ?_, wf.leaves_without ids,
      restoreNodes_without wf.distinct⟩
    exact removeNodes_eq_ok.2 ⟨fun id listed => (removable id listed).symm, rfl, rfl⟩
  · rintro ⟨id, listed, wrong⟩
    have refused : ¬ ∀ id ∈ ids, id ≠ Node.rootId ∧ g.contains id = true := by
      intro all
      obtain ⟨other, present⟩ := all id listed
      rcases wrong with root | absent
      · exact other root
      · rw [absent] at present
        cases present
    obtain ⟨e, error, reason⟩ := exists_removeNodes_error refused
    refine ⟨e, error, reason, fun h => ?_⟩
    simp only [HistoryCall.perform, History.execute, Command.execute, error, bind, Except.bind]

/-- Two of three siblings go, the first of them named twice; nobody removes the root. -/
theorem removeNodes_filters_siblings :
    let node (id : String) (kind : NodeKind) (children : List String) : Node :=
      { Node.ofTemplate id (.new id kind id) {} .empty with children := children }
    let nodes := [node "root" .root ["all"], node "first" .action [], node "all" .composite
      ["first", "second", "third"], node "second" .action [], node "third" .action []]
    let connections := [Connection.toChild "root" "all", .toChild "all" "third",
      .toChild "all" "first", .toChild "all" "second"]
    let g : Graph := { nodes, connections }
    (∃ after removed, g.removeNodes ["first", "third", "first"] = .ok (after, removed) ∧
        after.nodes = [node "root" .root ["all"], node "all" .composite ["second"],
          node "second" .action []] ∧
        after.restoreNodes removed = g) ∧
      ∃ e, g.removeNodes ["first", "root"] = .error e := by
  intro node nodes connections g
  have reached : g.Reached := (Starts.stored (by rfl : ofParts nodes connections = .ok g)).reached
  obtain ⟨after, removed, done, leaves, restored⟩ :=
    (removeNodes_filters reached ["first", "third", "first"]).1 (by decide)
  obtain ⟨e, error, -⟩ := (removeNodes_filters reached ["first", "root"]).2 (by decide)
  refine ⟨⟨after, removed, done, ?_, restored⟩, e, error⟩
  cases done
  rfl

end BehaviorTree.Graph
