import BehaviorTree.Proofs.Graph.Connect
import BehaviorTree.Proofs.Graph.Contents
import BehaviorTree.Proofs.Graph.Removal

/-!
# Graphs that mention what they have

`Consistent` is the part of well-formedness that does not depend on kinds: there is a root, nodes and
connections are told apart by their ids, and whatever is mentioned as a child or at the end of a
connection is there. It holds as well of a graph whose root has a template of some other kind, every
edit keeps it, and it is enough for edits to be taken back exactly.
-/

namespace BehaviorTree.Graph

/-- A graph with a root and with distinct ids, in which all that is mentioned exists. -/
structure Consistent (g : Graph) : Prop where
  root : g.contains Node.rootId = true
  child_exists : ∀ {a b}, g.IsChild a b → g.contains b = true
  ends_exist : ∀ c ∈ g.connections, g.contains c.source = true ∧ g.contains c.target = true
  distinct : g.Distinct
  connection_ids : (g.connections.map (·.id)).Nodup

variable {g h : Graph} {ids : List String} {n : Node} {c : Connection}

theorem WellFormed.consistent (wf : g.WellFormed) : g.Consistent where
  root := by
    obtain ⟨r, found, -⟩ := wf.root
    exact contains_of_node? found
  child_exists := wf.child_exists
  ends_exist := wf.ends_exist
  distinct := wf.distinct
  connection_ids := wf.connection_ids

/-- The graph of a root alone is consistent, whatever the kind of its template. -/
theorem consistent_new (template : NodeTemplate) : (Graph.new template).Consistent where
  root := rfl
  child_exists child := absurd child (not_isChild_new _ _)
  ends_exist := by simp [Graph.new]
  distinct := List.nodup_singleton _
  connection_ids := List.nodup_nil

/-! ## Nodes -/

/-- A graph that has its root takes no node of the root's id. -/
theorem Consistent.new_of_checkNewNode (consistent : g.Consistent)
    (checked : g.checkNewNode n = .ok ()) : g.contains n.id = false ∧ n.id ≠ Node.rootId := by
  rw [checkNewNode, Checks.guard_eq_ok] at checked
  have new : g.contains n.id = false := by simpa using checked.1
  refine ⟨new, fun eq => ?_⟩
  rw [eq, consistent.root] at new
  cases new

theorem Consistent.withNode (consistent : g.Consistent) (checked : g.checkNewNode n = .ok ())
    (childless : n.children = []) : (g.withNode n).Consistent := by
  obtain ⟨new, -⟩ := consistent.new_of_checkNewNode checked
  have keeps {a : String} (present : g.contains a = true) : (g.withNode n).contains a = true :=
    (contains_withNode new).2 (.inr present)
  exact
    { root := keeps consistent.root
      child_exists := fun child =>
        keeps (consistent.child_exists ((isChild_withNode new childless).1 child))
      ends_exist := fun c member => (consistent.ends_exist c member).imp keeps keeps
      distinct := consistent.distinct.withNode new
      connection_ids := consistent.connection_ids }

theorem Consistent.without (consistent : g.Consistent) (stays : Node.rootId ∉ ids) :
    (g.without ids).Consistent where
  root := contains_without.2 ⟨stays, consistent.root⟩
  child_exists child := by
    obtain ⟨-, stays, child⟩ := isChild_without.1 child
    exact contains_without.2 ⟨stays, consistent.child_exists child⟩
  ends_exist c member := by
    obtain ⟨member, source, target⟩ := mem_connections_without.1 member
    have ends := consistent.ends_exist c member
    exact ⟨contains_without.2 ⟨source, ends.1⟩, contains_without.2 ⟨target, ends.2⟩⟩
  distinct := consistent.distinct.without
  connection_ids := consistent.connection_ids.sublist (List.filter_sublist.map _)

/-- Removing the node that was added last leaves the graph as it was before. -/
theorem Consistent.without_withNode (consistent : g.Consistent) (new : g.contains n.id = false) :
    (g.withNode n).without [n.id] = g := by
  have absent {id : String} (present : g.contains id = true) : id ∉ [n.id] := by
    rintro member
    obtain rfl := List.mem_singleton.1 member
    rw [new] at present
    cases present
  have rest : g.without [n.id] = g := by
    refine without_eq_self (fun m member => absent (contains_iff.2 ⟨m, member, rfl⟩))
      (fun m member child listed => absent (consistent.child_exists (a := m.id) ?_))
      (fun c member => (consistent.ends_exist c member).imp absent absent)
    rw [IsChild, consistent.distinct.children_of_mem member]
    exact listed
  have same : ((g.withNode n).without [n.id]).nodes = (g.without [n.id]).nodes := by
    rw [nodes_without, nodes_without, Graph.withNode, List.filter_append]
    simp
  have eq : (g.withNode n).without [n.id] = g.without [n.id] :=
    congrArg (fun nodes => (⟨nodes, (g.without [n.id]).connections, g.lastId⟩ : Graph)) same
  exact eq.trans rest

/-! ## Contents -/

theorem SameShape.consistent (same : g.SameShape h) (consistent : g.Consistent) :
    h.Consistent where
  root := by rw [same.contains]; exact consistent.root
  child_exists child := by rw [same.contains]; exact consistent.child_exists (same.isChild.1 child)
  ends_exist c member := by
    rw [same.contains, same.contains]
    exact consistent.ends_exist c (same.connections ▸ member)
  distinct := by rw [Distinct, same.ids]; exact consistent.distinct
  connection_ids := by rw [same.connections]; exact consistent.connection_ids

/-! ## Connections -/

/-- A relinked graph is consistent if the new children and the ends of the new connections are
there. -/
theorem Consistent.relink (consistent : g.Consistent) {parent : String} {listed : List String}
    {links : List Connection} (present : g.contains parent = true)
    (exist : ∀ b ∈ listed, g.contains b = true)
    (ends : ∀ c ∈ links, g.contains c.source = true ∧ g.contains c.target = true)
    (distinct : (links.map (·.id)).Nodup) : (g.relink parent listed links).Consistent where
  root := by rw [contains_relink]; exact consistent.root
  child_exists child := by
    rw [contains_relink]
    rcases (isChild_relink present).1 child with ⟨-, listed⟩ | ⟨-, child⟩
    · exact exist _ listed
    · exact consistent.child_exists child
  ends_exist c member := by
    rw [contains_relink, contains_relink]
    exact ends c member
  distinct := consistent.distinct.relink
  connection_ids := distinct

/-- Making a connection keeps a graph consistent. -/
theorem Consistent.connect (consistent : g.Consistent) {after : Graph} {change : ConnectionChange}
    (done : g.connect c = .ok (after, change)) : after.Consistent := by
  have checked := exists_connect_iff.1 ⟨_, done⟩
  obtain ⟨s, t, source, target, -, new⟩ := checkConnection_ends checked
  have present := contains_of_node? source
  have ends : ∀ d ∈ g.connections ++ [c],
      g.contains d.source = true ∧ g.contains d.target = true := by
    intro d member
    rcases List.mem_append.1 member with member | member
    · exact consistent.ends_exist d member
    · obtain rfl := List.mem_singleton.1 member
      exact ⟨present, contains_of_node? target⟩
  have distinct : ((g.connections ++ [c]).map (·.id)).Nodup :=
    nodup_concat_ids consistent.connection_ids new
  cases child : c.isChild with
  | true =>
    obtain ⟨-, rfl, -⟩ := (connect_child child).1 done
    refine consistent.relink present (fun b listed => ?_) ends distinct
    rcases mem_childrenWith.1 listed with child | rfl
    · exact consistent.child_exists child
    · exact contains_of_node? target
  | false =>
    obtain ⟨-, rfl, -⟩ := (connect_binding child).1 done
    exact ⟨consistent.root, consistent.child_exists, ends, consistent.distinct, distinct⟩

/-- Removing a connection keeps a graph consistent. -/
theorem Consistent.disconnectAt (consistent : g.Consistent) {index : Nat}
    (here : g.connections[index]? = some c) : (g.disconnectAt index c).1.Consistent := by
  have sub : (g.connections.eraseIdx index).Sublist g.connections := List.eraseIdx_sublist ..
  have ends := fun d member => consistent.ends_exist d (sub.subset member)
  have distinct : ((g.connections.eraseIdx index).map (·.id)).Nodup :=
    consistent.connection_ids.sublist (sub.map _)
  have present := (consistent.ends_exist c (List.mem_of_getElem? here)).1
  cases child : c.isChild with
  | true =>
    rw [disconnectAt_child child present]
    exact consistent.relink present
      (fun b listed => consistent.child_exists (mem_childrenWithout.1 listed).1) ends distinct
  | false =>
    rw [disconnectAt_binding child]
    exact ⟨consistent.root, consistent.child_exists, ends, consistent.distinct, distinct⟩

end BehaviorTree.Graph
