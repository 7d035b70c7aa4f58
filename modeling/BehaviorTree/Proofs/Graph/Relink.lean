import BehaviorTree.Proofs.Graph.WellFormed

/-!
# Relinking a node

Connecting and disconnecting change the children of one node and the list of connections, and so do
the edits that take them back. All of them are cases of `relink`, of which the last one counts
(`relink_relink`) and the trivial one does nothing (`Distinct.relink_self`). This is why taking an
edit back restores the graph exactly.
-/

namespace BehaviorTree.Graph

/-- The graph with other children of one node and with other connections. -/
def relink (g : Graph) (parent : String) (children : List String)
    (connections : List Connection) : Graph :=
  { g.setChildren parent children with connections := connections }

variable {g : Graph} {parent a b : String} {listed : List String} {links : List Connection}

/-! ## Relinking -/

@[simp]
theorem connections_relink : (g.relink parent listed links).connections = links := rfl

@[simp]
theorem contains_relink : (g.relink parent listed links).contains a = g.contains a :=
  contains_setChildren listed a

theorem node?_relink : (g.relink parent listed links).node? a =
    (g.node? a).map fun n => if n.id = parent then { n with children := listed } else n :=
  node?_setChildren listed a

theorem mem_relink {n : Node} (member : n ∈ (g.relink parent listed links).nodes) :
    ∃ m ∈ g.nodes, n = if m.id = parent then { m with children := listed } else m := by
  obtain ⟨m, member, eq⟩ := List.mem_map.1 member
  exact ⟨m, member, eq.symm⟩

theorem children_relink_self (present : g.contains parent = true) :
    (g.relink parent listed links).children parent = listed :=
  children_setChildren_self listed present

theorem children_relink_of_ne (ne : a ≠ parent) :
    (g.relink parent listed links).children a = g.children a :=
  children_setChildren_of_ne listed ne

/-- Only the children of one node are changed. -/
theorem isChild_relink (present : g.contains parent = true) :
    (g.relink parent listed links).IsChild a b ↔
      (a = parent ∧ b ∈ listed) ∨ (a ≠ parent ∧ g.IsChild a b) := by
  by_cases h : a = parent
  · subst h
    simp [IsChild, children_relink_self present]
  · simp [IsChild, children_relink_of_ne h, h]

theorem Distinct.relink (distinct : g.Distinct) : (g.relink parent listed links).Distinct :=
  distinct.update (keepsIds_children listed)

theorem relink_relink (listed' : List String) (links' : List Connection) :
    (g.relink parent listed links).relink parent listed' links' =
      g.relink parent listed' links' := by
  have nodes : ((g.setChildren parent listed).setChildren parent listed').nodes =
      (g.setChildren parent listed').nodes := by rw [setChildren_setChildren]
  exact congrArg (fun nodes => (⟨nodes, links', g.lastId⟩ : Graph)) nodes

/-- Relinking a node to its own children changes nothing but the connections. -/
theorem Distinct.relink_children (distinct : g.Distinct) :
    g.relink parent (g.children parent) links = { g with connections := links } := by
  rw [Graph.relink, distinct.setChildren_children]

theorem Distinct.relink_self (distinct : g.Distinct) :
    g.relink parent (g.children parent) g.connections = g :=
  distinct.relink_children

/-- The order of siblings does not depend on children or connections. -/
theorem siblingLe_relink : (g.relink parent listed links).siblingLe = g.siblingLe := by
  have position (id : String) : ((g.relink parent listed links).node? id).map (·.position) =
      (g.node? id).map (·.position) := by
    rw [node?_relink, Option.map_map]
    congr 1
    funext n
    by_cases h : n.id = parent <;> simp [h]
  have rank (id : String) : (g.relink parent listed links).rank id = g.rank id := by
    simp only [Graph.rank, Graph.relink, setChildren, update, List.zipIdx_map, List.foldl_map]
    congr 1
    funext found p
    by_cases h : p.1.id = parent <;> simp [h]
  funext a b
  simp only [siblingLe, position, rank]

/-- Sorting the children of a node is one more relinking of it. -/
theorem sortChildren_relink (present : g.contains parent = true) :
    (g.relink parent listed links).sortChildren parent =
      g.relink parent (listed.mergeSort g.siblingLe) links := by
  rw [sortChildren, siblingLe_relink, children_relink_self present]
  exact (relink_relink _ links : (g.relink parent listed links).relink parent _ links = _)

/-! ## Well-formedness -/

/-- A relinked graph is well formed if the new children suit their parent and the new connections
suit the children. -/
theorem WellFormed.relink (wf : g.WellFormed) {s : Node} (source : g.node? parent = some s)
    (admits : s.kind.Admits listed.length) (nodup : listed.Nodup)
    (exist : ∀ b ∈ listed, g.contains b = true ∧ b ≠ Node.rootId)
    (one : ∀ a, ∀ b ∈ listed, g.IsChild a b → a = parent)
    (agree : ∀ a b, (g.relink parent listed links).IsChild a b ↔
      (g.relink parent listed links).Connects a b)
    (acyclic : ∀ a b, (g.relink parent listed links).IsChild a b →
      ¬ (g.relink parent listed links).Reaches b a)
    (ends : ∀ c ∈ links, g.contains c.source = true ∧ g.contains c.target = true)
    (ids : (links.map (·.id)).Nodup) (no_loops : ∀ c ∈ links, c.source ≠ c.target) :
    (g.relink parent listed links).WellFormed := by
  have present := contains_of_node? source
  have keeps {m : Node} : (if m.id = parent then { m with children := listed } else m).id = m.id ∧
      (if m.id = parent then { m with children := listed } else m).kind = m.kind := by
    by_cases h : m.id = parent <;> simp [h, Node.kind]
  exact
    { root := by
        obtain ⟨r, found, kind⟩ := wf.root
        exact ⟨_, by rw [root?, node?_relink, ← root?, found]; rfl, keeps.2.trans kind⟩
      root_only := by
        intro n member kind
        obtain ⟨m, here, rfl⟩ := mem_relink member
        rw [keeps.2] at kind
        rw [keeps.1]
        exact wf.root_only m here kind
      arity := by
        intro n member
        obtain ⟨m, here, rfl⟩ := mem_relink member
        rw [keeps.2]
        by_cases h : m.id = parent
        · obtain rfl : m = s := Option.some.inj
            ((wf.distinct.node?_of_mem here).symm.trans (h ▸ source))
          simpa [h] using admits
        · simpa [h] using wf.arity m here
      child_exists := by
        intro a b child
        rw [contains_relink]
        rcases (isChild_relink present).1 child with ⟨-, listed⟩ | ⟨-, child⟩
        · exact (exist b listed).1
        · exact wf.child_exists child
      child_ne_root := by
        intro a b child
        rcases (isChild_relink present).1 child with ⟨-, listed⟩ | ⟨-, child⟩
        · exact (exist b listed).2
        · exact wf.child_ne_root child
      children_nodup := by
        intro a
        by_cases h : a = parent
        · subst h
          rwa [children_relink_self present]
        · rw [children_relink_of_ne h]
          exact wf.children_nodup a
      one_parent := by
        intro a b c first second
        rcases (isChild_relink present).1 first with ⟨here, listed⟩ | ⟨ne, first⟩ <;>
          rcases (isChild_relink present).1 second with ⟨there, listed'⟩ | ⟨ne', second⟩
        · exact here.trans there.symm
        · exact absurd (one b c listed second) ne'
        · exact absurd (one a c listed' first) ne
        · exact wf.one_parent first second
      connected := fun child => (agree _ _).1 child
      ends_exist := by
        intro c member
        rw [contains_relink, contains_relink]
        exact ends c member
      agrees := fun c member child => (agree _ _).2 ⟨c, member, child, rfl, rfl⟩
      acyclic := fun {a b} child => acyclic a b child
      distinct := wf.distinct.relink
      connection_ids := ids
      no_loops := no_loops }

/-- Other bindings leave a graph well formed. -/
theorem WellFormed.rebind (wf : g.WellFormed)
    (same : ∀ c, c.isChild = true → (c ∈ links ↔ c ∈ g.connections))
    (ends : ∀ c ∈ links, g.contains c.source = true ∧ g.contains c.target = true)
    (ids : (links.map (·.id)).Nodup) (no_loops : ∀ c ∈ links, c.source ≠ c.target) :
    ({ g with connections := links } : Graph).WellFormed where
  root := wf.root
  root_only := wf.root_only
  arity := wf.arity
  child_exists := wf.child_exists
  child_ne_root := wf.child_ne_root
  children_nodup := wf.children_nodup
  one_parent := wf.one_parent
  connected child := by
    obtain ⟨c, member, isChild, ends⟩ := wf.connected child
    exact ⟨c, (same c isChild).2 member, isChild, ends⟩
  ends_exist := ends
  agrees c member isChild := wf.agrees c ((same c isChild).1 member) isChild
  acyclic := wf.acyclic
  distinct := wf.distinct
  connection_ids := ids
  no_loops := no_loops

end BehaviorTree.Graph
