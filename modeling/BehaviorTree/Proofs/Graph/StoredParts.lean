import BehaviorTree.Proofs.Graph.WellFormed

/-!
# Parts that make a graph

`FormGraph` says of a list of nodes and a list of connections, with no graph in mind, that they fit
together: one root, a forest of children, and a child connection for each place in it. Putting the
parts together succeeds exactly if they do (`ofParts_succeeds_iff`), whatever is wrong with them
otherwise: ids that occur twice or nowhere, children listed twice, cycles apart from the root.
-/

namespace BehaviorTree.Graph

open Relation

/-- A node of the list has another id among its children. -/
def Lists (nodes : List Node) (parent child : String) : Prop :=
  ∃ n ∈ nodes, n.id = parent ∧ child ∈ n.children

/-- Nodes, with their children, and connections that make a graph together. -/
structure FormGraph (nodes : List Node) (connections : List Connection) : Prop where
  node_ids : (nodes.map (·.id)).Nodup
  no_loops : ∀ c ∈ connections, c.source ≠ c.target
  connection_ids : (connections.map (·.id)).Nodup
  /-- There is one node of the root's kind, with the id reserved for it and at most one child. -/
  root : ∃ r ∈ nodes, r.id = Node.rootId ∧ r.kind = .root ∧ r.children.length ≤ 1 ∧
    ∀ n ∈ nodes, n.kind = .root → n = r
  parents : ∀ n ∈ nodes, n.children ≠ [] →
    n.kind = .root ∨ n.kind = .composite ∨ n.kind = .decorator
  decorators : ∀ n ∈ nodes, n.kind = .decorator → n.children.length ≤ 1
  children : ∀ n ∈ nodes, ∀ child ∈ n.children,
    child ∈ nodes.map (·.id) ∧ child ≠ Node.rootId
  /-- Over all lists of children together, no id occurs twice. -/
  listed_once : (nodes.flatMap fun n => n.children).Nodup
  /-- Parents with their children are the ends of the child connections, and nothing else is. -/
  links : ∀ parent child, Lists nodes parent child ↔
    ∃ c ∈ connections, c.kind = .child ∧ c.source = parent ∧ c.target = child
  ends : ∀ c ∈ connections, c.source ∈ nodes.map (·.id) ∧ c.target ∈ nodes.map (·.id)
  /-- No node is below itself. -/
  acyclic : ∀ id, ¬ TransGen (Lists nodes) id id

variable {g : Graph} {nodes : List Node} {connections : List Connection}

/-! ## Lists of nodes and graphs -/

theorem Distinct.isChild_iff_lists (distinct : g.Distinct) {a b : String} :
    g.IsChild a b ↔ Lists g.nodes a b := by
  rw [isChild_iff]
  constructor
  · rintro ⟨n, found, listed⟩
    exact ⟨n, mem_of_node? found, id_of_node? found, listed⟩
  · rintro ⟨n, member, rfl, listed⟩
    exact ⟨n, distinct.node?_of_mem member, listed⟩

theorem contains_iff_mem_ids {id : String} : g.contains id = true ↔ id ∈ g.nodes.map (·.id) :=
  contains_iff.trans List.mem_map.symm

theorem connects_iff {a b : String} : g.Connects a b ↔
    ∃ c ∈ g.connections, c.kind = .child ∧ c.source = a ∧ c.target = b := by
  simp only [Connects, Connection.isChild, beq_iff_eq]

/-- A node is below itself exactly if one of its children leads back to it. -/
theorem transGen_self_iff {id : String} :
    TransGen g.IsChild id id ↔ ∃ child, g.IsChild id child ∧ g.Reaches child id :=
  TransGen.head'_iff

/-! ## What each kind of node may list -/

theorem acceptsChildren_iff {kind : NodeKind} :
    kind.acceptsChildren = true ↔ kind = .root ∨ kind = .composite ∨ kind = .decorator := by
  cases kind <;> simp [NodeKind.acceptsChildren]

/-- The number of children that a kind admits, for each kind that sets one. -/
theorem admits_iff {n : Node} : n.kind.Admits n.children.length ↔
    (n.kind = .root → n.children.length ≤ 1) ∧
      (n.children ≠ [] → n.kind = .root ∨ n.kind = .composite ∨ n.kind = .decorator) ∧
        (n.kind = .decorator → n.children.length ≤ 1) := by
  have arity : GoodArity n ↔
      (n.children ≠ [] → n.kind = .root ∨ n.kind = .composite ∨ n.kind = .decorator) ∧
        (n.kind = .decorator → n.children.length ≤ 1) := by
    rw [GoodArity, acceptsChildren_iff]
  rw [← arity]
  constructor
  · intro admits
    refine ⟨fun root => ?_, goodArity_of_admits admits⟩
    rw [root] at admits
    exact admits
  · rintro ⟨few, arity⟩
    exact admits_of_goodArity arity few

/-! ## Parts and graphs -/

/-- The only node of the root's kind, found by its id. -/
theorem Distinct.root_iff (distinct : g.Distinct) :
    ((∃ r, g.root? = some r ∧ r.kind = .root) ∧
        ∀ n ∈ g.nodes, n.kind = .root → n.id = Node.rootId) ↔
      ∃ r ∈ g.nodes, r.id = Node.rootId ∧ r.kind = .root ∧
        ∀ n ∈ g.nodes, n.kind = .root → n = r := by
  constructor
  · rintro ⟨⟨r, found, kind⟩, only⟩
    refine ⟨r, mem_of_node? found, id_of_node? found, kind, fun n member isRoot => ?_⟩
    have again : g.root? = some n := by
      rw [root?, ← only n member isRoot]
      exact distinct.node?_of_mem member
    exact Option.some.inj (again.symm.trans found)
  · rintro ⟨r, member, id, kind, only⟩
    refine ⟨⟨r, ?_, kind⟩, fun n listed isRoot => only n listed isRoot ▸ id⟩
    rw [root?, ← id]
    exact distinct.node?_of_mem member

/-- The graph of parts that fit together is well formed. -/
theorem FormGraph.wellFormed (form : FormGraph g.nodes g.connections) : g.WellFormed := by
  have distinct : g.Distinct := form.node_ids
  obtain ⟨r, member, id, kind, few, only⟩ := form.root
  obtain ⟨root, root_only⟩ := distinct.root_iff.2 ⟨r, member, id, kind, only⟩
  obtain ⟨own, one⟩ := distinct.nodup_children_iff.1 form.listed_once
  have good {a b : String} (child : g.IsChild a b) :
      b ∈ g.nodes.map (·.id) ∧ b ≠ Node.rootId := by
    obtain ⟨n, listed, -, below⟩ := distinct.isChild_iff_lists.1 child
    exact form.children n listed b below
  exact
    { root := root
      root_only := root_only
      arity := fun n listed => admits_iff.2
        ⟨fun isRoot => only n listed isRoot ▸ few, form.parents n listed, form.decorators n listed⟩
      child_exists := fun child => contains_iff_mem_ids.2 (good child).1
      child_ne_root := fun child => (good child).2
      children_nodup := own
      one_parent := fun first second => one _ _ _ first second
      connected := fun {a b} child =>
        connects_iff.2 ((form.links a b).1 (distinct.isChild_iff_lists.1 child))
      ends_exist := fun c linked =>
        (form.ends c linked).imp contains_iff_mem_ids.2 contains_iff_mem_ids.2
      agrees := fun c linked isChild => distinct.isChild_iff_lists.2
        ((form.links _ _).2 ⟨c, linked, eq_of_beq isChild, rfl, rfl⟩)
      acyclic := fun {a b} child path => form.acyclic a
        (TransGen.mono (fun _ _ => distinct.isChild_iff_lists.1) a a
          (transGen_self_iff.2 ⟨b, child, path⟩))
      distinct := distinct
      connection_ids := form.connection_ids
      no_loops := form.no_loops }

/-- The parts of a well-formed graph fit together. -/
theorem WellFormed.formGraph (wf : g.WellFormed) : FormGraph g.nodes g.connections := by
  have distinct := wf.distinct
  obtain ⟨r, member, id, kind, only⟩ := distinct.root_iff.1 ⟨wf.root, wf.root_only⟩
  have arity (n : Node) (listed : n ∈ g.nodes) := admits_iff.1 (wf.arity n listed)
  exact
    { node_ids := distinct
      no_loops := wf.no_loops
      connection_ids := wf.connection_ids
      root := ⟨r, member, id, kind, (arity r member).1 kind, only⟩
      parents := fun n listed => (arity n listed).2.1
      decorators := fun n listed => (arity n listed).2.2
      children := fun n listed child below => by
        have isChild : g.IsChild n.id child :=
          distinct.isChild_iff_lists.2 ⟨n, listed, rfl, below⟩
        exact ⟨contains_iff_mem_ids.1 (wf.child_exists isChild), wf.child_ne_root isChild⟩
      listed_once := distinct.nodup_children_iff.2
        ⟨wf.children_nodup, fun _ _ _ first second => wf.one_parent first second⟩
      links := fun a b => by
        rw [← distinct.isChild_iff_lists]
        constructor
        · intro child
          exact connects_iff.1 (wf.connected child)
        · rintro ⟨c, linked, isChild, rfl, rfl⟩
          exact wf.agrees c linked (beq_iff_eq.2 isChild)
      ends := fun c linked =>
        (wf.ends_exist c linked).imp contains_iff_mem_ids.1 contains_iff_mem_ids.1
      acyclic := fun a cycle => by
        obtain ⟨child, isChild, path⟩ := transGen_self_iff.1
          (TransGen.mono (fun _ _ => distinct.isChild_iff_lists.2) a a cycle)
        exact wf.acyclic isChild path }

/-- Stored parts make a graph exactly if they fit together, and it is then the graph of these
parts. -/
theorem ofParts_succeeds_iff (nodes : List Node) (connections : List Connection) :
    ((∃ g, ofParts nodes connections = .ok g) ↔ FormGraph nodes connections) ∧
      ∀ g, ofParts nodes connections = .ok g → g.nodes = nodes ∧ g.connections = connections := by
  refine ⟨⟨?_, fun form => ?_⟩, fun g made => ?_⟩
  · rintro ⟨g, made⟩
    obtain ⟨rfl, wf⟩ := ofParts_eq_ok.1 made
    exact wf.formGraph
  · let g : Graph := { nodes := nodes, connections := connections }
    have fits : FormGraph g.nodes g.connections := form
    exact ⟨g, ofParts_eq_ok.2 ⟨rfl, fits.wellFormed⟩⟩
  · obtain ⟨rfl, -⟩ := ofParts_eq_ok.1 made
    exact ⟨rfl, rfl⟩

/-- A cycle that the root does not reach is refused, though each of its nodes has one parent and is
connected to it. -/
example :
    let node (id : String) (kind : NodeKind) (children : List String) : Node :=
      ⟨id, .new id kind "", .empty, {}, children⟩
    ofParts [node "root" .root [], node "a" .composite ["b"], node "b" .decorator ["a"]]
      [.toChild "a" "b", .toChild "b" "a"] = .error (.cycle "a" "b") := by
  decide +kernel

end BehaviorTree.Graph
