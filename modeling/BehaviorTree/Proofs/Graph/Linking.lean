import BehaviorTree.Proofs.Graph.Relink
import Mathlib.Data.List.Perm.Basic

/-!
# Linking

A well-formed graph is given by its nodes and its connections up to the order of siblings: graphs
that list the same in other orders (`Rearranged`) are well formed together. So it is enough to say
when one more connection may be made (`Accepts`), and to make it in the simplest way, which puts a new
child behind the others (`link`). Edits that put children into some other place rearrange what
linking gives. A well-formed graph can be linked together from a part of it, one connection after the
other in any order (`WellFormed.linkAll_of_part`).
-/

namespace BehaviorTree.Graph

variable {g h : Graph} {a b : String} {c : Connection} {cs : List Connection}

/-! ## Rearranging -/

/-- The ids of the nodes with their kinds. -/
def kinds (g : Graph) : List (String × NodeKind) := g.nodes.map fun n => (n.id, n.kind)

theorem map_fst_kinds : g.kinds.map (·.1) = g.nodes.map (·.id) := by
  simp [kinds, Function.comp_def]

theorem kinds_update {f : Node → Node} (keeps : ∀ n, (f n).id = n.id ∧ (f n).kind = n.kind) :
    (g.update a f).kinds = g.kinds := by
  rw [kinds, update, List.map_map]
  apply List.map_congr_left
  intro n _
  by_cases h : n.id = a <;> simp [h, keeps n]

@[simp]
theorem kinds_setChildren (listed : List String) : (g.setChildren a listed).kinds = g.kinds :=
  kinds_update fun _ => ⟨rfl, rfl⟩

@[simp]
theorem kinds_relink (listed : List String) (links : List Connection) :
    (g.relink a listed links).kinds = g.kinds :=
  kinds_setChildren listed

/-- Two graphs list the same nodes, siblings and connections, each in some order. -/
structure Rearranged (g h : Graph) : Prop where
  kinds : h.kinds.Perm g.kinds
  children : ∀ a, (h.children a).Perm (g.children a)
  connections : h.connections.Perm g.connections

theorem Rearranged.refl (g : Graph) : g.Rearranged g :=
  ⟨.refl _, fun _ => .refl _, .refl _⟩

theorem Rearranged.symm (same : g.Rearranged h) : h.Rearranged g :=
  ⟨same.kinds.symm, fun a => (same.children a).symm, same.connections.symm⟩

theorem perm_ids_of_kinds (kinds : h.kinds.Perm g.kinds) :
    (h.nodes.map (·.id)).Perm (g.nodes.map (·.id)) := by
  rw [← map_fst_kinds, ← map_fst_kinds]
  exact kinds.map _

theorem Distinct.of_kinds (distinct : g.Distinct) (kinds : h.kinds.Perm g.kinds) : h.Distinct :=
  (perm_ids_of_kinds kinds).nodup_iff.2 distinct

theorem contains_of_kinds (kinds : h.kinds.Perm g.kinds) : h.contains a = g.contains a := by
  have listed (g : Graph) : g.contains a = true ↔ a ∈ g.nodes.map (·.id) := by
    rw [contains_iff, List.mem_map]
  rw [Bool.eq_iff_iff, listed, listed, (perm_ids_of_kinds kinds).mem_iff]

/-- A node of one graph has a counterpart in the other. -/
theorem exists_mem_of_kinds (kinds : h.kinds.Perm g.kinds) {n : Node} (member : n ∈ h.nodes) :
    ∃ m ∈ g.nodes, m.id = n.id ∧ m.kind = n.kind := by
  have listed := kinds.mem_iff.1 (List.mem_map_of_mem (f := fun n => (n.id, n.kind)) member)
  obtain ⟨m, member, eq⟩ := List.mem_map.1 listed
  exact ⟨m, member, Prod.mk.inj eq⟩

theorem Rearranged.isChild (same : g.Rearranged h) : h.IsChild a b ↔ g.IsChild a b :=
  (same.children a).mem_iff

theorem Rearranged.reaches (same : g.Rearranged h) (path : h.Reaches a b) : g.Reaches a b :=
  path.mono fun _ _ => same.isChild.1

/-- Well-formedness does not depend on orders. -/
theorem Rearranged.wellFormed (same : g.Rearranged h) (wf : g.WellFormed) : h.WellFormed := by
  have distinct := wf.distinct.of_kinds same.kinds
  have mem {d : Connection} := same.connections.mem_iff (a := d)
  exact
    { root := by
        obtain ⟨r, found, kind⟩ := wf.root
        obtain ⟨s, member, ids, kinds⟩ := exists_mem_of_kinds same.kinds.symm (mem_of_node? found)
        have here := distinct.node?_of_mem member
        rw [ids, id_of_node? found] at here
        exact ⟨s, here, kinds.trans kind⟩
      root_only := by
        intro n member kind
        obtain ⟨m, member, ids, kinds⟩ := exists_mem_of_kinds same.kinds member
        exact ids ▸ wf.root_only m member (kinds.trans kind)
      arity := by
        intro n member
        obtain ⟨m, here, ids, kinds⟩ := exists_mem_of_kinds same.kinds member
        have few := wf.arity m here
        rw [kinds, ← wf.distinct.children_of_mem here, ids, ← (same.children n.id).length_eq] at few
        rwa [← distinct.children_of_mem member]
      child_exists := fun child => by
        rw [contains_of_kinds same.kinds]
        exact wf.child_exists (same.isChild.1 child)
      child_ne_root := fun child => wf.child_ne_root (same.isChild.1 child)
      children_nodup := fun a => (same.children a).nodup_iff.2 (wf.children_nodup a)
      one_parent := fun first second =>
        wf.one_parent (same.isChild.1 first) (same.isChild.1 second)
      connected := fun child => by
        obtain ⟨d, member, ends⟩ := wf.connected (same.isChild.1 child)
        exact ⟨d, mem.2 member, ends⟩
      ends_exist := fun d member => by
        rw [contains_of_kinds same.kinds, contains_of_kinds same.kinds]
        exact wf.ends_exist d (mem.1 member)
      agrees := fun d member isChild => same.isChild.2 (wf.agrees d (mem.1 member) isChild)
      acyclic := fun child path => wf.acyclic (same.isChild.1 child) (same.reaches path)
      distinct := distinct
      connection_ids := (same.connections.map _).nodup_iff.2 wf.connection_ids
      no_loops := fun d member => wf.no_loops d (mem.1 member) }

/-- In a well-formed graph the children are the targets of the child connections. -/
theorem WellFormed.isChild_iff_connects (wf : g.WellFormed) : g.IsChild a b ↔ g.Connects a b :=
  ⟨wf.connected, fun ⟨c, member, isChild, source, target⟩ =>
    source ▸ target ▸ wf.agrees c member isChild⟩

/-- The connections of a well-formed graph leave open no more than the order of siblings. -/
theorem WellFormed.rearranged (wf : g.WellFormed) (wf' : h.WellFormed)
    (kinds : h.kinds.Perm g.kinds) (connections : h.connections.Perm g.connections) :
    g.Rearranged h where
  kinds := kinds
  children a := by
    refine (List.perm_ext_iff_of_nodup (wf'.children_nodup a) (wf.children_nodup a)).2 fun b => ?_
    have same : h.Connects a b ↔ g.Connects a b := by
      simp only [Connects, connections.mem_iff]
    exact wf'.isChild_iff_connects.trans (same.trans wf.isChild_iff_connects.symm)
  connections := connections

/-! ## One connection -/

/-- One node may become the child of another. -/
structure Adopts (g : Graph) (parent child : String) : Prop where
  room : ∀ s, g.node? parent = some s → s.kind.Admits (s.children.length + 1)
  not_root : child ≠ Node.rootId
  orphan : ∀ a, ¬ g.IsChild a child
  no_path : ¬ g.Reaches child parent

/-- A connection may be made between nodes of the graph. -/
structure Accepts (g : Graph) (c : Connection) : Prop where
  source : g.contains c.source = true
  target : g.contains c.target = true
  no_loop : c.source ≠ c.target
  new : ∀ d ∈ g.connections, d.id ≠ c.id
  child : c.isChild = true → g.Adopts c.source c.target

/-- The graph with one more connection, and with one more child behind the others if it is a child
connection. -/
def link (g : Graph) (c : Connection) : Graph :=
  if c.isChild then
    g.relink c.source (g.children c.source ++ [c.target]) (g.connections ++ [c])
  else { g with connections := g.connections ++ [c] }

theorem link_child (child : c.isChild = true) : g.link c =
    g.relink c.source (g.children c.source ++ [c.target]) (g.connections ++ [c]) :=
  if_pos child

theorem link_binding (binding : c.isChild = false) :
    g.link c = { g with connections := g.connections ++ [c] } :=
  if_neg (Bool.eq_false_iff.1 binding)

@[simp]
theorem connections_link : (g.link c).connections = g.connections ++ [c] := by
  unfold link
  split <;> rfl

@[simp]
theorem kinds_link : (g.link c).kinds = g.kinds := by
  unfold link
  split
  · exact kinds_relink _ _
  · rfl

/-- A new child connection adds one pair of parent and child. -/
theorem isChild_link (child : c.isChild = true) (present : g.contains c.source = true) :
    (g.link c).IsChild a b ↔ g.IsChild a b ∨ (a = c.source ∧ b = c.target) := by
  rw [link_child child, isChild_relink present, List.mem_append, List.mem_singleton]
  by_cases h : a = c.source
  · subst h
    simp [IsChild]
  · simp [h]

/-- A path that uses a new child connection comes to its source and goes on from its target. -/
theorem reaches_link (child : c.isChild = true) (present : g.contains c.source = true)
    (path : (g.link c).Reaches a b) :
    g.Reaches a b ∨ (g.Reaches a c.source ∧ g.Reaches c.target b) := by
  induction path with
  | refl => exact .inl .refl
  | tail _ step ih =>
    rcases (isChild_link child present).1 step with step | ⟨rfl, rfl⟩
    · rcases ih with path | ⟨before, path⟩
      · exact .inl (path.tail step)
      · exact .inr ⟨before, path.tail step⟩
    · rcases ih with path | ⟨before, -⟩
      · exact .inr ⟨path, .refl⟩
      · exact .inr ⟨before, .refl⟩

theorem nodup_concat_ids {links : List Connection} (ids : (links.map (·.id)).Nodup)
    (new : ∀ d ∈ links, d.id ≠ c.id) : ((links ++ [c]).map (·.id)).Nodup := by
  rw [List.map_append, List.nodup_append_comm]
  exact List.nodup_cons.2 ⟨by simpa using new, ids⟩

/-- A connection that is accepted keeps a graph well formed. -/
theorem WellFormed.link (wf : g.WellFormed) (accepts : g.Accepts c) : (g.link c).WellFormed := by
  have present := accepts.source
  have ids := nodup_concat_ids wf.connection_ids accepts.new
  have ends : ∀ d ∈ g.connections ++ [c],
      g.contains d.source = true ∧ g.contains d.target = true := by
    intro d member
    rcases List.mem_append.1 member with member | member
    · exact wf.ends_exist d member
    · obtain rfl := List.mem_singleton.1 member
      exact ⟨present, accepts.target⟩
  have no_loops : ∀ d ∈ g.connections ++ [c], d.source ≠ d.target := by
    intro d member
    rcases List.mem_append.1 member with member | member
    · exact wf.no_loops d member
    · obtain rfl := List.mem_singleton.1 member
      exact accepts.no_loop
  cases child : c.isChild with
  | false =>
    rw [link_binding child]
    refine wf.rebind (fun d isChild => ?_) ends ids no_loops
    rw [List.mem_append, List.mem_singleton, or_iff_left]
    rintro rfl
    simp [child] at isChild
  | true =>
    obtain ⟨room, not_root, orphan, no_path⟩ := accepts.child child
    obtain ⟨s, source⟩ := exists_node? present
    have pairs {a b : String} := isChild_link (a := a) (b := b) child present
    have paths {a b : String} := reaches_link (a := a) (b := b) child present
    simp only [link_child child] at pairs paths ⊢
    refine wf.relink source ?admits ?nodup ?exist ?one ?agree ?acyclic ends ids no_loops
    case admits =>
      rw [List.length_append, children_of_node? source]
      exact room s source
    case nodup =>
      rw [List.nodup_append_comm]
      exact List.nodup_cons.2 ⟨orphan c.source, wf.children_nodup c.source⟩
    case exist =>
      intro b listed
      rcases List.mem_append.1 listed with child | new
      · exact ⟨wf.child_exists child, wf.child_ne_root child⟩
      · obtain rfl := List.mem_singleton.1 new
        exact ⟨accepts.target, not_root⟩
    case one =>
      intro a b listed child
      rcases List.mem_append.1 listed with other | new
      · exact wf.one_parent child other
      · obtain rfl := List.mem_singleton.1 new
        exact absurd child (orphan a)
    case agree =>
      intro a b
      rw [pairs]
      constructor
      · rintro (child' | ⟨rfl, rfl⟩)
        · obtain ⟨d, member, rest⟩ := wf.connected child'
          exact ⟨d, List.mem_append_left _ member, rest⟩
        · exact ⟨c, List.mem_append_right _ (List.mem_singleton_self c), child, rfl, rfl⟩
      · rintro ⟨d, member, isChild, rfl, rfl⟩
        rcases List.mem_append.1 member with member | member
        · exact .inl (wf.agrees d member isChild)
        · obtain rfl := List.mem_singleton.1 member
          exact .inr ⟨rfl, rfl⟩
    case acyclic =>
      intro a b step path
      -- Wherever a cycle uses the new pair, it leads from the child back to the parent without it.
      rcases pairs.1 step with step | ⟨rfl, rfl⟩ <;> rcases paths path with path | ⟨before, path⟩
      · exact wf.acyclic step path
      · exact no_path ((path.tail step).trans before)
      · exact no_path path
      · exact no_path before

/-! ## Several connections -/

/-- The graph with more connections, made one after the other. -/
def linkAll (g : Graph) (cs : List Connection) : Graph := cs.foldl link g

/-- Connections may be made one after the other. -/
def AcceptsAll (g : Graph) : List Connection → Prop
  | [] => True
  | c :: cs => g.Accepts c ∧ (g.link c).AcceptsAll cs

theorem connections_linkAll : (g.linkAll cs).connections = g.connections ++ cs := by
  induction cs generalizing g with
  | nil => simp [linkAll]
  | cons c cs ih => exact ih.trans (by simp)

theorem kinds_linkAll : (g.linkAll cs).kinds = g.kinds := by
  induction cs generalizing g with
  | nil => rfl
  | cons c cs ih => exact ih.trans kinds_link

theorem WellFormed.linkAll (wf : g.WellFormed) (accepted : g.AcceptsAll cs) :
    (g.linkAll cs).WellFormed := by
  induction cs generalizing g with
  | nil => exact wf
  | cons c cs ih => exact ih (wf.link accepted.1) accepted.2

/-- Child connections with the same ends have the same id. -/
theorem id_eq_of_ends {d : Connection} (first : c.isChild = true) (second : d.isChild = true)
    (source : c.source = d.source) (target : c.target = d.target) : c.id = d.id := by
  rw [Connection.id, Connection.id, eq_of_beq first, eq_of_beq second, source, target]

/-- What a well-formed graph has beyond a part of it can be made there. -/
theorem WellFormed.accepts_of_part (wf : g.WellFormed) (whole : h.WellFormed)
    (kinds : h.kinds.Perm g.kinds) (split : h.connections.Perm (g.connections ++ c :: cs)) :
    g.Accepts c := by
  have member : c ∈ h.connections := split.mem_iff.2 (by simp)
  have ends := whole.ends_exist c member
  rw [contains_of_kinds kinds, contains_of_kinds kinds] at ends
  have ids := (split.map (·.id)).nodup_iff.1 whole.connection_ids
  have new : ∀ d ∈ g.connections, d.id ≠ c.id := by
    intro d here same
    rw [List.map_append, List.nodup_append] at ids
    exact ids.2.2 _ (List.mem_map_of_mem here) c.id (by simp) same
  have fewer : ∀ a b, g.IsChild a b → h.IsChild a b := by
    intro a b child
    obtain ⟨d, here, rest⟩ := wf.connected child
    exact whole.isChild_iff_connects.2 ⟨d, split.mem_iff.2 (List.mem_append_left _ here), rest⟩
  refine ⟨ends.1, ends.2, whole.no_loops c member, new, fun child => ?_⟩
  have pair := whole.agrees c member child
  have unconnected : ¬ g.IsChild c.source c.target := by
    intro already
    obtain ⟨d, here, isChild, source, target⟩ := wf.connected already
    exact new d here (id_eq_of_ends isChild child source target)
  refine ⟨fun s found => ?room, whole.child_ne_root pair, ?orphan, fun path => ?no_path⟩
  case room =>
    obtain ⟨m, here, ids, kinds⟩ := exists_mem_of_kinds kinds.symm (mem_of_node? found)
    have listed : (g.children c.source ++ [c.target]).Subperm (h.children c.source) := by
      apply List.subperm_of_subset
      · rw [List.nodup_append_comm]
        exact List.nodup_cons.2 ⟨unconnected, wf.children_nodup c.source⟩
      · intro b member
        rcases List.mem_append.1 member with child | new
        · exact fewer _ _ child
        · exact List.mem_singleton.1 new ▸ pair
    have few := listed.length_le
    rw [List.length_append, children_of_node? found, List.length_singleton,
      ← id_of_node? found, ← ids, whole.distinct.children_of_mem here] at few
    exact kinds ▸ (whole.arity m here).mono few
  case orphan =>
    intro a already
    obtain rfl := whole.one_parent (fewer a _ already) pair
    exact unconnected already
  case no_path => exact whole.acyclic pair (path.mono fewer)

/-- A well-formed graph is linked together from a part of it by the connections that are missing, up
to the order of siblings. -/
theorem WellFormed.linkAll_of_part (wf : g.WellFormed) (whole : h.WellFormed)
    (kinds : h.kinds.Perm g.kinds) (split : h.connections.Perm (g.connections ++ cs)) :
    g.AcceptsAll cs ∧ (g.linkAll cs).Rearranged h := by
  induction cs generalizing g with
  | nil => exact ⟨trivial, wf.rearranged whole kinds (by simpa using split)⟩
  | cons c cs ih =>
    have accepts := wf.accepts_of_part whole kinds split
    obtain ⟨others, same⟩ := ih (wf.link accepts) (by simpa using kinds) (by simpa using split)
    exact ⟨⟨accepts, others⟩, same⟩

end BehaviorTree.Graph
