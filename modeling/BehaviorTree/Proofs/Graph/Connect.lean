import BehaviorTree.Proofs.Graph.Linking

/-!
# Making and removing connections

Both edits relink the source of a child connection and leave the nodes alone if the connection is a
binding. They keep graphs well formed: a connection that passes the checks may be linked, and its
child only takes another place among its siblings (`WellFormed.connect`); removing a connection
removes the pair that it stands for (`WellFormed.disconnectAt`). Each is taken back exactly.
-/

namespace BehaviorTree.Graph

variable {g : Graph} {a b : String} {links : List Connection} {c : Connection}

/-! ## What the edits do -/

/-- The children that a child connection gives its source. -/
def childrenWith (g : Graph) (c : Connection) : List String :=
  (g.children c.source ++ [c.target]).mergeSort g.siblingLe

/-- The children that its source keeps without a child connection. -/
def childrenWithout (g : Graph) (c : Connection) : List String :=
  ((g.children c.source).filter fun child => child != c.target).mergeSort g.siblingLe

theorem mem_childrenWith : a ∈ g.childrenWith c ↔ g.IsChild c.source a ∨ a = c.target := by
  simp [childrenWith, IsChild]

theorem mem_childrenWithout :
    a ∈ g.childrenWithout c ↔ g.IsChild c.source a ∧ a ≠ c.target := by
  simp [childrenWithout, IsChild]

/-- A connection that may be made joins two different nodes and has a new id. -/
theorem checkConnection_ends (checked : g.checkConnection c = .ok ()) :
    ∃ s t, g.node? c.source = some s ∧ g.node? c.target = some t ∧ c.source ≠ c.target ∧
      ∀ d ∈ g.connections, d.id ≠ c.id := by
  unfold checkConnection at checked
  cases source : g.node? c.source with
  | none => simp [source] at checked
  | some s =>
    cases target : g.node? c.target with
    | none => simp [source, target] at checked
    | some t =>
      simp only [source, target] at checked
      split at checked
      · cases checked
      · simp only [Checks.guard_eq_ok] at checked
        obtain ⟨ends, new, -⟩ := checked
        exact ⟨s, t, rfl, rfl, ends, by simpa using new⟩

theorem checkNewChild_eq_ok {s t : Node} : g.checkNewChild s t = .ok () ↔
    t.kind ≠ .root ∧ t.kind ≠ .data ∧ s.kind.acceptsChildren = true ∧
      ¬ (s.kind = .decorator ∧ s.children ≠ []) ∧ g.parent? t.id = none ∧
      ¬ g.Reaches t.id s.id := by
  unfold checkNewChild
  simp only [Checks.guard_eq_ok, ne_eq, Bool.not_eq_true', Bool.not_eq_false]
  cases g.parent? t.id <;> simp [isReachable_iff]

/-- A child connection may be made only from a node that has room for a child, to a node that may be
one, has no parent and does not lead back. -/
theorem checkConnection_child {s t : Node} (child : c.isChild = true)
    (source : g.node? c.source = some s) (target : g.node? c.target = some t)
    (checked : g.checkConnection c = .ok ()) :
    rootChild? s = none ∧ g.checkNewChild s t = .ok () := by
  unfold checkConnection at checked
  simp only [source, target, child, if_true] at checked
  have kind : c.kind = .child := eq_of_beq child
  cases room : rootChild? s with
  | some existing => simp [room] at checked
  | none =>
    simp only [room, Checks.guard_eq_ok, kind] at checked
    exact ⟨rfl, checked.2.2⟩

theorem checkConnection_binding {t : Node} (binding : c.isChild = false)
    (target : g.node? c.target = some t) (checked : g.checkConnection c = .ok ()) :
    g.checkNewBinding t c.targetSlot = .ok () := by
  obtain ⟨s, -, source, -⟩ := checkConnection_ends checked
  have kind : c.kind = .binding := by
    cases kind : c.kind
    · simp [Connection.isChild, kind] at binding
    · rfl
  unfold checkConnection at checked
  simp only [source, target, binding, Bool.false_eq_true, if_false, Checks.guard_eq_ok, kind]
    at checked
  exact checked.2.2

/-- Making a child connection relinks its source. -/
theorem connect_child {after : Graph} {change : ConnectionChange} (child : c.isChild = true) :
    g.connect c = .ok (after, change) ↔ g.checkConnection c = .ok () ∧
      after = g.relink c.source (g.childrenWith c) (g.connections ++ [c]) ∧
      change = ⟨g.connections.length, c, some (g.children c.source)⟩ := by
  have sorted (checked : g.checkConnection c = .ok ()) :
      (({ g with connections := g.connections ++ [c] } : Graph).setChildren c.source
        (g.children c.source ++ [c.target])).sortChildren c.source =
      g.relink c.source (g.childrenWith c) (g.connections ++ [c]) := by
    obtain ⟨s, -, source, -⟩ := checkConnection_ends checked
    exact sortChildren_relink (contains_of_node? source)
  simp only [connect, Checks.bind_eq_ok, child, if_true, pure, Except.pure, Except.ok.injEq,
    Prod.mk.injEq]
  constructor
  · rintro ⟨_, checked, rfl, rfl⟩
    exact ⟨checked, sorted checked, rfl⟩
  · rintro ⟨checked, rfl, rfl⟩
    exact ⟨_, checked, sorted checked, rfl⟩

/-- Making a binding touches no node. -/
theorem connect_binding {after : Graph} {change : ConnectionChange} (binding : c.isChild = false) :
    g.connect c = .ok (after, change) ↔ g.checkConnection c = .ok () ∧
      after = { g with connections := g.connections ++ [c] } ∧
      change = ⟨g.connections.length, c, none⟩ := by
  simp only [connect, Checks.bind_eq_ok, binding, Bool.false_eq_true, if_false, pure, Except.pure,
    Except.ok.injEq, Prod.mk.injEq]
  constructor
  · rintro ⟨_, checked, rfl, rfl⟩
    exact ⟨checked, rfl, rfl⟩
  · rintro ⟨checked, rfl, rfl⟩
    exact ⟨_, checked, rfl, rfl⟩

/-- A connection is made exactly if it passes the checks. -/
theorem exists_connect_iff :
    (∃ out, g.connect c = .ok out) ↔ g.checkConnection c = .ok () := by
  cases child : c.isChild with
  | true =>
    exact ⟨fun ⟨_, done⟩ => ((connect_child child).1 done).1,
      fun checked => ⟨_, (connect_child child).2 ⟨checked, rfl, rfl⟩⟩⟩
  | false =>
    exact ⟨fun ⟨_, done⟩ => ((connect_binding child).1 done).1,
      fun checked => ⟨_, (connect_binding child).2 ⟨checked, rfl, rfl⟩⟩⟩

/-- Removing a connection finds the first one of its id. -/
theorem disconnect_eq_ok {id : String} {out : Graph × ConnectionChange}
    (done : g.disconnect id = .ok out) :
    ∃ c index, g.connections[index]? = some c ∧ c.id = id ∧ out = g.disconnectAt index c := by
  unfold disconnect at done
  split at done
  · next c index found =>
    have member := List.mem_zipIdx_iff_getElem?.1 (List.mem_of_find?_eq_some found)
    exact ⟨c, index, member, by simpa using List.find?_some found, (Except.ok.inj done).symm⟩
  · cases done

theorem connections_disconnectAt (index : Nat) :
    (g.disconnectAt index c).1.connections = g.connections.eraseIdx index := by
  unfold disconnectAt
  split <;> rfl

theorem connection_disconnectAt (index : Nat) : (g.disconnectAt index c).2.connection = c := by
  unfold disconnectAt
  split <;> rfl

/-- A connection of the graph is found by its id, and removed where it stands. -/
theorem disconnect_of_mem (ids : (g.connections.map (·.id)).Nodup) (member : c ∈ g.connections) :
    ∃ index, g.connections[index]? = some c ∧ g.disconnect c.id = .ok (g.disconnectAt index c) := by
  obtain ⟨place, there⟩ := List.mem_iff_getElem?.1 member
  have listed : (c, place) ∈ g.connections.zipIdx := List.mem_zipIdx_iff_getElem?.2 there
  have found : ∃ out, g.disconnect c.id = .ok out := by
    unfold disconnect
    split
    · exact ⟨_, rfl⟩
    · next missing => exact absurd (beq_self_eq_true _) (List.find?_eq_none.1 missing _ listed)
  obtain ⟨out, done⟩ := found
  obtain ⟨d, index, here, same, rfl⟩ := disconnect_eq_ok done
  obtain rfl := List.inj_on_of_nodup_map ids (List.mem_of_getElem? here) member same
  exact ⟨index, here, done⟩

/-- Removing a child connection relinks its source. -/
theorem disconnectAt_child {index : Nat} (child : c.isChild = true)
    (present : g.contains c.source = true) :
    g.disconnectAt index c =
      (g.relink c.source (g.childrenWithout c) (g.connections.eraseIdx index),
        ⟨index, c, some (g.children c.source)⟩) := by
  rw [disconnectAt, child, present]
  exact Prod.ext (sortChildren_relink present) rfl

theorem disconnectAt_binding {index : Nat} (binding : c.isChild = false) :
    g.disconnectAt index c =
      ({ g with connections := g.connections.eraseIdx index }, ⟨index, c, none⟩) := by
  rw [disconnectAt, binding]
  rfl

/-! ## Well-formedness -/

/-- A new child connection adds one pair of parent and child. -/
theorem isChild_relink_childrenWith (present : g.contains c.source = true) :
    (g.relink c.source (g.childrenWith c) links).IsChild a b ↔
      g.IsChild a b ∨ (a = c.source ∧ b = c.target) := by
  rw [isChild_relink present, mem_childrenWith]
  by_cases h : a = c.source
  · subst h
    simp
  · simp [h]

/-- Without a child connection one pair of parent and child is missing. -/
theorem isChild_relink_childrenWithout (present : g.contains c.source = true) :
    (g.relink c.source (g.childrenWithout c) links).IsChild a b ↔
      g.IsChild a b ∧ ¬ (a = c.source ∧ b = c.target) := by
  rw [isChild_relink present, mem_childrenWithout]
  by_cases h : a = c.source
  · subst h
    simp
  · simp [h]

/-- What may get a child has room for one more. -/
theorem admits_succ {s t : Node} (room : rootChild? s = none)
    (checked : g.checkNewChild s t = .ok ()) : s.kind.Admits (s.children.length + 1) := by
  obtain ⟨-, -, accepts, free, -⟩ := checkNewChild_eq_ok.1 checked
  unfold rootChild? at room
  cases kind : s.kind <;> simp_all [NodeKind.Admits, NodeKind.acceptsChildren]

/-- A connection that passes the checks may be made. -/
theorem WellFormed.accepts_of_checkConnection (wf : g.WellFormed)
    (checked : g.checkConnection c = .ok ()) : g.Accepts c := by
  obtain ⟨s, t, source, target, ne, new⟩ := checkConnection_ends checked
  refine ⟨contains_of_node? source, contains_of_node? target, ne, new, fun child => ?_⟩
  obtain ⟨room, newChild⟩ := checkConnection_child child source target checked
  obtain ⟨not_root, -, -, -, orphan, no_path⟩ := checkNewChild_eq_ok.1 newChild
  rw [id_of_node? target, id_of_node? source] at no_path
  refine ⟨fun s' found => ?_, fun isRoot => not_root ?_,
    not_isChild_of_parent? (id_of_node? target ▸ orphan), no_path⟩
  · obtain rfl := Option.some.inj (source.symm.trans found)
    exact admits_succ room newChild
  · obtain ⟨r, found, kind⟩ := wf.root
    rw [isRoot] at target
    exact Option.some.inj (target.symm.trans found) ▸ kind

/-- A connection is linked, and a new child takes its place among its siblings. -/
theorem rearranged_connect {after : Graph} {change : ConnectionChange}
    (done : g.connect c = .ok (after, change)) : (g.link c).Rearranged after := by
  cases child : c.isChild with
  | false =>
    obtain ⟨-, rfl, -⟩ := (connect_binding child).1 done
    exact link_binding child ▸ .refl _
  | true =>
    obtain ⟨checked, rfl, -⟩ := (connect_child child).1 done
    obtain ⟨s, -, source, -⟩ := checkConnection_ends checked
    have present := contains_of_node? source
    refine ⟨by simp, fun a => ?_, by simp⟩
    rw [link_child child]
    by_cases here : a = c.source
    · subst here
      rw [children_relink_self present, children_relink_self present]
      exact List.mergeSort_perm ..
    · rw [children_relink_of_ne here, children_relink_of_ne here]

/-- Making a connection keeps a graph well formed. -/
theorem WellFormed.connect (wf : g.WellFormed) {after : Graph} {change : ConnectionChange}
    (done : g.connect c = .ok (after, change)) : after.WellFormed :=
  (rearranged_connect done).wellFormed
    (wf.link (wf.accepts_of_checkConnection (exists_connect_iff.1 ⟨_, done⟩)))

theorem mem_of_mem_eraseIdx_ne {index : Nat} {d : Connection} (here : links[index]? = some c)
    (member : d ∈ links) (ne : d ≠ c) : d ∈ links.eraseIdx index := by
  obtain ⟨bound, rfl⟩ := List.getElem?_eq_some_iff.1 here
  have split := (List.getElem_cons_eraseIdx_perm bound).mem_iff.2 member
  exact (List.mem_cons.1 split).resolve_left ne

/-- With distinct ids, none is left that an erased connection had. -/
theorem id_ne_of_mem_eraseIdx {index : Nat} {d : Connection} (ids : (links.map (·.id)).Nodup)
    (here : links[index]? = some c) (member : d ∈ links.eraseIdx index) : d.id ≠ c.id := by
  obtain ⟨bound, rfl⟩ := List.getElem?_eq_some_iff.1 here
  have split := ((List.getElem_cons_eraseIdx_perm bound).map (·.id)).nodup_iff.2 ids
  intro eq
  exact (List.nodup_cons.1 split).1 (List.mem_map.2 ⟨d, member, eq⟩)

/-- Removing a connection keeps a graph well formed. -/
theorem WellFormed.disconnectAt (wf : g.WellFormed) {index : Nat}
    (here : g.connections[index]? = some c) : (g.disconnectAt index c).1.WellFormed := by
  have sub : (g.connections.eraseIdx index).Sublist g.connections := List.eraseIdx_sublist ..
  have member := List.mem_of_getElem? here
  have present := (wf.ends_exist c member).1
  have ids : ((g.connections.eraseIdx index).map (·.id)).Nodup :=
    wf.connection_ids.sublist (sub.map _)
  have ends := fun d member => wf.ends_exist d (sub.subset member)
  have no_loops := fun d member => wf.no_loops d (sub.subset member)
  cases child : c.isChild with
  | false =>
    rw [disconnectAt_binding child]
    refine wf.rebind (fun d isChild => ⟨fun member => sub.subset member, fun member => ?_⟩)
      ends ids no_loops
    apply mem_of_mem_eraseIdx_ne here member
    rintro rfl
    simp [child] at isChild
  | true =>
    obtain ⟨s, source⟩ := exists_node? present
    have fewer : ∀ a b, (g.relink c.source (g.childrenWithout c)
        (g.connections.eraseIdx index)).IsChild a b → g.IsChild a b :=
      fun a b child => ((isChild_relink_childrenWithout present).1 child).1
    rw [disconnectAt_child child present]
    refine wf.relink source ?admits ?nodup ?exist ?one ?agree ?acyclic ends ids no_loops
    case admits =>
      refine (wf.arity s (mem_of_node? source)).mono ?_
      rw [childrenWithout, List.length_mergeSort, children_of_node? source]
      exact List.length_filter_le ..
    case nodup =>
      rw [childrenWithout, (List.mergeSort_perm _ _).nodup_iff]
      exact (wf.children_nodup c.source).filter _
    case exist =>
      intro b listed
      have child := (mem_childrenWithout.1 listed).1
      exact ⟨wf.child_exists child, wf.child_ne_root child⟩
    case one =>
      intro a b listed child
      exact wf.one_parent child (mem_childrenWithout.1 listed).1
    case agree =>
      intro a b
      rw [isChild_relink_childrenWithout present]
      constructor
      · rintro ⟨child', other⟩
        obtain ⟨d, member, isChild, rfl, rfl⟩ := wf.connected child'
        refine ⟨d, mem_of_mem_eraseIdx_ne here member ?_, isChild, rfl, rfl⟩
        rintro rfl
        exact other ⟨rfl, rfl⟩
      · rintro ⟨d, member, isChild, rfl, rfl⟩
        refine ⟨wf.agrees d (sub.subset member) isChild, ?_⟩
        rintro ⟨source, target⟩
        exact id_ne_of_mem_eraseIdx wf.connection_ids here member
          (id_eq_of_ends isChild child source target)
    case acyclic =>
      exact fun a b child path => wf.acyclic (fewer a b child) (Reaches.mono fewer path)

/-! ## Taking the edits back -/

theorem eraseP_concat_of_new (new : ∀ d ∈ links, d.id ≠ c.id) :
    (links ++ [c]).eraseP (fun d => d.id == c.id) = links := by
  rw [List.eraseP_append_right _ (by simpa using new)]
  simp

theorem insertIdx_eraseIdx_of_getElem? {index : Nat} (here : links[index]? = some c) :
    (links.eraseIdx index).insertIdx index c = links := by
  induction links generalizing index with
  | nil => simp at here
  | cons d rest ih =>
    cases index with
    | zero =>
      obtain rfl : d = c := by simpa using here
      rfl
    | succ index =>
      rw [List.eraseIdx_cons_succ, List.insertIdx_succ_cons, ih (by simpa using here)]

/-- Putting back what was erased restores a list. -/
theorem insertAt_eraseIdx {index : Nat} (here : links[index]? = some c) :
    insertAt (links.eraseIdx index) index c = links := by
  obtain ⟨bound, -⟩ := List.getElem?_eq_some_iff.1 here
  have room : index ≤ (links.eraseIdx index).length := by
    rw [List.length_eraseIdx_of_lt bound]
    omega
  rw [insertAt, Nat.min_eq_left room, insertIdx_eraseIdx_of_getElem? here]

/-- A connection that was made can be taken back exactly. -/
theorem revertConnect_connect {after : Graph} {change : ConnectionChange} (distinct : g.Distinct)
    (done : g.connect c = .ok (after, change)) : after.revertConnect change = g := by
  cases child : c.isChild with
  | true =>
    obtain ⟨checked, rfl, rfl⟩ := (connect_child child).1 done
    obtain ⟨-, -, -, -, -, new⟩ := checkConnection_ends checked
    rw [revertConnect, connections_relink, eraseP_concat_of_new new]
    exact (relink_relink _ _).trans distinct.relink_self
  | false =>
    obtain ⟨checked, rfl, rfl⟩ := (connect_binding child).1 done
    obtain ⟨-, -, -, -, -, new⟩ := checkConnection_ends checked
    rw [revertConnect, eraseP_concat_of_new new]
    rfl

/-- A connection that was removed can be put back exactly. -/
theorem revertDisconnect_disconnectAt {index : Nat} (distinct : g.Distinct)
    (present : g.contains c.source = true) (here : g.connections[index]? = some c) :
    (g.disconnectAt index c).1.revertDisconnect (g.disconnectAt index c).2 = g := by
  cases child : c.isChild with
  | true =>
    rw [disconnectAt_child child present, revertDisconnect, connections_relink,
      insertAt_eraseIdx here]
    exact (relink_relink _ _).trans distinct.relink_self
  | false =>
    rw [disconnectAt_binding child, revertDisconnect, insertAt_eraseIdx here]
    rfl

end BehaviorTree.Graph
