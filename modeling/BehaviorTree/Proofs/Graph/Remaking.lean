import BehaviorTree.Proofs.Graph.Bindings

/-!
# Making connections again

Validating a graph and checking a single new connection agree about ends, parents, children and
cycles: a connection of a well-formed graph that is removed meets all of these rules when it is made
again. The check also asks that slots are declared and have room and that data nodes are no
children, which validation does not. So all connections of a well-formed graph may be made again
exactly if the graph is bound (`WellFormed.bound_iff`).
-/

namespace BehaviorTree.Graph

variable {g : Graph} {c : Connection} {s t : Node} {index : Nat}

theorem checkConnection_eq_ok (source : g.node? c.source = some s)
    (target : g.node? c.target = some t) : g.checkConnection c = .ok () ↔
      (c.isChild = true → rootChild? s = none) ∧ c.source ≠ c.target ∧
        (∀ d ∈ g.connections, d.id ≠ c.id) ∧
        (if c.isChild then g.checkNewChild s t else g.checkNewBinding t c.targetSlot) = .ok () := by
  unfold checkConnection
  simp only [source, target]
  cases kind : c.kind with
  | child =>
    have child : c.isChild = true := by rw [Connection.isChild, kind]; rfl
    cases rootChild? s with
    | some existing => simp [child]
    | none => simp [child, Checks.guard_eq_ok]
  | binding =>
    have binding : c.isChild = false := by rw [Connection.isChild, kind]; rfl
    simp [binding, Checks.guard_eq_ok]

/-! ## Child connections -/

theorem acceptsChildren_of_admits {kind : NodeKind} {count : Nat} (admits : kind.Admits count)
    (some : 0 < count) : kind.acceptsChildren = true := by
  cases kind <;> simp_all [NodeKind.Admits, NodeKind.acceptsChildren]

/-- A node with at most one child has none left without that one. -/
theorem childrenWithout_eq_nil (child : g.IsChild c.source c.target)
    (few : (g.children c.source).length ≤ 1) : g.childrenWithout c = [] := by
  rw [List.eq_nil_iff_forall_not_mem]
  intro a left
  obtain ⟨listed, ne⟩ := mem_childrenWithout.1 left
  unfold IsChild at child listed
  match children : g.children c.source with
  | [] => simp [children] at child
  | [only] => simp_all
  | _ :: _ :: _ => simp [children] at few

theorem Distinct.parent?_eq_none {b : String} (distinct : g.Distinct)
    (orphan : ∀ a, ¬ g.IsChild a b) : g.parent? b = none := by
  rw [parent?, Option.map_eq_none_iff, List.find?_eq_none]
  intro n member listed
  apply orphan n.id
  rw [IsChild, distinct.children_of_mem member]
  simpa using listed

/-- Without a child connection, its ends are as they must be for it to be made, but for the kind of
the child. -/
theorem WellFormed.checkNewChild_again (wf : g.WellFormed)
    (here : g.connections[index]? = some c) (child : c.isChild = true)
    (source : g.node? c.source = some s) (target : g.node? c.target = some t) :
    (g.relink c.source (g.childrenWithout c) (g.connections.eraseIdx index)).checkNewChild
      { s with children := g.childrenWithout c } t = .ok () ↔ t.kind ≠ .data := by
  have isChild := wf.agrees c (List.mem_of_getElem? here) child
  have present := contains_of_node? source
  have listed : c.target ∈ s.children := children_of_node? source ▸ isChild
  have admits := wf.arity s (mem_of_node? source)
  have not_root : t.kind ≠ .root := fun root =>
    wf.child_ne_root isChild (id_of_node? target ▸ wf.root_only t (mem_of_node? target) root)
  have accepts : s.kind.acceptsChildren = true :=
    acceptsChildren_of_admits admits (List.length_pos_of_mem listed)
  have free : ¬ (s.kind = .decorator ∧ g.childrenWithout c ≠ []) := by
    rintro ⟨decorator, left⟩
    rw [decorator, ← children_of_node? source] at admits
    exact left (childrenWithout_eq_nil isChild admits)
  have orphan : (g.relink c.source (g.childrenWithout c)
      (g.connections.eraseIdx index)).parent? t.id = none := by
    refine wf.distinct.relink.parent?_eq_none fun a again => ?_
    obtain ⟨before, other⟩ := (isChild_relink_childrenWithout present).1 again
    rw [id_of_node? target] at before other
    exact other ⟨wf.one_parent before isChild, rfl⟩
  have no_path : ¬ (g.relink c.source (g.childrenWithout c)
      (g.connections.eraseIdx index)).Reaches t.id s.id := by
    intro path
    rw [id_of_node? target, id_of_node? source] at path
    exact wf.acyclic isChild
      (path.mono fun a b child => ((isChild_relink_childrenWithout present).1 child).1)
  rw [checkNewChild_eq_ok]
  exact ⟨fun ⟨_, no_data, _⟩ => no_data,
    fun no_data => ⟨not_root, no_data, accepts, free, orphan, no_path⟩⟩

/-- A removed child connection may be made again unless the child is a data node. -/
theorem WellFormed.connect_again_child (wf : g.WellFormed)
    (here : g.connections[index]? = some c) (child : c.isChild = true) :
    (∃ out, (g.disconnectAt index c).1.connect c = .ok out) ↔
      ∀ u, g.template? c.target = some u → u.kind ≠ .data := by
  have member := List.mem_of_getElem? here
  obtain ⟨present, present'⟩ := wf.ends_exist c member
  obtain ⟨s, source⟩ := exists_node? present
  obtain ⟨t, target⟩ := exists_node? present'
  have ne := wf.no_loops c member
  let left := g.relink c.source (g.childrenWithout c) (g.connections.eraseIdx index)
  have source' : left.node? c.source = some { s with children := g.childrenWithout c } := by
    rw [node?_relink, source, Option.map_some, if_pos (id_of_node? source)]
  have target' : left.node? c.target = some t := by
    rw [node?_relink, target, Option.map_some, if_neg]
    exact id_of_node? target ▸ ne.symm
  have room : rootChild? { s with children := g.childrenWithout c } = none := by
    unfold rootChild?
    split
    · next root =>
      have admits := wf.arity s (mem_of_node? source)
      rw [show s.kind = .root from root, ← children_of_node? source] at admits
      rw [childrenWithout_eq_nil (wf.agrees c member child) admits]
      rfl
    · rfl
  have new : ∀ d ∈ left.connections, d.id ≠ c.id := fun d =>
    id_ne_of_mem_eraseIdx wf.connection_ids here
  rw [disconnectAt_child child present, exists_connect_iff, checkConnection_eq_ok source' target',
    if_pos child, wf.checkNewChild_again here child source target, template?_of_node? target]
  constructor
  · rintro ⟨-, -, -, no_data⟩ _ ⟨⟩
    exact no_data
  · exact fun no_data => ⟨fun _ => room, ne, new, no_data _ rfl⟩

/-! ## Bindings -/

/-- With a binding removed, its slot is free exactly if no other binding led into it. -/
theorem bindingsIntoSlot_eraseIdx {name : String} (here : g.connections[index]? = some c)
    (binding : c.isChild = false) (named : c.targetSlot = some name) :
    (g.bindingsIntoSlot c.target name).length =
      ({ g with connections := g.connections.eraseIdx index }.bindingsIntoSlot
        c.target name).length + 1 := by
  obtain ⟨bound, is⟩ := List.getElem?_eq_some_iff.1 here
  have split := (List.getElem_cons_eraseIdx_perm bound).filter
    fun d => (!d.isChild && d.target == c.target) && d.targetSlot == some name
  rw [bindingsIntoSlot_eq, bindingsIntoSlot_eq, ← split.length_eq, is,
    List.filter_cons_of_pos (by simp [binding, named]), List.length_cons]

/-- A removed binding may be made again exactly if its slot is declared and has room for all that
leads into it. -/
theorem WellFormed.connect_again_binding (wf : g.WellFormed)
    (here : g.connections[index]? = some c) (binding : c.isChild = false) :
    (∃ out, (g.disconnectAt index c).1.connect c = .ok out) ↔ ∃ u name slot,
      g.template? c.target = some u ∧ c.targetSlot = some name ∧ u.slot? name = some slot ∧
        (slot.multiple = false → (g.bindingsIntoSlot c.target name).length ≤ 1) := by
  have member := List.mem_of_getElem? here
  obtain ⟨present, present'⟩ := wf.ends_exist c member
  obtain ⟨s, source⟩ := exists_node? present
  obtain ⟨t, target⟩ := exists_node? present'
  let left : Graph := { g with connections := g.connections.eraseIdx index }
  have new : ∀ d ∈ left.connections, d.id ≠ c.id := fun d =>
    id_ne_of_mem_eraseIdx wf.connection_ids here
  have free {name : String} (named : c.targetSlot = some name) :
      left.bindingsIntoSlot c.target name = [] ↔ (g.bindingsIntoSlot c.target name).length ≤ 1 := by
    rw [bindingsIntoSlot_eraseIdx here binding named, ← List.length_eq_zero_iff]
    exact (Nat.succ_le_succ_iff.trans Nat.le_zero).symm
  have source' : left.node? c.source = some s := source
  have target' : left.node? c.target = some t := target
  rw [disconnectAt_binding binding, exists_connect_iff, checkConnection_eq_ok source' target',
    if_neg (by simp [binding]), checkNewBinding_eq_ok, id_of_node? target,
    template?_of_node? target]
  constructor
  · rintro ⟨-, -, -, name, slot, named, declared, room⟩
    exact ⟨_, name, slot, rfl, named, declared, fun single => (free named).1 (room single)⟩
  · rintro ⟨_, name, slot, ⟨⟩, named, declared, room⟩
    exact ⟨by simp [binding], wf.no_loops c member, new, name, slot, named, declared,
      fun single => (free named).2 (room single)⟩

/-! ## All connections -/

/-- A well-formed graph is bound exactly if each of its connections, once removed, may be made
again. -/
theorem WellFormed.bound_iff (wf : g.WellFormed) : g.Bound ↔
    ∀ (index : Nat) (c : Connection), g.connections[index]? = some c →
      ∃ out, (g.disconnectAt index c).1.connect c = .ok out := by
  constructor
  · intro bound index c here
    have member := List.mem_of_getElem? here
    cases child : c.isChild with
    | true =>
      exact (wf.connect_again_child here child).2
        fun u => bound.no_data _ _ u (wf.agrees c member child)
    | false =>
      obtain ⟨u, name, slot, found, named, declared⟩ := bound.declared c member child
      exact (wf.connect_again_binding here child).2 ⟨u, name, slot, found, named, declared,
        bound.room _ u name slot found declared⟩
  · intro again
    have binding {c : Connection} (member : c ∈ g.connections) (kind : c.isChild = false) :
        ∃ u name slot, g.template? c.target = some u ∧ c.targetSlot = some name ∧
          u.slot? name = some slot ∧
          (slot.multiple = false → (g.bindingsIntoSlot c.target name).length ≤ 1) := by
      obtain ⟨index, here⟩ := List.mem_iff_getElem?.1 member
      exact (wf.connect_again_binding here kind).1 (again index c here)
    exact
      { declared := by
          intro c member kind
          obtain ⟨u, name, slot, found, named, declared, -⟩ := binding member kind
          exact ⟨u, name, slot, found, named, declared⟩
        room := by
          intro id u name slot found declared single
          by_contra crowded
          obtain ⟨c, leads⟩ := List.exists_mem_of_length_pos (Nat.lt_of_not_le fun none =>
            crowded (Nat.le_trans none (Nat.zero_le 1)))
          rw [bindingsIntoSlot_eq, List.mem_filter] at leads
          obtain ⟨member, into⟩ := leads
          simp only [Bool.and_eq_true, Bool.not_eq_true', beq_iff_eq] at into
          obtain ⟨⟨kind, rfl⟩, named⟩ := into
          obtain ⟨u', name', slot', found', named', declared', room⟩ := binding member kind
          obtain rfl := Option.some.inj (found.symm.trans found')
          obtain rfl := Option.some.inj (named.symm.trans named')
          obtain rfl := Option.some.inj (declared.symm.trans declared')
          exact crowded (room single)
        no_data := by
          intro a b u child found
          obtain ⟨c, member, kind, rfl, rfl⟩ := wf.connected child
          obtain ⟨index, here⟩ := List.mem_iff_getElem?.1 member
          exact (wf.connect_again_child here kind).1 (again index c here) u found }

end BehaviorTree.Graph
