import BehaviorTree.Proofs.History.Commands

/-!
# Bindings

Validation looks at the connections between parents and children only. What holds of the others is
up to the edits: a binding leads into a slot that its target declares, and a slot that takes one
binding gets no second one (`Bound`). Data nodes supply values through bindings and are nobody's
children. Every command keeps this.
-/

namespace BehaviorTree.Graph

/-- The bindings that lead into a slot of a node. -/
def bindingsIntoSlot (g : Graph) (id slot : String) : List Connection :=
  (g.bindingsInto id).filter fun c => c.targetSlot == some slot

/-- The template of a node. -/
def template? (g : Graph) (id : String) : Option NodeTemplate := (g.node? id).map (·.template)

/-- Bindings lead into declared slots, slots have room for what leads into them, and no data node is
a child. -/
structure Bound (g : Graph) : Prop where
  declared : ∀ c ∈ g.connections, c.isChild = false → ∃ t name slot,
    g.template? c.target = some t ∧ c.targetSlot = some name ∧ t.slot? name = some slot
  room : ∀ id t name slot, g.template? id = some t → t.slot? name = some slot →
    slot.multiple = false → (g.bindingsIntoSlot id name).length ≤ 1
  no_data : ∀ a b t, g.IsChild a b → g.template? b = some t → t.kind ≠ .data

variable {g h : Graph} {c : Connection}

theorem template?_of_node? {id : String} {n : Node} (found : g.node? id = some n) :
    g.template? id = some n.template := by
  rw [template?, found]
  rfl

theorem exists_template? {id : String} (present : g.contains id = true) :
    ∃ t, g.template? id = some t := by
  obtain ⟨n, found⟩ := exists_node? present
  exact ⟨_, template?_of_node? found⟩

theorem bindingsIntoSlot_eq (g : Graph) (id slot : String) : g.bindingsIntoSlot id slot =
    g.connections.filter fun c => (!c.isChild && c.target == id) && c.targetSlot == some slot := by
  rw [bindingsIntoSlot, bindingsInto, List.filter_filter]
  apply List.filter_congr
  intro c _
  rw [Bool.and_comm]

/-- A graph with fewer children and connections and no other templates is bound as well. -/
theorem Bound.thin (bound : g.Bound) (templates : ∀ id t, h.template? id = some t →
      g.template? id = some t)
    (children : ∀ a b, h.IsChild a b → g.IsChild a b)
    (connections : h.connections.Sublist g.connections)
    (ends : ∀ c ∈ h.connections, h.contains c.target = true) : h.Bound where
  declared c member binding := by
    obtain ⟨t, name, slot, found, named, declared⟩ :=
      bound.declared c (connections.subset member) binding
    obtain ⟨t', found'⟩ := exists_template? (ends c member)
    obtain rfl := Option.some.inj ((templates _ _ found').symm.trans found)
    exact ⟨t', name, slot, found', named, declared⟩
  room id t name slot found declared single := by
    have few := bound.room id t name slot (templates id t found) declared single
    rw [bindingsIntoSlot_eq] at few ⊢
    exact Nat.le_trans (connections.filter _).length_le few
  no_data a b t child found := bound.no_data a b t (children a b child) (templates b t found)

theorem template?_relink {parent : String} {listed : List String} {links : List Connection}
    (id : String) : (g.relink parent listed links).template? id = g.template? id := by
  rw [template?, node?_relink, template?, Option.map_map]
  congr 1
  funext n
  by_cases here : n.id = parent <;> simp [here]

theorem Bound.renumber (bound : g.Bound) {number : Nat} : (g.renumber number).Bound :=
  ⟨bound.declared, bound.room, bound.no_data⟩

theorem SameShape.bound (same : g.SameShape h) (wf : g.WellFormed) (bound : g.Bound) : h.Bound := by
  refine bound.thin (fun id t found => ?_) (fun a b => same.isChild.1)
    (same.connections ▸ List.Sublist.refl _) fun c member =>
      ((same.wellFormed wf).ends_exist c member).2
  have := congrArg (Option.map (·.2.1)) (same.node? id)
  simp only [Option.map_map, Function.comp_def, Node.shape] at this
  exact this.symm.trans found

theorem Bound.without (wf : g.WellFormed) (bound : g.Bound) {ids : List String}
    (stays : Node.rootId ∉ ids) : (g.without ids).Bound := by
  refine bound.thin (fun id t found => ?_) (fun a b child => (isChild_without.1 child).2.2)
    List.filter_sublist fun c member => ((wf.without stays).ends_exist c member).2
  rw [template?, node?_without] at found
  split at found
  · cases found
  · rw [template?, ← found, Option.map_map]
    rfl

theorem Bound.disconnectAt (wf : g.WellFormed) (bound : g.Bound) {index : Nat}
    (here : g.connections[index]? = some c) : (g.disconnectAt index c).1.Bound := by
  have wf' := wf.disconnectAt here
  have present := (wf.ends_exist c (List.mem_of_getElem? here)).1
  cases child : c.isChild with
  | true =>
    rw [disconnectAt_child child present] at wf' ⊢
    exact bound.thin (fun id t found => template?_relink id ▸ found)
      (fun a b child => ((isChild_relink_childrenWithout present).1 child).1)
      (List.eraseIdx_sublist ..) fun c member => (wf'.ends_exist c member).2
  | false =>
    rw [disconnectAt_binding child] at wf' ⊢
    exact bound.thin (fun id t found => found) (fun a b child => child)
      (List.eraseIdx_sublist ..) fun c member => (wf'.ends_exist c member).2

theorem Bound.withNode (wf : g.WellFormed) (bound : g.Bound) {n : Node}
    (checked : g.checkNewNode n = .ok ()) (childless : n.children = []) : (g.withNode n).Bound := by
  obtain ⟨new, -, -⟩ := wf.new_of_checkNewNode checked
  have other {id : String} (present : g.contains id = true) :
      (g.withNode n).template? id = g.template? id := by
    have ne : id ≠ n.id := by
      rintro rfl
      simp [new] at present
    rw [template?, node?_withNode new, if_neg ne, template?]
  exact
    { declared := by
        intro c member binding
        rw [other (wf.ends_exist c member).2]
        exact bound.declared c member binding
      room := by
        intro id t name slot found declared single
        by_cases present : g.contains id = true
        · exact bound.room id t name slot (other present ▸ found) declared single
        · -- No connection leads to a node that was not there.
          have none : g.bindingsIntoSlot id name = [] := by
            rw [bindingsIntoSlot_eq, List.filter_eq_nil_iff]
            intro c member
            have target : c.target ≠ id := fun eq => present (eq ▸ (wf.ends_exist c member).2)
            simp [target]
          have same : (g.withNode n).bindingsIntoSlot id name = g.bindingsIntoSlot id name := rfl
          rw [same, none]
          exact Nat.zero_le _
      no_data := by
        intro a b t child found
        have child := (isChild_withNode new childless).1 child
        exact bound.no_data a b t child (other (wf.child_exists child) ▸ found) }

theorem checkNewBinding_eq_ok {n : Node} {name : Option String} :
    g.checkNewBinding n name = .ok () ↔ ∃ s slot, name = some s ∧ n.template.slot? s = some slot ∧
      (slot.multiple = false → g.bindingsIntoSlot n.id s = []) := by
  cases name with
  | none => simp [checkNewBinding]
  | some s =>
    cases declared : n.template.slot? s with
    | none => simp [checkNewBinding, declared]
    | some slot =>
      simp only [checkNewBinding, declared, Checks.guard_eq_ok, and_true, Option.some.injEq,
        exists_eq_left', exists_and_left, bindingsIntoSlot, List.filter_eq_nil_iff]
      cases slot.multiple <;> simp

theorem Bound.connect_child (bound : g.Bound) {after : Graph} {change : ConnectionChange}
    (child : c.isChild = true) (done : g.connect c = .ok (after, change)) : after.Bound := by
  obtain ⟨checked, rfl, -⟩ := (Graph.connect_child child).1 done
  obtain ⟨s, t, source, target, -, -⟩ := checkConnection_ends checked
  obtain ⟨-, newChild⟩ := checkConnection_child child source target checked
  obtain ⟨-, not_data, -⟩ := checkNewChild_eq_ok.1 newChild
  have present := contains_of_node? source
  exact
    { declared := by
        intro d member binding
        rw [template?_relink]
        rcases List.mem_append.1 member with member | member
        · exact bound.declared d member binding
        · obtain rfl := List.mem_singleton.1 member
          simp [child] at binding
      room := by
        intro id t name slot found declared single
        rw [template?_relink] at found
        have few := bound.room id t name slot found declared single
        rw [bindingsIntoSlot_eq] at few ⊢
        simpa [child] using few
      no_data := by
        intro a b u child found
        rw [template?_relink] at found
        rcases (isChild_relink_childrenWith present).1 child with child | ⟨rfl, rfl⟩
        · exact bound.no_data a b u child found
        · rw [template?_of_node? target] at found
          exact Option.some.inj found ▸ not_data }

theorem Bound.connect_binding (bound : g.Bound) {after : Graph} {change : ConnectionChange}
    (binding : c.isChild = false) (done : g.connect c = .ok (after, change)) : after.Bound := by
  obtain ⟨checked, rfl, -⟩ := (Graph.connect_binding binding).1 done
  obtain ⟨s, n, -, target, -, -⟩ := checkConnection_ends checked
  obtain ⟨name, slot, named, declared, free⟩ :=
    checkNewBinding_eq_ok.1 (checkConnection_binding binding target checked)
  exact
    { declared := by
        intro d member isBinding
        rcases List.mem_append.1 member with member | member
        · exact bound.declared d member isBinding
        · obtain rfl := List.mem_singleton.1 member
          exact ⟨_, name, slot, template?_of_node? target, named, declared⟩
      room := by
        intro id t name' slot' found declared' single
        have few := bound.room id t name' slot' found declared' single
        rw [bindingsIntoSlot_eq] at few ⊢
        rw [List.filter_append, List.length_append]
        by_cases here : id = c.target ∧ name' = name
        · -- The slot has no binding yet, or it would not have taken this one.
          obtain ⟨rfl, rfl⟩ := here
          obtain rfl := Option.some.inj ((template?_of_node? target).symm.trans found)
          obtain rfl := Option.some.inj (declared.symm.trans declared')
          have empty := free single
          rw [id_of_node? target, bindingsIntoSlot_eq] at empty
          rw [empty, List.length_nil, Nat.zero_add]
          exact List.length_filter_le _ [c]
        · have elsewhere : ([c].filter fun c =>
              (!c.isChild && c.target == id) && c.targetSlot == some name') = [] := by
            have differ : c.target = id → name ≠ name' := by
              rintro rfl rfl
              exact here ⟨rfl, rfl⟩
            simpa [binding, named] using differ
          rw [elsewhere]
          exact few
      no_data := bound.no_data }

/-- A command that is done keeps bindings in order. -/
theorem Bound.execute (wf : g.WellFormed) (bound : g.Bound) {command : Command}
    (childless : command.Childless) {after : Graph} {receipt : Receipt}
    (done : command.execute g = .ok (after, receipt)) : after.Bound := by
  cases command with
  | addNode n =>
    obtain ⟨checked, rfl, -⟩ := execute_addNode.1 done
    exact bound.withNode wf checked childless
  | removeNodes ids =>
    obtain ⟨removed, edited, -⟩ := execute_removeNodes.1 done
    obtain ⟨removable, rfl, -⟩ := removeNodes_eq_ok.1 edited
    exact bound.without wf fun listed => (removable _ listed).1 rfl
  | moveNodes moves =>
    obtain ⟨before, edited, -⟩ := execute_moveNodes.1 done
    exact (sameShape_moveNodes edited).bound wf bound
  | addConnection c =>
    obtain ⟨change, edited, -⟩ := execute_addConnection.1 done
    cases child : c.isChild with
    | true => exact bound.connect_child child edited
    | false => exact bound.connect_binding child edited
  | removeConnections connections =>
    obtain ⟨-, changes, edited, -⟩ := execute_removeConnections.1 done
    have keeps {h : Graph} {d : Connection} {index : Nat} (holds : h.WellFormed ∧ h.Bound)
        (here : h.connections[index]? = some d) :
        (h.disconnectAt index d).1.WellFormed ∧ (h.disconnectAt index d).1.Bound :=
      ⟨holds.1.disconnectAt here, holds.2.disconnectAt holds.1 here⟩
    exact (foldlM_disconnectStep_keeps keeps ⟨wf, bound⟩ edited).2
  | setProperty id key value =>
    obtain ⟨before, edited, -⟩ := execute_setProperty.1 done
    exact (sameShape_setProperty edited).bound wf bound

end BehaviorTree.Graph
