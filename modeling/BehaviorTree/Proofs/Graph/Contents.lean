import BehaviorTree.Proofs.Graph.WellFormed

/-!
# Edits of positions and configurations

Moving nodes and writing their configuration leave the shape of a graph alone: ids, templates,
children and connections stay (`SameShape`), and with them whatever is said of shapes. Taking such
an edit back brings the former contents of the nodes back.
-/

namespace BehaviorTree

/-- What of a node does not depend on its position and configuration. -/
def Node.shape (n : Node) : String × NodeTemplate × List String := (n.id, n.template, n.children)

namespace Graph

/-- Two graphs differ in the positions and configurations of nodes at most. -/
structure SameShape (g h : Graph) : Prop where
  nodes : h.nodes.map Node.shape = g.nodes.map Node.shape
  connections : h.connections = g.connections

variable {g h : Graph} {id : String}

/-! ## Shapes -/

theorem SameShape.symm (same : g.SameShape h) : h.SameShape g :=
  ⟨same.nodes.symm, same.connections.symm⟩

theorem SameShape.ids (same : g.SameShape h) : h.nodes.map (·.id) = g.nodes.map (·.id) := by
  simpa [Function.comp_def, Node.shape] using congrArg (List.map (·.1)) same.nodes

/-- A node of one graph has a counterpart in the other. -/
theorem SameShape.exists_mem (same : g.SameShape h) {n : Node} (member : n ∈ h.nodes) :
    ∃ m ∈ g.nodes, m.shape = n.shape := by
  have listed : n.shape ∈ g.nodes.map Node.shape := same.nodes ▸ List.mem_map_of_mem member
  exact List.mem_map.1 listed

theorem map_shape_node? (g : Graph) (id : String) :
    (g.node? id).map Node.shape = (g.nodes.map Node.shape).find? fun s => s.1 == id := by
  rw [node?, List.find?_map]
  rfl

theorem SameShape.node? (same : g.SameShape h) (id : String) :
    (h.node? id).map Node.shape = (g.node? id).map Node.shape := by
  rw [map_shape_node?, map_shape_node?, same.nodes]

theorem SameShape.exists_node? (same : g.SameShape h) {n : Node} (found : h.node? id = some n) :
    ∃ m, g.node? id = some m ∧ m.shape = n.shape := by
  have := same.node? id
  rw [found, Option.map_some] at this
  exact Option.map_eq_some_iff.1 this.symm

theorem SameShape.contains (same : g.SameShape h) (id : String) :
    h.contains id = g.contains id := by
  have := congrArg Option.isSome (same.node? id)
  simpa [Graph.contains] using this

theorem SameShape.children (same : g.SameShape h) (id : String) :
    h.children id = g.children id := by
  have := congrArg (Option.map (·.2.2)) (same.node? id)
  simp only [Option.map_map, Function.comp_def, Node.shape] at this
  simp only [Graph.children, this]

theorem SameShape.isChild (same : g.SameShape h) {a b : String} :
    h.IsChild a b ↔ g.IsChild a b := by
  rw [IsChild, IsChild, same.children]

theorem SameShape.reaches (same : g.SameShape h) {a b : String} :
    h.Reaches a b ↔ g.Reaches a b := by
  have equal : h.IsChild = g.IsChild := by
    funext a b
    exact propext same.isChild
  rw [Reaches, Reaches, equal]

theorem SameShape.wellFormed (same : g.SameShape h) (wf : g.WellFormed) : h.WellFormed where
  root := by
    obtain ⟨r, found, kind⟩ := wf.root
    obtain ⟨s, found', shape⟩ := same.symm.exists_node? found
    simp only [Node.shape, Prod.mk.injEq] at shape
    exact ⟨s, found', by rw [Node.kind, shape.2.1]; exact kind⟩
  root_only := by
    intro n member kind
    obtain ⟨m, member', shape⟩ := same.exists_mem member
    simp only [Node.shape, Prod.mk.injEq] at shape
    rw [← shape.1]
    exact wf.root_only m member' (by rw [Node.kind, shape.2.1]; exact kind)
  arity := by
    intro n member
    obtain ⟨m, member', shape⟩ := same.exists_mem member
    simp only [Node.shape, Prod.mk.injEq] at shape
    have := wf.arity m member'
    rwa [Node.kind, shape.2.1, shape.2.2] at this
  child_exists child := by rw [same.contains]; exact wf.child_exists (same.isChild.1 child)
  child_ne_root child := wf.child_ne_root (same.isChild.1 child)
  children_nodup a := by rw [same.children]; exact wf.children_nodup a
  one_parent first second := wf.one_parent (same.isChild.1 first) (same.isChild.1 second)
  connected child := by
    rw [Connects, same.connections]
    exact wf.connected (same.isChild.1 child)
  ends_exist c member := by
    rw [same.contains, same.contains]
    exact wf.ends_exist c (same.connections ▸ member)
  agrees c member isChild := same.isChild.2 (wf.agrees c (same.connections ▸ member) isChild)
  acyclic child path := wf.acyclic (same.isChild.1 child) (same.reaches.1 path)
  distinct := by rw [Distinct, same.ids]; exact wf.distinct
  connection_ids := by rw [same.connections]; exact wf.connection_ids
  no_loops c member := wf.no_loops c (same.connections ▸ member)

/-- A change of nodes that keeps their shapes keeps the shape of the graph. -/
theorem sameShape_update {f : Node → Node} (keeps : ∀ n, (f n).shape = n.shape) :
    g.SameShape (g.update id f) where
  nodes := by
    rw [update, List.map_map]
    apply List.map_congr_left
    intro n _
    by_cases h : n.id = id <;> simp [h, keeps n]
  connections := rfl

/-! ## Configurations -/

/-- A configuration with one entry written or cleared. -/
def writeEntry (data : Dict Value) (key : String) : Option Value → Dict Value
  | some value => data.insert key value
  | none => data.erase key

theorem get?_writeEntry_self (data : Dict Value) (key : String) (value : Option Value) :
    (writeEntry data key value).get? key = value := by
  cases value <;> simp [writeEntry]

theorem get?_writeEntry_of_ne (data : Dict Value) {key other : String} (ne : other ≠ key)
    (value : Option Value) : (writeEntry data key value).get? other = data.get? other := by
  cases value with
  | none => exact data.get?_erase_of_ne ne
  | some value => exact data.get?_insert_of_ne ne value

/-- Writing back what stood there restores a configuration. -/
theorem writeEntry_restore (data : Dict Value) (key : String) (value : Option Value) :
    writeEntry (writeEntry data key value) key (data.get? key) = data := by
  refine Dict.ext_get? fun other => ?_
  by_cases eq : other = key
  · subst eq
    exact get?_writeEntry_self _ _ _
  · rw [get?_writeEntry_of_ne _ eq, get?_writeEntry_of_ne _ eq]

/-- A write finds its node and gives back the entry as it was. -/
theorem setProperty_eq_ok {key : String} {value before : Option Value} {after : Graph} :
    g.setProperty id key value = .ok (after, before) ↔ ∃ n, g.node? id = some n ∧
      before = n.data.get? key ∧
      after = g.update id fun m => { m with data := writeEntry n.data key value } := by
  unfold setProperty
  cases g.node? id with
  | none => simp
  | some n => cases value <;> simp [writeEntry, eq_comm, and_comm]

theorem sameShape_setProperty {key : String} {value before : Option Value} {after : Graph}
    (done : g.setProperty id key value = .ok (after, before)) : g.SameShape after := by
  obtain ⟨n, -, -, rfl⟩ := setProperty_eq_ok.1 done
  exact sameShape_update fun _ => rfl

/-- Writing the former entry takes a write back. -/
theorem setProperty_restore {key : String} {value before : Option Value} {after : Graph}
    (distinct : g.Distinct) (done : g.setProperty id key value = .ok (after, before)) :
    ∃ again, after.setProperty id key before = .ok (g, again) := by
  obtain ⟨n, found, rfl, rfl⟩ := setProperty_eq_ok.1 done
  have keeps : KeepsIds fun m : Node => { m with data := writeEntry n.data key value } :=
    fun _ => rfl
  refine ⟨_, setProperty_eq_ok.2 ⟨{ n with data := writeEntry n.data key value }, ?_, rfl, ?_⟩⟩
  · rw [node?_update keeps, found, Option.map_some, if_pos (id_of_node? found)]
  · rw [update_update keeps]
    refine (distinct.update_eq_self fun m found' => ?_).symm
    obtain rfl := Option.some.inj (found.symm.trans found')
    simp [writeEntry_restore]

/-! ## Positions -/

/-- A node at the place that a list of moves gives it. -/
def relocate (moves : List (String × Position)) (n : Node) : Node :=
  { n with position := (moves.lookup n.id).getD n.position }

/-- The graph with all nodes at the places that a list of moves gives them. -/
def relocated (g : Graph) (moves : List (String × Position)) : Graph :=
  { g with nodes := g.nodes.map (relocate moves) }

/-- Where a node stands; the origin if there is no such node. -/
def place (g : Graph) (id : String) : Position := ((g.node? id).map (·.position)).getD {}

theorem sameShape_relocated (moves : List (String × Position)) : g.SameShape (g.relocated moves) where
  nodes := by
    rw [relocated, List.map_map]
    exact List.map_congr_left fun _ _ => rfl
  connections := rfl

/-- Moves made one after the other are made at once if no node is moved twice. -/
theorem foldl_update_position {moves : List (String × Position)} (ordered : Entries.Ordered moves) :
    moves.foldl (fun g p => g.update p.1 fun n => { n with position := p.2 }) g =
      g.relocated moves := by
  induction moves generalizing g with
  | nil =>
    have unchanged : ∀ n ∈ g.nodes, relocate [] n = n := fun n _ => rfl
    rw [List.foldl_nil, relocated, List.map_congr_left unchanged, List.map_id']
  | cons move rest ih =>
    obtain ⟨above, tail⟩ := List.pairwise_cons.1 ordered
    have last : rest.lookup move.1 = none := Entries.lookup_of_below above
    rw [List.foldl_cons, ih tail]
    simp only [relocated, update, List.map_map]
    congr 1
    apply List.map_congr_left
    intro n _
    by_cases h : n.id = move.1
    · simp [relocate, h, Entries.lookup_cons, last]
    · simp [relocate, h, Entries.lookup_cons]

theorem mapM_positionOf_eq_ok {keys : List String} {found : List (String × Position)} :
    keys.mapM g.positionOf = .ok found ↔
      (∀ key ∈ keys, g.contains key = true) ∧ found = keys.map fun key => (key, g.place key) := by
  induction keys generalizing found with
  | nil => exact ⟨fun h => ⟨by simp, (Except.ok.inj h).symm⟩, fun h => h.2 ▸ rfl⟩
  | cons key rest ih =>
    have first {p : String × Position} :
        g.positionOf key = .ok p ↔ g.contains key = true ∧ p = (key, g.place key) := by
      unfold positionOf Graph.contains place
      cases g.node? key <;> simp [eq_comm]
    rw [Checks.mapM_cons_eq_ok, List.forall_mem_cons, List.map_cons]
    constructor
    · rintro ⟨p, others, step, steps, rfl⟩
      obtain ⟨here, rfl⟩ := first.1 step
      obtain ⟨there, rfl⟩ := ih.1 steps
      exact ⟨⟨here, there⟩, rfl⟩
    · rintro ⟨⟨here, there⟩, rfl⟩
      exact ⟨_, _, first.2 ⟨here, rfl⟩, ih.2 ⟨there, rfl⟩, rfl⟩

/-- Moves need their nodes and give back where these stood. -/
theorem moveNodes_eq_ok {moves before : Dict Position} {after : Graph} :
    g.moveNodes moves = .ok (after, before) ↔ (∀ key ∈ moves.keys, g.contains key = true) ∧
      after = g.relocated moves.entries ∧
      before = .ofList (moves.keys.map fun key => (key, g.place key)) := by
  simp only [moveNodes, Checks.bind_eq_ok, mapM_positionOf_eq_ok,
    foldl_update_position moves.ordered, pure, Except.pure, Except.ok.injEq, Prod.mk.injEq]
  constructor
  · rintro ⟨_, ⟨present, rfl⟩, rfl, rfl⟩
    exact ⟨present, rfl, rfl⟩
  · rintro ⟨present, rfl, rfl⟩
    exact ⟨_, ⟨present, rfl⟩, rfl, rfl⟩

theorem sameShape_moveNodes {moves before : Dict Position} {after : Graph}
    (done : g.moveNodes moves = .ok (after, before)) : g.SameShape after := by
  obtain ⟨-, rfl, -⟩ := moveNodes_eq_ok.1 done
  exact sameShape_relocated moves.entries

/-- Moving the nodes back where they stood takes moves back. -/
theorem moveNodes_restore {moves before : Dict Position} {after : Graph} (distinct : g.Distinct)
    (done : g.moveNodes moves = .ok (after, before)) :
    ∃ again, after.moveNodes before = .ok (g, again) := by
  have same := sameShape_moveNodes done
  obtain ⟨present, rfl, eq⟩ := moveNodes_eq_ok.1 done
  have former (key : String) :
      before.entries.lookup key = if key ∈ moves.keys then some (g.place key) else none :=
    eq ▸ Dict.get?_ofList_map g.place moves.keys key
  have keys (key : String) (member : key ∈ before.keys) : key ∈ moves.keys := by
    by_contra new
    have found := Entries.lookup_isSome.2 member
    rw [former, if_neg new] at found
    cases found
  refine ⟨_, moveNodes_eq_ok.2 ⟨fun key member => ?_, ?_, rfl⟩⟩
  · rw [same.contains]
    exact present key (keys key member)
  · have unchanged : ∀ n ∈ g.nodes,
        relocate before.entries (relocate moves.entries n) = n := by
      intro n member
      have stands : g.place n.id = n.position := by rw [place, distinct.node?_of_mem member]; rfl
      simp only [relocate, former]
      by_cases moved : n.id ∈ moves.keys
      · simp [moved, stands]
      · have unmoved : moves.entries.lookup n.id = none :=
          Option.not_isSome_iff_eq_none.1 (mt Entries.lookup_isSome.1 moved)
        simp [moved, unmoved]
    have nodes : g.nodes.map (relocate before.entries ∘ relocate moves.entries) = g.nodes :=
      (List.map_congr_left unchanged).trans (List.map_id' _)
    simp only [relocated, List.map_map, nodes]

end Graph

end BehaviorTree
