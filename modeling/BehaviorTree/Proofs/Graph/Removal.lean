import BehaviorTree.Proofs.Graph.WellFormed

/-!
# Adding and removing nodes

A removal takes nodes out of the list, their connections out of the other list, and their ids out of
the children of those that stay; what it took is recorded with its places. Putting the recorded
entries back in ascending order of their places restores a list (`foldl_insertAt_removed`), and
putting back the recorded children undoes the pruning, so a removal is undone exactly
(`restoreNodes_without`).
-/

namespace BehaviorTree.Graph

variable {g : Graph} {ids : List String} {a b : String} {n : Node}

/-! ## Adding -/

/-- The graph with one more node. -/
def withNode (g : Graph) (n : Node) : Graph := { g with nodes := g.nodes ++ [n] }

theorem addNode_eq_ok {after : Graph} :
    g.addNode n = .ok after ↔ g.checkNewNode n = .ok () ∧ after = g.withNode n := by
  simp only [addNode, Checks.bind_eq_ok, pure, Except.pure, Except.ok.injEq]
  constructor
  · rintro ⟨_, checked, rfl⟩
    exact ⟨checked, rfl⟩
  · rintro ⟨checked, rfl⟩
    exact ⟨_, checked, rfl⟩

/-- A graph that has its root takes only nodes of other ids and kinds. -/
theorem WellFormed.new_of_checkNewNode (wf : g.WellFormed) (checked : g.checkNewNode n = .ok ()) :
    g.contains n.id = false ∧ n.kind ≠ .root ∧ n.id ≠ Node.rootId := by
  rw [checkNewNode, Checks.guard_eq_ok] at checked
  obtain ⟨new, checked⟩ := checked
  obtain ⟨r, found, kind⟩ := wf.root
  have present : (g.nodes.any fun m => m.kind == .root) = true :=
    List.any_eq_true.2 ⟨r, mem_of_node? found, by simp [kind]⟩
  split at checked
  · cases checked
  · next other =>
    rw [Checks.guard_eq_ok] at checked
    exact ⟨by simpa using new, other, checked.1⟩

theorem node?_withNode (new : g.contains n.id = false) :
    (g.withNode n).node? a = if a = n.id then some n else g.node? a := by
  rw [node?, withNode, List.find?_append]
  by_cases h : a = n.id
  · subst h
    have none : g.nodes.find? (fun m => m.id == n.id) = none :=
      Option.not_isSome_iff_eq_none.1 (Bool.eq_false_iff.1 new)
    simp [none]
  · have other : ¬ n.id = a := fun eq => h eq.symm
    simp [h, other, node?]

theorem contains_withNode (new : g.contains n.id = false) :
    (g.withNode n).contains a = true ↔ a = n.id ∨ g.contains a = true := by
  rw [Graph.contains, node?_withNode new]
  by_cases h : a = n.id <;> simp [h, Graph.contains]

/-- A node without children that is added changes nobody's children. -/
theorem children_withNode (new : g.contains n.id = false) (childless : n.children = []) :
    (g.withNode n).children a = g.children a := by
  rw [children, node?_withNode new, children]
  split
  · next eq =>
    subst eq
    have none : g.node? n.id = none := Option.not_isSome_iff_eq_none.1 (Bool.eq_false_iff.1 new)
    simp [none, childless]
  · rfl

theorem isChild_withNode (new : g.contains n.id = false) (childless : n.children = []) :
    (g.withNode n).IsChild a b ↔ g.IsChild a b := by
  rw [IsChild, IsChild, children_withNode new childless]

theorem Distinct.withNode (distinct : g.Distinct) (new : g.contains n.id = false) :
    (g.withNode n).Distinct := by
  have absent : n.id ∉ g.nodes.map (·.id) := by
    intro listed
    obtain ⟨m, member, eq⟩ := List.mem_map.1 listed
    have present := contains_iff.2 ⟨m, member, eq⟩
    rw [new] at present
    cases present
  rw [Distinct, Graph.withNode, List.map_append, List.nodup_append_comm]
  exact List.nodup_cons.2 ⟨absent, distinct⟩

/-- Adding a node without children keeps a graph well formed. -/
theorem WellFormed.withNode (wf : g.WellFormed) (checked : g.checkNewNode n = .ok ())
    (childless : n.children = []) : (g.withNode n).WellFormed := by
  obtain ⟨new, not_root, ne_root⟩ := wf.new_of_checkNewNode checked
  have same {a b} := isChild_withNode (a := a) (b := b) new childless
  have keeps {a} (h : g.contains a = true) : (g.withNode n).contains a = true :=
    (contains_withNode new).2 (.inr h)
  have member_cases {m : Node} (member : m ∈ (g.withNode n).nodes) : m ∈ g.nodes ∨ m = n :=
    (List.mem_append.1 member).imp_right List.mem_singleton.1
  exact
    { root := by
        obtain ⟨r, found, kind⟩ := wf.root
        exact ⟨r, by rwa [root?, node?_withNode new, if_neg ne_root.symm], kind⟩
      root_only := by
        intro m member kind
        rcases member_cases member with member | rfl
        · exact wf.root_only m member kind
        · exact absurd kind not_root
      arity := by
        intro m member
        rcases member_cases member with member | rfl
        · exact wf.arity m member
        · rw [childless]
          cases m.kind <;> simp [NodeKind.Admits]
      child_exists := fun child => keeps (wf.child_exists (same.1 child))
      child_ne_root := fun child => wf.child_ne_root (same.1 child)
      children_nodup := fun a => by
        rw [children_withNode new childless]
        exact wf.children_nodup a
      one_parent := fun first second => wf.one_parent (same.1 first) (same.1 second)
      connected := fun child => wf.connected (same.1 child)
      ends_exist := fun c member => (wf.ends_exist c member).imp keeps keeps
      agrees := fun c member child => same.2 (wf.agrees c member child)
      acyclic := fun child path =>
        wf.acyclic (same.1 child) (Reaches.mono (fun _ _ => same.1) path)
      distinct := wf.distinct.withNode new
      connection_ids := wf.connection_ids
      no_loops := wf.no_loops }

/-! ## Removing -/

/-- The graph without the nodes of the given ids: neither they nor their connections nor their
places among the children of others remain. -/
def without (g : Graph) (ids : List String) : Graph where
  nodes := (g.nodes.filter fun n => !ids.contains n.id).map fun n =>
    { n with children := n.children.filter fun child => !ids.contains child }
  connections := g.connections.filter fun c => !(ids.contains c.source || ids.contains c.target)
  lastId := g.lastId

/-- A node without children of the given ids. -/
def prune (ids : List String) (n : Node) : Node :=
  { n with children := n.children.filter fun child => !ids.contains child }

theorem nodes_without : (g.without ids).nodes =
    (g.nodes.filter fun n => !ids.contains n.id).map (prune ids) := rfl

theorem keepsIds_prune : KeepsIds (prune ids) := fun _ => rfl

theorem prune_prune (n : Node) : prune ids (prune ids n) = prune ids n := by
  simp [prune, List.filter_filter]

/-- A node of which no child is removed stays as it is. -/
theorem prune_eq_self (kept : n.children.any ids.contains = false) : prune ids n = n := by
  have all : ∀ child ∈ n.children, (!ids.contains child) = true := by
    intro child listed
    simpa using List.any_eq_false.1 kept child listed
  rw [prune, List.filter_eq_self.2 all]

/-- Entries that are taken out at the places where they stand are filtered out of a list. The
entries may have been changed by `f` meanwhile, and stay changed. -/
theorem eraseAll_places {α : Type} (gone : α → Bool) (f : α → α) (before xs : List α) :
    eraseAll (before ++ xs.map f) (((xs.zipIdx before.length).filter fun p => gone p.1).map (·.2)) =
      before ++ (xs.filter fun x => !gone x).map f := by
  induction xs generalizing before with
  | nil => simp [eraseAll]
  | cons x xs ih =>
    have later := ih (before ++ [f x])
    simp only [List.length_append, List.length_singleton, List.append_assoc,
      List.singleton_append] at later
    cases leaves : gone x with
    | false => simpa [List.zipIdx_cons, leaves] using later
    | true =>
      have first (rest : List α) : (before ++ f x :: rest).eraseIdx before.length =
          before ++ rest := by
        rw [List.eraseIdx_append_of_length_le (Nat.le_refl _), Nat.sub_self, List.eraseIdx_cons_zero]
      simp only [eraseAll] at later
      simp [List.zipIdx_cons, leaves, eraseAll, later, first]

/-- A change that does no more when it is made again is made at once for all nodes of some ids. -/
theorem foldl_update {f : String → Node → Node} (keeps : ∀ id, KeepsIds (f id))
    (again : ∀ id n, f id (f id n) = f id n) (changed : List String) :
    changed.foldl (fun g id => g.update id (f id)) g =
      { g with nodes := g.nodes.map fun n => if n.id ∈ changed then f n.id n else n } := by
  induction changed generalizing g with
  | nil => simp
  | cons id rest ih =>
    rw [List.foldl_cons, ih]
    simp only [update, List.map_map]
    congr 1
    apply List.map_congr_left
    intro n _
    simp only [Function.comp_apply, List.mem_cons]
    by_cases here : n.id = id
    · subst here
      by_cases later : n.id ∈ rest <;>
        simp only [keeps n.id n, later, again, if_true, if_false, true_or]
    · simp only [here, if_false, false_or]

/-- What a removal takes away, place by place, is what the given ids name. -/
theorem takeAway_removalOf (g : Graph) (ids : List String) :
    g.takeAway ids (g.removalOf ids) = g.without ids := by
  let pruned (n : Node) : Node :=
    if n.id ∈ (g.removalOf ids).parents.map (·.1) then prune ids n else n
  have connections : eraseAll g.connections ((g.removalOf ids).connections.map (·.1)) =
      (g.without ids).connections := by
    simpa [removalOf, without, Function.comp_def] using eraseAll_places
      (fun c : Connection => ids.contains c.source || ids.contains c.target) id [] g.connections
  have erased : eraseAll (g.nodes.map pruned) ((g.removalOf ids).nodes.map (·.1)) =
      (g.nodes.filter fun n => !ids.contains n.id).map pruned := by
    simpa [removalOf, Function.comp_def] using
      eraseAll_places (fun n : Node => ids.contains n.id) pruned [] g.nodes
  have same : ∀ n ∈ g.nodes.filter (fun n => !ids.contains n.id), pruned n = prune ids n := by
    intro n member
    by_cases listed : n.id ∈ (g.removalOf ids).parents.map (·.1)
    · exact if_pos listed
    · -- A parent that stays and is not recorded loses no child.
      obtain ⟨member, stays⟩ := List.mem_filter.1 member
      have whole : n.children.any ids.contains = false := by
        apply Bool.eq_false_iff.2
        intro some_removed
        apply listed
        rw [removalOf, List.map_map]
        exact List.mem_map.2 ⟨n, List.mem_filter.2 ⟨member, by rw [stays, some_removed]; rfl⟩, rfl⟩
      exact (if_neg listed).trans (prune_eq_self whole).symm
  have unlinked : (g.removalOf ids).parents.foldl (fun g p => g.update p.1 fun n =>
        { n with children := n.children.filter fun child => !ids.contains child })
        { g with connections := (g.without ids).connections } =
      ⟨g.nodes.map pruned, (g.without ids).connections, g.lastId⟩ := by
    have fold := foldl_update (f := fun _ => prune ids) (fun _ => keepsIds_prune)
      (fun _ => prune_prune) (g := { g with connections := (g.without ids).connections })
      ((g.removalOf ids).parents.map (·.1))
    rwa [List.foldl_map] at fold
  have nodes : eraseAll (g.nodes.map pruned) ((g.removalOf ids).nodes.map (·.1)) =
      (g.without ids).nodes := by
    rw [erased, nodes_without, List.map_congr_left same]
  rw [takeAway, connections, unlinked]
  exact congrArg (fun nodes => (⟨nodes, (g.without ids).connections, g.lastId⟩ : Graph)) nodes

/-- A node may be removed if it is there and is not the root. -/
theorem checkRemovable_eq_ok {id : String} :
    g.checkRemovable id = .ok () ↔ id ≠ Node.rootId ∧ g.contains id = true := by
  rw [checkRemovable, Checks.guard_eq_ok, Checks.guard_eq_ok]
  simp

theorem removeNodes_eq_ok {after : Graph} {removed : RemovedNodes} :
    g.removeNodes ids = .ok (after, removed) ↔
      (∀ id ∈ ids, id ≠ Node.rootId ∧ g.contains id = true) ∧
        after = g.without ids ∧ removed = g.removalOf ids := by
  simp only [removeNodes, takeAway_removalOf, Checks.bind_eq_ok, pure, Except.pure,
    Except.ok.injEq, Prod.mk.injEq]
  constructor
  · rintro ⟨_, checked, rfl, rfl⟩
    exact ⟨fun id member => checkRemovable_eq_ok.1 (Checks.forM_eq_ok.1 checked id member), rfl, rfl⟩
  · rintro ⟨checked, rfl, rfl⟩
    exact ⟨_, Checks.forM_eq_ok.2 fun id member => checkRemovable_eq_ok.2 (checked id member),
      rfl, rfl⟩

theorem node?_without (a : String) : (g.without ids).node? a =
    if a ∈ ids then none else (g.node? a).map (prune ids) := by
  rw [node?, nodes_without, List.find?_map, List.find?_filter]
  have same : (fun n : Node => decide ((!ids.contains n.id) = true ∧
      ((fun m : Node => m.id == a) ∘ prune ids) n = true)) =
      fun n => !ids.contains a && n.id == a := by
    funext n
    by_cases h : n.id = a <;> simp [prune, h]
  rw [same]
  by_cases h : a ∈ ids
  · simp [h]
  · simp [h, node?]

theorem contains_without :
    (g.without ids).contains a = true ↔ a ∉ ids ∧ g.contains a = true := by
  rw [Graph.contains, node?_without]
  by_cases h : a ∈ ids <;> simp [h, Graph.contains]

theorem children_without : (g.without ids).children a =
    if a ∈ ids then [] else (g.children a).filter fun child => !ids.contains child := by
  rw [children, node?_without, children]
  by_cases h : a ∈ ids
  · simp [h]
  · cases g.node? a <;> simp [h, prune]

theorem isChild_without :
    (g.without ids).IsChild a b ↔ a ∉ ids ∧ b ∉ ids ∧ g.IsChild a b := by
  rw [IsChild, children_without, IsChild]
  by_cases h : a ∈ ids
  · simp [h]
  · simp [h, and_comm]

theorem mem_connections_without {c : Connection} :
    c ∈ (g.without ids).connections ↔ c ∈ g.connections ∧ c.source ∉ ids ∧ c.target ∉ ids := by
  simp [without]

theorem Distinct.without (distinct : g.Distinct) : (g.without ids).Distinct := by
  have same : (g.without ids).nodes.map (·.id) =
      (g.nodes.filter fun n => !ids.contains n.id).map (·.id) := by
    rw [nodes_without, List.map_map]
    rfl
  rw [Distinct, same]
  exact distinct.sublist (List.filter_sublist.map _)

/-- Removing nodes other than the root keeps a graph well formed. -/
theorem WellFormed.without (wf : g.WellFormed) (stays : Node.rootId ∉ ids) :
    (g.without ids).WellFormed where
  root := by
    obtain ⟨r, found, kind⟩ := wf.root
    exact ⟨prune ids r, by rw [root?, node?_without, if_neg stays, ← root?, found]; rfl, kind⟩
  root_only n member kind := by
    obtain ⟨m, kept, rfl⟩ := List.mem_map.1 member
    exact wf.root_only m (List.mem_filter.1 kept).1 kind
  arity n member := by
    obtain ⟨m, kept, rfl⟩ := List.mem_map.1 member
    exact (wf.arity m (List.mem_filter.1 kept).1).mono (List.length_filter_le ..)
  child_exists child := by
    obtain ⟨-, stays, child⟩ := isChild_without.1 child
    exact contains_without.2 ⟨stays, wf.child_exists child⟩
  child_ne_root child := wf.child_ne_root (isChild_without.1 child).2.2
  children_nodup a := by
    rw [children_without]
    split
    · exact List.nodup_nil
    · exact (wf.children_nodup a).filter _
  one_parent first second :=
    wf.one_parent (isChild_without.1 first).2.2 (isChild_without.1 second).2.2
  connected child := by
    obtain ⟨parent_stays, child_stays, child⟩ := isChild_without.1 child
    obtain ⟨c, member, isChild, rfl, rfl⟩ := wf.connected child
    exact ⟨c, mem_connections_without.2 ⟨member, parent_stays, child_stays⟩, isChild, rfl, rfl⟩
  ends_exist c member := by
    obtain ⟨member, source, target⟩ := mem_connections_without.1 member
    have ends := wf.ends_exist c member
    exact ⟨contains_without.2 ⟨source, ends.1⟩, contains_without.2 ⟨target, ends.2⟩⟩
  agrees c member isChild := by
    obtain ⟨member, source, target⟩ := mem_connections_without.1 member
    exact isChild_without.2 ⟨source, target, wf.agrees c member isChild⟩
  acyclic child path := wf.acyclic (isChild_without.1 child).2.2
    (Reaches.mono (fun _ _ child => (isChild_without.1 child).2.2) path)
  distinct := wf.distinct.without
  connection_ids := wf.connection_ids.sublist (List.filter_sublist.map _)
  no_loops c member := wf.no_loops c (mem_connections_without.1 member).1

/-! ## Taking a removal back -/

theorem insertIdx_append_length {α : Type} (xs ys : List α) (y : α) :
    (xs ++ ys).insertIdx xs.length y = xs ++ y :: ys := by
  induction xs with
  | nil => rfl
  | cons x xs ih => simp [ih]

/-- Entries that were filtered out, put back in ascending order of their places, complete a list.
The survivors may have been changed by `f`, and stay changed. -/
theorem foldl_insertAt_removed {α : Type} (keep : α → Bool) (f : α → α) (before xs : List α) :
    (((xs.zipIdx before.length).filter fun p => !keep p.1).map fun p => (p.2, p.1)).foldl
        (fun list p => insertAt list p.1 p.2) (before ++ (xs.filter keep).map f) =
      before ++ xs.map fun x => if keep x then f x else x := by
  induction xs generalizing before with
  | nil => simp
  | cons x xs ih =>
    have next (y : α) := ih (before ++ [y])
    simp only [List.length_append, List.length_singleton, List.append_assoc,
      List.singleton_append] at next
    by_cases kept : keep x = true
    · simpa [List.zipIdx_cons, kept] using next (f x)
    · have at_end : insertAt (before ++ (xs.filter keep).map f) before.length x =
          before ++ x :: (xs.filter keep).map f := by
        rw [insertAt, Nat.min_eq_left (by simp), insertIdx_append_length]
      simpa [List.zipIdx_cons, kept, at_end] using next x

/-- Putting back a node whose id is not taken only inserts it. -/
theorem restoreNode_of_new {place : Nat} (new : n.id ∉ g.nodes.map (·.id)) :
    g.restoreNode place n = { g with nodes := insertAt g.nodes place n } := by
  have unchanged : ∀ m ∈ insertAt g.nodes place n, (if m.id = n.id then n else m) = m := by
    intro m member
    rw [insertAt, List.mem_insertIdx (Nat.min_le_right ..)] at member
    rcases member with rfl | member
    · exact if_pos rfl
    · exact if_neg fun eq => new (List.mem_map.2 ⟨m, member, eq⟩)
  rw [restoreNode, update]
  simp only [List.map_congr_left unchanged, List.map_id']

theorem foldl_restoreNode {removed : List (Nat × Node)}
    (new : (removed.map (·.2.id) ++ g.nodes.map (·.id)).Nodup) :
    removed.foldl (fun g p => g.restoreNode p.1 p.2) g =
      { g with nodes := removed.foldl (fun list p => insertAt list p.1 p.2) g.nodes } := by
  induction removed generalizing g with
  | nil => rfl
  | cons p rest ih =>
    rw [List.map_cons, List.cons_append, List.nodup_cons] at new
    have inserted := List.perm_insertIdx p.2 g.nodes (Nat.min_le_right p.1 g.nodes.length)
    rw [List.foldl_cons, List.foldl_cons,
      restoreNode_of_new fun taken => new.1 (List.mem_append_right _ taken)]
    apply ih
    rw [insertAt, ((inserted.map (·.id)).append_left _).nodup_iff, List.map_cons,
      List.perm_middle.nodup_iff]
    exact List.nodup_cons.2 new

/-- Children set one parent after the other are set at once. -/
theorem foldl_setChildren (f : String → List String) (parents : List String) :
    (parents.map fun id => (id, f id)).foldl (fun g p => g.setChildren p.1 p.2) g =
      { g with nodes := g.nodes.map fun n =>
        if n.id ∈ parents then { n with children := f n.id } else n } := by
  rw [List.foldl_map]
  exact foldl_update (fun id => keepsIds_children (f id)) (fun _ _ => rfl) parents

theorem parents_removalOf (distinct : g.Distinct) : (g.removalOf ids).parents =
    ((g.nodes.filter fun n => !ids.contains n.id && n.children.any ids.contains).map
      (·.id)).map fun id => (id, g.children id) := by
  rw [removalOf, List.map_map]
  apply List.map_congr_left
  intro n member
  exact Prod.ext rfl (distinct.children_of_mem (List.mem_filter.1 member).1).symm

/-- A removal that is taken back leaves no trace. -/
theorem restoreNodes_without (distinct : g.Distinct) :
    (g.without ids).restoreNodes (g.removalOf ids) = g := by
  have new : ((g.removalOf ids).nodes.map (·.2.id) ++
      (g.without ids).nodes.map (·.id)).Nodup := by
    have removed : (g.removalOf ids).nodes.map (·.2.id) =
        (g.nodes.filter fun n => ids.contains n.id).map (·.id) := by
      have projected : g.nodes.zipIdx.map (·.1) = g.nodes := by simp
      conv => rhs; rw [← projected, List.filter_map, List.map_map]
      simp [removalOf, Function.comp_def]
    have kept : (g.without ids).nodes.map (·.id) =
        (g.nodes.filter fun n => !ids.contains n.id).map (·.id) := by
      rw [nodes_without, List.map_map]
      rfl
    rw [removed, kept, ← List.map_append,
      ((List.filter_append_perm (fun n : Node => ids.contains n.id) g.nodes).map _).nodup_iff]
    exact distinct
  have nodes : (g.removalOf ids).nodes.foldl (fun list p => insertAt list p.1 p.2)
      (g.without ids).nodes =
      g.nodes.map fun n => if !ids.contains n.id then prune ids n else n := by
    simpa [removalOf, nodes_without] using
      foldl_insertAt_removed (fun n : Node => !ids.contains n.id) (prune ids) [] g.nodes
  have connections : (g.removalOf ids).connections.foldl (fun list p => insertAt list p.1 p.2)
      (g.without ids).connections = g.connections := by
    simpa [removalOf, without] using foldl_insertAt_removed
      (fun c : Connection => !(ids.contains c.source || ids.contains c.target)) id [] g.connections
  have unchanged : ∀ n ∈ g.nodes,
      (let m := if !ids.contains n.id then prune ids n else n
       if m.id ∈ (g.nodes.filter fun n => !ids.contains n.id && n.children.any ids.contains).map
          (·.id) then { m with children := g.children m.id } else m) = n := by
    intro n member
    have own : g.children n.id = n.children := distinct.children_of_mem member
    by_cases removed : n.id ∈ ids
    · simp [removed, own]
    · have stays : (!ids.contains n.id) = true := by simpa using removed
      simp only [stays, if_true]
      by_cases pruned : n.children.any ids.contains = true
      · have listed : n.id ∈ (g.nodes.filter fun n =>
            !ids.contains n.id && n.children.any ids.contains).map (·.id) :=
          List.mem_map_of_mem (List.mem_filter.2 ⟨member, by rw [stays, pruned]; rfl⟩)
        exact (if_pos listed).trans (by simp only [prune, own])
      · have whole : prune ids n = n := prune_eq_self (Bool.eq_false_iff.2 pruned)
        simp [whole, own]
  rw [restoreNodes, foldl_restoreNode new, nodes, parents_removalOf distinct]
  simp only [connections]
  rw [foldl_setChildren]
  simp only [List.map_map]
  refine congrArg (fun nodes => (⟨nodes, g.connections, g.lastId⟩ : Graph)) ?_
  exact (List.map_congr_left unchanged).trans (List.map_id' _)

/-- Removing nodes that nothing mentions changes nothing. -/
theorem without_eq_self (apart : ∀ n ∈ g.nodes, n.id ∉ ids)
    (childless : ∀ n ∈ g.nodes, ∀ child ∈ n.children, child ∉ ids)
    (unconnected : ∀ c ∈ g.connections, c.source ∉ ids ∧ c.target ∉ ids) :
    g.without ids = g := by
  have nodes : (g.nodes.filter fun n => !ids.contains n.id) = g.nodes :=
    List.filter_eq_self.2 fun n member => by simpa using apart n member
  have pruned : ∀ n ∈ g.nodes, prune ids n = n := fun n member =>
    prune_eq_self (List.any_eq_false.2 fun child listed => by
      simpa using childless n member child listed)
  have connections : (g.connections.filter fun c =>
      !(ids.contains c.source || ids.contains c.target)) = g.connections :=
    List.filter_eq_self.2 fun c member => by simpa using unconnected c member
  have same : (g.without ids).nodes = g.nodes := by
    rw [nodes_without, nodes, List.map_congr_left pruned, List.map_id']
  exact congrArg₂ (fun nodes connections => (⟨nodes, connections, g.lastId⟩ : Graph))
    same connections

end BehaviorTree.Graph
