import BehaviorTree.Proofs.History.Commands

/-!
# What a graph can take back

A receipt may be used on a graph that has changed since. Taking back then works on what the receipt
recorded, without checks. This module says when it keeps the graph well formed: exactly if it does
what checked edits would do, apart from the order of nodes, siblings and connections
(`WellFormed.undo_iff`). On the graph that a command left, its receipt always fits
(`WellFormed.fits_execute`), and that of an added node, of a move or of an entry fits everywhere
(`fits_anywhere`).
-/

namespace BehaviorTree.Graph

open Receipt (orElse)

variable {g h base : Graph} {receipt : Receipt} {n : Node} {nodes : List Node} {a : String}

/-- The nodes of a removal before they get their children. -/
def bareNodes (removed : RemovedNodes) : List Node :=
  removed.nodes.map fun p => { p.2 with children := [] }

/-- A graph to which checked edits lead that take a command back: what was connected is
disconnected, connections that were removed are made again one after the other, and nodes that were
removed are added again first. -/
inductive TakesBack (g : Graph) : Receipt → Graph → Prop
  | added (node : String) : TakesBack g (.added node) (orElse g (g.removeNodes [node]))
  | moved (before : Dict Position) : TakesBack g (.moved before) (orElse g (g.moveNodes before))
  | wrote (node key : String) (before : Option Value) :
    TakesBack g (.wrote node key before) (orElse g (g.setProperty node key before))
  | connected (change : ConnectionChange) :
    TakesBack g (.connected change) (orElse g (g.disconnect change.connection.id))
  | disconnected {changes : List ConnectionChange}
      (accepted : g.AcceptsAll (changes.map (·.connection))) :
    TakesBack g (.disconnected changes) (g.linkAll (changes.map (·.connection)))
  | removed {removed : RemovedNodes} {base : Graph}
      (added : (bareNodes removed).foldlM addNode g = .ok base)
      (accepted : base.AcceptsAll (removed.connections.map (·.2))) :
    TakesBack g (.removed removed) (base.linkAll (removed.connections.map (·.2)))

/-- What a receipt puts back fits into a graph: checked edits could do it, and the children that are
put back are those that these would give, in some order. -/
def Fits (g : Graph) (receipt : Receipt) : Prop :=
  ∃ h, g.TakesBack receipt h ∧ ∀ a, ((receipt.undo g).children a).Perm (h.children a)

/-- To take back that a node was added, that nodes were moved or that an entry was written is a
checked edit itself, and fits into every graph. -/
theorem fits_of_checked (g : Graph) (checked : receipt matches .added _ | .moved _ | .wrote ..) :
    g.Fits receipt := by
  cases receipt with
  | added node => exact ⟨_, .added node, fun _ => .refl _⟩
  | moved before => exact ⟨_, .moved before, fun _ => .refl _⟩
  | wrote node key before => exact ⟨_, .wrote node key before, fun _ => .refl _⟩
  | removed | connected | disconnected => cases checked

/-- Wherever these commands were done, any graph can take them back. -/
theorem fits_anywhere {command : Command}
    (edit : command matches .addNode _ | .moveNodes _ | .setProperty ..)
    (done : command.execute g = .ok (h, receipt)) (found : Graph) : found.Fits receipt := by
  apply fits_of_checked
  cases command with
  | addNode n =>
    obtain ⟨-, -, rfl⟩ := execute_addNode.1 done
    rfl
  | moveNodes moves =>
    obtain ⟨before, -, rfl⟩ := execute_moveNodes.1 done
    rfl
  | setProperty node key value =>
    obtain ⟨before, -, rfl⟩ := execute_setProperty.1 done
    rfl
  | removeNodes | addConnection | removeConnections => cases edit

/-! ## What the edits do to nodes and connections -/

theorem kinds_restoreChildren (change : ConnectionChange) :
    (g.restoreChildren change).kinds = g.kinds := by
  unfold restoreChildren
  split
  · exact kinds_setChildren _
  · rfl

theorem connections_restoreChildren (change : ConnectionChange) :
    (g.restoreChildren change).connections = g.connections := by
  unfold restoreChildren
  split <;> rfl

theorem kinds_disconnectAt (index : Nat) (c : Connection) :
    (g.disconnectAt index c).1.kinds = g.kinds := by
  unfold disconnectAt
  split
  · exact (kinds_setChildren _).trans (kinds_setChildren _)
  · rfl

/-- Removing the first connection of an id, if there is one, by its place or by its id. -/
theorem perm_connections_disconnect (ids : (g.connections.map (·.id)).Nodup) (id : String) :
    (g.connections.eraseP fun c => c.id == id).Perm (orElse g (g.disconnect id)).connections := by
  by_cases found : ∃ c ∈ g.connections, c.id = id
  · obtain ⟨c, member, rfl⟩ := found
    obtain ⟨index, here, done⟩ := disconnect_of_mem ids member
    obtain ⟨d, before, after, -, same, split, erased⟩ :=
      List.exists_of_eraseP (p := fun d => d.id == c.id) member (beq_self_eq_true _)
    obtain rfl := List.inj_on_of_nodup_map ids (split ▸ by simp) member (eq_of_beq same)
    obtain ⟨bound, eq⟩ := List.getElem?_eq_some_iff.1 here
    have rest := (List.getElem_cons_eraseIdx_perm bound).symm
    rw [eq] at rest
    rw [done, orElse, connections_disconnectAt, erased]
    apply List.Perm.cons_inv (a := d)
    exact List.perm_middle.symm.trans (split ▸ rest)
  · have absent : ∀ c ∈ g.connections, ¬ (c.id == id) = true := fun c member same =>
      found ⟨c, member, eq_of_beq same⟩
    have refused : orElse g (g.disconnect id) = g := by
      cases done : g.disconnect id with
      | error e => rfl
      | ok out =>
        obtain ⟨c, index, here, same, -⟩ := disconnect_eq_ok done
        exact absurd (beq_iff_eq.2 same) (absent c (List.mem_of_getElem? here))
    rw [refused, List.eraseP_of_forall_not absent]

theorem perm_insertAt {α : Type} (xs : List α) (place : Nat) (x : α) :
    (insertAt xs place x).Perm (xs ++ [x]) :=
  (List.perm_insertIdx x xs (Nat.min_le_right ..)).trans (List.perm_append_singleton x xs).symm

theorem perm_foldl_insertAt {α : Type} (entries : List (Nat × α)) (xs : List α) :
    (entries.foldl (fun xs p => insertAt xs p.1 p.2) xs).Perm (xs ++ entries.map (·.2)) := by
  induction entries generalizing xs with
  | nil => simp
  | cons p rest ih =>
    rw [List.foldl_cons, List.map_cons, List.append_cons]
    exact (ih _).trans ((perm_insertAt xs p.1 p.2).append_right _)

theorem kinds_foldl_revertDisconnect (changes : List ConnectionChange) :
    (changes.foldl revertDisconnect g).kinds = g.kinds := by
  induction changes generalizing g with
  | nil => rfl
  | cons change rest ih => exact ih.trans (kinds_restoreChildren change)

theorem perm_connections_foldl_revertDisconnect (changes : List ConnectionChange) :
    (changes.foldl revertDisconnect g).connections.Perm
      (g.connections ++ changes.map (·.connection)) := by
  induction changes generalizing g with
  | nil => simp
  | cons change rest ih =>
    have first : (g.revertDisconnect change).connections =
        insertAt g.connections change.index change.connection := connections_restoreChildren change
    rw [List.foldl_cons, List.map_cons, List.append_cons]
    refine ih.trans (List.Perm.append_right _ ?_)
    rw [first]
    exact perm_insertAt ..

/-! ## Adding nodes again -/

/-- What a well-formed graph takes as a new node. -/
theorem WellFormed.checkNewNode_eq_ok (wf : g.WellFormed) : g.checkNewNode n = .ok () ↔
    g.contains n.id = false ∧ n.kind ≠ .root ∧ n.id ≠ Node.rootId := by
  refine ⟨wf.new_of_checkNewNode, fun ⟨new, kind, id⟩ => ?_⟩
  rw [checkNewNode, if_neg (by simp [new]), if_neg kind, if_neg id]

theorem WellFormed.foldlM_addNode (wf : g.WellFormed) (childless : ∀ n ∈ nodes, n.children = [])
    (added : nodes.foldlM addNode g = .ok base) :
    base.WellFormed ∧ base.nodes = g.nodes ++ nodes ∧ base.connections = g.connections := by
  induction nodes generalizing g with
  | nil =>
    obtain rfl := Except.ok.inj added
    exact ⟨wf, by simp, rfl⟩
  | cons n rest ih =>
    obtain ⟨g', first, others⟩ := Checks.foldlM_cons_eq_ok.1 added
    obtain ⟨checked, rfl⟩ := addNode_eq_ok.1 first
    obtain ⟨here, there⟩ := List.forall_mem_cons.1 childless
    obtain ⟨wf', nodes, connections⟩ := ih (wf.withNode checked here) there others
    exact ⟨wf', by simp [nodes, Graph.withNode], connections⟩

theorem WellFormed.exists_foldlM_addNode (wf : g.WellFormed)
    (childless : ∀ n ∈ nodes, n.children = [])
    (ordinary : ∀ n ∈ nodes, n.kind ≠ .root ∧ n.id ≠ Node.rootId)
    (new : (g.nodes.map (·.id) ++ nodes.map (·.id)).Nodup) :
    ∃ base, nodes.foldlM addNode g = .ok base := by
  induction nodes generalizing g with
  | nil => exact ⟨g, rfl⟩
  | cons n rest ih =>
    have absent : g.contains n.id = false := by
      apply Bool.eq_false_iff.2
      intro present
      obtain ⟨m, member, same⟩ := contains_iff.1 present
      exact (List.nodup_append.1 new).2.2 _ (List.mem_map_of_mem member) n.id (by simp) same
    have checked := wf.checkNewNode_eq_ok.2 ⟨absent, ordinary n (by simp)⟩
    obtain ⟨base, others⟩ := ih (wf.withNode checked (childless n (by simp)))
      (fun m member => childless m (List.mem_cons_of_mem _ member))
      (fun m member => ordinary m (List.mem_cons_of_mem _ member))
      (by simpa [Graph.withNode] using new)
    exact ⟨base, Checks.foldlM_cons_eq_ok.2 ⟨_, addNode_eq_ok.2 ⟨checked, rfl⟩, others⟩⟩

theorem childless_bareNodes (removed : RemovedNodes) : ∀ n ∈ bareNodes removed, n.children = [] := by
  intro n member
  obtain ⟨p, -, rfl⟩ := List.mem_map.1 member
  rfl

theorem ids_bareNodes (removed : RemovedNodes) :
    (bareNodes removed).map (·.id) = removed.nodes.map (·.2.id) := by
  simp [bareNodes]

/-- The nodes of a removal have the same ids and kinds without children. -/
theorem kinds_of_bareNodes {removed : RemovedNodes}
    (nodes : base.nodes = g.nodes ++ bareNodes removed) :
    base.kinds = g.kinds ++ (removed.nodes.map (·.2)).map fun n => (n.id, n.kind) := by
  simp only [kinds, nodes, bareNodes, List.map_append, List.map_map]
  rfl

theorem kinds_foldl_setChildren (parents : List (String × List String)) :
    (parents.foldl (fun g p => g.setChildren p.1 p.2) g).kinds = g.kinds := by
  induction parents generalizing g with
  | nil => rfl
  | cons p rest ih => exact ih.trans (kinds_setChildren p.2)

theorem connections_foldl_setChildren (parents : List (String × List String)) :
    (parents.foldl (fun g p => g.setChildren p.1 p.2) g).connections = g.connections := by
  induction parents generalizing g with
  | nil => rfl
  | cons p rest ih => exact ih

/-- Putting nodes back gives an id a second time if it is there already. -/
theorem perm_ids_restoreNodes (removed : RemovedNodes) :
    ((g.restoreNodes removed).nodes.map (·.id)).Perm
      (g.nodes.map (·.id) ++ removed.nodes.map (·.2.id)) := by
  have nodes (g : Graph) (removed : List (Nat × Node)) :
      ((removed.foldl (fun g p => g.restoreNode p.1 p.2) g).nodes.map (·.id)).Perm
        (g.nodes.map (·.id) ++ removed.map (·.2.id)) := by
    induction removed generalizing g with
    | nil => simp
    | cons p rest ih =>
      have first : ((g.restoreNode p.1 p.2).nodes.map (·.id)).Perm
          (g.nodes.map (·.id) ++ [p.2.id]) := by
        have ids : (g.restoreNode p.1 p.2).nodes.map (·.id) =
            (insertAt g.nodes p.1 p.2).map (·.id) := by
          rw [restoreNode, update, List.map_map]
          apply List.map_congr_left
          intro m _
          by_cases h : m.id = p.2.id <;> simp [h]
        rw [ids]
        simpa using (perm_insertAt g.nodes p.1 p.2).map (·.id)
      rw [List.foldl_cons, List.map_cons, List.append_cons]
      exact (ih _).trans (first.append_right _)
  rw [restoreNodes, ← map_fst_kinds, kinds_foldl_setChildren, map_fst_kinds]
  exact nodes g removed.nodes

/-- Nodes of new ids and their connections are put back among the others. -/
theorem restoreNodes_of_new {removed : RemovedNodes}
    (new : (g.nodes.map (·.id) ++ removed.nodes.map (·.2.id)).Nodup) :
    (g.restoreNodes removed).kinds.Perm
        (g.kinds ++ (removed.nodes.map (·.2)).map fun n => (n.id, n.kind)) ∧
      (g.restoreNodes removed).connections.Perm
        (g.connections ++ removed.connections.map (·.2)) := by
  rw [restoreNodes, foldl_restoreNode (List.nodup_append_comm.1 new)]
  dsimp only
  rw [kinds_foldl_setChildren, connections_foldl_setChildren]
  constructor
  · exact ((perm_foldl_insertAt removed.nodes g.nodes).map _).trans (by rw [List.map_append, kinds])
  · exact perm_foldl_insertAt removed.connections g.connections

/-! ## Well-formedness -/

/-- Checked edits keep a graph well formed, and taking back has the same nodes and connections. -/
theorem TakesBack.wellFormed (takes : g.TakesBack receipt h) (wf : g.WellFormed) :
    h.WellFormed ∧ (receipt.undo g).kinds.Perm h.kinds ∧
      (receipt.undo g).connections.Perm h.connections := by
  cases takes with
  | added node =>
    refine ⟨?_, .refl _, .refl _⟩
    cases done : g.removeNodes [node] with
    | error e => exact wf
    | ok out =>
      obtain ⟨after, record⟩ := out
      obtain ⟨removable, rfl, -⟩ := removeNodes_eq_ok.1 done
      exact wf.without fun listed => (removable _ listed).1 rfl
  | moved before =>
    refine ⟨?_, .refl _, .refl _⟩
    cases done : g.moveNodes before with
    | error e => exact wf
    | ok out => exact (sameShape_moveNodes done).wellFormed wf
  | wrote node key before =>
    refine ⟨?_, .refl _, .refl _⟩
    cases done : g.setProperty node key before with
    | error e => exact wf
    | ok out => exact (sameShape_setProperty done).wellFormed wf
  | connected change =>
    have kinds : (g.revertConnect change).kinds = g.kinds := kinds_restoreChildren change
    have connections : (g.revertConnect change).connections =
        g.connections.eraseP fun c => c.id == change.connection.id :=
      connections_restoreChildren change
    rw [Receipt.undo, kinds, connections]
    have erased := perm_connections_disconnect wf.connection_ids change.connection.id
    cases done : g.disconnect change.connection.id with
    | error e => exact ⟨wf, .refl _, done ▸ erased⟩
    | ok out =>
      rw [done] at erased
      obtain ⟨c, index, here, -, rfl⟩ := disconnect_eq_ok done
      exact ⟨wf.disconnectAt here, kinds_disconnectAt index c ▸ .refl _, erased⟩
  | @disconnected changes accepted =>
    refine ⟨wf.linkAll accepted, ?_, ?_⟩
    · rw [kinds_linkAll, Receipt.undo, kinds_foldl_revertDisconnect]
    · rw [connections_linkAll]
      exact perm_connections_foldl_revertDisconnect changes
  | @removed removed base added accepted =>
    obtain ⟨wf', nodes, connections⟩ := wf.foldlM_addNode (childless_bareNodes removed) added
    have new : (g.nodes.map (·.id) ++ removed.nodes.map (·.2.id)).Nodup := by
      have distinct := wf'.distinct
      rwa [Distinct, nodes, List.map_append, ids_bareNodes] at distinct
    obtain ⟨kinds', connections'⟩ := restoreNodes_of_new new
    refine ⟨wf'.linkAll accepted, ?_, ?_⟩
    · rw [kinds_linkAll, kinds_of_bareNodes nodes]
      exact kinds'
    · rw [connections_linkAll, connections]
      exact connections'

/-- No root comes back to a graph that has one. -/
theorem WellFormed.ordinary_bareNodes (wf : g.WellFormed) {removed : RemovedNodes}
    (whole : (g.restoreNodes removed).WellFormed) :
    ∀ n ∈ bareNodes removed, n.kind ≠ .root ∧ n.id ≠ Node.rootId := by
  have new := (perm_ids_restoreNodes removed).nodup_iff.1 whole.distinct
  intro n member
  obtain ⟨p, listed, rfl⟩ := List.mem_map.1 member
  have named : p.2.id ≠ Node.rootId := by
    obtain ⟨r, found, -⟩ := wf.root
    intro same
    refine (List.nodup_append.1 new).2.2 _ (List.mem_map_of_mem (mem_of_node? found)) p.2.id
      (List.mem_map_of_mem (f := fun q : Nat × Node => q.2.id) listed) ?_
    exact (id_of_node? found).trans same.symm
  refine ⟨fun kind => named ?_, named⟩
  have here : (p.2.id, p.2.kind) ∈ (g.restoreNodes removed).kinds :=
    (restoreNodes_of_new new).1.mem_iff.2 (List.mem_append_right _
      (List.mem_map.2 ⟨p.2, List.mem_map_of_mem listed, rfl⟩))
  obtain ⟨m, member, same⟩ := List.mem_map.1 here
  obtain ⟨ids, kinds⟩ := Prod.mk.inj same
  exact ids ▸ whole.root_only m member (kinds.trans kind)

/-- If taking back leaves a well-formed graph, checked edits lead to the same nodes and
connections. -/
theorem WellFormed.exists_takesBack (wf : g.WellFormed) (whole : (receipt.undo g).WellFormed) :
    ∃ h, g.TakesBack receipt h := by
  cases receipt with
  | added node => exact ⟨_, .added node⟩
  | moved before => exact ⟨_, .moved before⟩
  | wrote node key before => exact ⟨_, .wrote node key before⟩
  | connected change => exact ⟨_, .connected change⟩
  | disconnected changes =>
    have kinds : ((Receipt.disconnected changes).undo g).kinds.Perm g.kinds := by
      rw [Receipt.undo, kinds_foldl_revertDisconnect]
    have split := perm_connections_foldl_revertDisconnect (g := g) changes
    exact ⟨_, .disconnected (wf.linkAll_of_part whole kinds split).1⟩
  | removed removed =>
    have new := (perm_ids_restoreNodes removed).nodup_iff.1 whole.distinct
    obtain ⟨kinds, split⟩ := restoreNodes_of_new new
    obtain ⟨base, added⟩ := wf.exists_foldlM_addNode (childless_bareNodes removed)
      (wf.ordinary_bareNodes whole) (ids_bareNodes removed ▸ new)
    obtain ⟨wf', nodes, connections⟩ := wf.foldlM_addNode (childless_bareNodes removed) added
    exact ⟨_, .removed added (wf'.linkAll_of_part whole (kinds_of_bareNodes nodes ▸ kinds)
      (connections ▸ split)).1⟩

/-- Taking back keeps a graph well formed exactly if it fits. -/
theorem WellFormed.undo_iff (wf : g.WellFormed) :
    (receipt.undo g).WellFormed ↔ g.Fits receipt := by
  constructor
  · intro whole
    obtain ⟨h, takes⟩ := wf.exists_takesBack whole
    obtain ⟨wf', kinds, connections⟩ := takes.wellFormed wf
    exact ⟨h, takes, (wf'.rearranged whole kinds connections).children⟩
  · rintro ⟨h, takes, children⟩
    obtain ⟨wf', kinds, connections⟩ := takes.wellFormed wf
    exact Rearranged.wellFormed ⟨kinds, children, connections⟩ wf'

/-- What a command did can be taken back from the graph that it left. -/
theorem WellFormed.fits_execute (wf : g.WellFormed) {command : Command} {after : Graph}
    (childless : command.Childless) (done : command.execute g = .ok (after, receipt)) :
    after.Fits receipt := by
  apply (wf.execute childless done).undo_iff.1
  rwa [wf.consistent.undo_execute done]

/-- Whether a graph is well formed is found out by storing its parts. -/
theorem isOk_ofParts_iff : (ofParts g.nodes g.connections).isOk = true ↔ g.WellFormed := by
  constructor
  · intro accepted
    cases done : ofParts g.nodes g.connections with
    | error e => simp [done, Except.isOk, Except.toBool] at accepted
    | ok stored =>
      obtain ⟨rfl, wf⟩ := ofParts_eq_ok.1 done
      exact wf.renumber
  · intro wf
    have accepted : ofParts g.nodes g.connections = .ok (g.renumber 0) :=
      ofParts_eq_ok.2 ⟨rfl, wf.renumber⟩
    rw [accepted]
    rfl

instance : Decidable g.WellFormed := decidable_of_iff _ isOk_ofParts_iff

end BehaviorTree.Graph
