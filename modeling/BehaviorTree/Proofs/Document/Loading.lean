import BehaviorTree.Document.Basic
import BehaviorTree.Proofs.Blackboard.Typing
import BehaviorTree.Proofs.Workspace.Calls

/-!
# Loading what was stored

A workspace whose graph could be stored part by part and whose blackboard is well typed comes back
from its own document (`toWorkspace_ofWorkspace`). The graph needs to be well formed and to have
its templates in the registry (`Graph.Loadable`), and commands keep that.
-/

namespace BehaviorTree

/-! ## Nodes -/

namespace Graph

def templates (g : Graph) : List NodeTemplate := g.nodes.map (·.template)

/-- A well-formed graph of which each template is the one that its type id stands for. -/
structure Loadable (registry : TemplateRegistry) (g : Graph) : Prop where
  wellFormed : g.WellFormed
  registered : ∀ t ∈ g.templates, registry.get? t.id = some t

variable {g after : Graph} {registry : TemplateRegistry}

theorem SameShape.templates (same : g.SameShape after) : after.templates = g.templates := by
  simpa [Function.comp_def, Node.shape, Graph.templates] using
    congrArg (List.map (·.2.1)) same.nodes

theorem templates_relink {parent : String} {listed : List String} {links : List Connection} :
    (g.relink parent listed links).templates = g.templates := by
  rw [templates, templates, relink, setChildren, update, List.map_map]
  apply List.map_congr_left
  intro n _
  by_cases here : n.id = parent <;> simp [here]

theorem templates_connect {c : Connection} {change : ConnectionChange}
    (done : g.connect c = .ok (after, change)) : after.templates = g.templates := by
  cases child : c.isChild with
  | true =>
    obtain ⟨-, rfl, -⟩ := (connect_child child).1 done
    exact templates_relink
  | false =>
    obtain ⟨-, rfl, -⟩ := (connect_binding child).1 done
    rfl

theorem templates_disconnectAt (wf : g.WellFormed) {c : Connection} {index : Nat}
    (here : g.connections[index]? = some c) : (g.disconnectAt index c).1.templates = g.templates := by
  cases child : c.isChild with
  | true =>
    rw [disconnectAt_child child (wf.ends_exist c (List.mem_of_getElem? here)).1]
    exact templates_relink
  | false =>
    rw [disconnectAt_binding child]
    rfl

/-- Commands bring in the templates of the nodes that they add and no others. -/
theorem templates_execute (wf : g.WellFormed) {command : Command} {receipt : Receipt}
    (done : command.execute g = .ok (after, receipt)) {t : NodeTemplate}
    (member : t ∈ after.templates) :
    t ∈ g.templates ∨ ∃ n, command = .addNode n ∧ t = n.template := by
  cases command with
  | addNode n =>
    obtain ⟨-, rfl, -⟩ := execute_addNode.1 done
    rw [templates, withNode, List.map_append, List.mem_append] at member
    exact member.imp_right fun last => ⟨n, rfl, by simpa using last⟩
  | removeNodes ids =>
    obtain ⟨removed, edited, -⟩ := execute_removeNodes.1 done
    obtain ⟨-, rfl, -⟩ := removeNodes_eq_ok.1 edited
    rw [templates, nodes_without, List.map_map] at member
    exact .inl ((List.filter_sublist.map _).subset member)
  | moveNodes moves =>
    obtain ⟨before, edited, -⟩ := execute_moveNodes.1 done
    exact .inl ((sameShape_moveNodes edited).templates ▸ member)
  | addConnection c =>
    obtain ⟨change, edited, -⟩ := execute_addConnection.1 done
    exact .inl (templates_connect edited ▸ member)
  | removeConnections connections =>
    obtain ⟨-, changes, edited, -⟩ := execute_removeConnections.1 done
    have keeps {h : Graph} {d : Connection} {index : Nat}
        (holds : h.WellFormed ∧ h.templates = g.templates)
        (here : h.connections[index]? = some d) : (h.disconnectAt index d).1.WellFormed ∧
          (h.disconnectAt index d).1.templates = g.templates :=
      ⟨holds.1.disconnectAt here, (templates_disconnectAt holds.1 here).trans holds.2⟩
    have same := (foldlM_disconnectStep_keeps keeps ⟨wf, rfl⟩ edited).2
    exact .inl (same ▸ member)
  | setProperty id key value =>
    obtain ⟨before, edited, -⟩ := execute_setProperty.1 done
    exact .inl ((sameShape_setProperty edited).templates ▸ member)

theorem keeps_loadable (registry : TemplateRegistry) : Keeps registry (Loadable registry) where
  consistent loadable := loadable.wellFormed.consistent
  renumber _ loadable := ⟨loadable.wellFormed.renumber, loadable.registered⟩
  execute := by
    intro g after command receipt loadable stocked done
    refine ⟨loadable.wellFormed.execute stocked.childless done, fun t member => ?_⟩
    rcases templates_execute loadable.wellFormed done member with old | ⟨n, rfl, rfl⟩
    · exact loadable.registered t old
    · obtain ⟨-, typeId, found⟩ := stocked
      exact registry.keyed _ _ found ▸ found

/-- The records of a graph's nodes stand for these nodes. -/
theorem mapM_toNode {nodes : List Node}
    (registered : ∀ n ∈ nodes, registry.get? n.template.id = some n.template) :
    (nodes.map NodeRecord.ofNode).mapM (NodeRecord.toNode registry) = .ok nodes := by
  induction nodes with
  | nil => rfl
  | cons n rest ih =>
    rw [List.forall_mem_cons] at registered
    have first : (NodeRecord.ofNode n).toNode registry = .ok n := by
      simp only [NodeRecord.toNode, NodeRecord.ofNode, Node.typeId, registered.1]
    rw [List.map_cons]
    exact Checks.mapM_cons_eq_ok.2 ⟨n, rest, first, ih registered.2, rfl⟩

/-- The parts of a loadable graph make it anew, with new ids numbered from the beginning. -/
theorem Loadable.ofParts (loadable : g.Loadable registry) :
    ofParts g.nodes g.connections = .ok (g.renumber 0) :=
  ofParts_eq_ok.2 ⟨rfl, loadable.wellFormed.renumber⟩

end Graph

/-! ## Variables -/

namespace TreeDocument

variable {b b' : Blackboard}

theorem defineStored_eq_ok {v : Variable} : defineStored b v = .ok b' ↔
    b.contains v.name v.scope = false ∧ v.Fits ∧ b' = { b.store v with raised := [] } := by
  rw [defineStored, Checks.map_eq_ok]
  simp only [Blackboard.define_eq_ok]
  constructor
  · rintro ⟨_, ⟨free, fits, rfl⟩, rfl⟩
    exact ⟨free, fits, rfl⟩
  · rintro ⟨free, fits, rfl⟩
    exact ⟨_, ⟨free, fits, rfl⟩, rfl⟩

/-- Defining the variables of a scope in the order of their names fills the scope up. The ones
defined so far are the first of them. -/
theorem foldlM_defineStored {scope : Scope} {vars : Dict Variable} (typed : TypedVars scope vars)
    {rest : List (String × Variable)} (split : vars.entries = (b.vars scope).entries ++ rest)
    (quiet : b.raised = []) :
    (rest.map (·.2)).foldlM defineStored b = .ok (b.withVars scope vars) := by
  induction rest generalizing b with
  | nil =>
    have same : vars = b.vars scope := Dict.ext (by simpa using split)
    subst same
    cases scope <;> rfl
  | cons entry rest ih =>
    obtain ⟨key, v⟩ := entry
    have ordered : Entries.Ordered ((b.vars scope).entries ++ (key, v) :: rest) :=
      split ▸ vars.ordered
    have above : ∀ entry ∈ (b.vars scope).entries, entry.1 < key := fun entry member =>
      (List.pairwise_append.1 ordered).2.2 entry member _ List.mem_cons_self
    have member : (key, v) ∈ vars.entries := by simp [split]
    obtain ⟨rfl, rfl, fits⟩ := typed key v (Dict.get?_of_mem member)
    have free : b.contains v.name v.scope = false := by
      rw [Blackboard.contains, Dict.contains, Dict.get?, Entries.lookup_of_above above]
      rfl
    let stored : Blackboard := { b.store v with raised := [] }
    have filled : (stored.vars v.scope).entries = (b.vars v.scope).entries ++ [(v.name, v)] := by
      have same : stored.vars v.scope = (b.vars v.scope).insert v.name v := by
        cases scope : v.scope <;> simp [stored, Blackboard.store, Blackboard.withVars,
          Blackboard.vars, scope]
      rw [same]
      exact Entries.put_of_above v above
    have completed : stored.withVars v.scope vars = b.withVars v.scope vars := by
      cases scope : v.scope <;> simp [stored, Blackboard.store, Blackboard.withVars, scope, quiet]
    rw [List.map_cons, Checks.foldlM_cons_eq_ok]
    refine ⟨stored, defineStored_eq_ok.2 ⟨free, fits, rfl⟩, ?_⟩
    rw [← completed]
    exact ih (by rw [filled, split, List.append_assoc, List.singleton_append]) rfl

/-- The variables of a well-typed blackboard make it anew, without what waits. -/
theorem foldlM_defineStored_list (typed : b.Typed) :
    (b.list .tree ++ b.list .project).foldlM defineStored {} =
      .ok { tree := b.tree, project := b.project } := by
  rw [List.foldlM_append, Checks.bind_eq_ok]
  refine ⟨{ tree := b.tree }, ?_, ?_⟩
  · exact foldlM_defineStored (b := {}) (typed .tree) rfl rfl
  · exact foldlM_defineStored (b := { tree := b.tree }) (typed .project) rfl rfl

/-! ## Workspaces -/

/-- Loading makes nodes, graph and blackboard in turn. -/
theorem toWorkspace_eq_ok {d : TreeDocument} {registry : TemplateRegistry} {ws : Workspace} :
    d.toWorkspace registry = .ok ws ↔ ∃ nodes graph board,
      d.nodes.mapM (NodeRecord.toNode registry) = .ok nodes ∧
      Graph.ofParts nodes d.connections = .ok graph ∧
      d.vars.foldlM defineStored {} = .ok board ∧
      ws = { metadata := d.metadata, graph := graph, shared := { board := board },
             registry := registry } := by
  simp only [toWorkspace, Checks.bind_eq_ok, Checks.mapError_eq_ok, pure, Except.pure,
    Except.ok.injEq]
  constructor
  · rintro ⟨nodes, named, graph, formed, board, defined, rfl⟩
    exact ⟨nodes, graph, board, named, formed, defined, rfl⟩
  · rintro ⟨nodes, graph, board, named, formed, defined, rfl⟩
    exact ⟨nodes, named, graph, formed, board, defined, rfl⟩

/-- A workspace that can be loaded comes back from its document as it was, apart from its history,
its listeners, the writes that wait and the numbering of new ids. -/
theorem toWorkspace_ofWorkspace {ws : Workspace} (loadable : ws.graph.Loadable ws.registry)
    (typed : ws.board.Typed) :
    (ofWorkspace ws).toWorkspace ws.registry = .ok
      { metadata := ws.metadata, graph := ws.graph.renumber 0,
        shared := { board := { tree := ws.board.tree, project := ws.board.project } },
        registry := ws.registry } := by
  have registered : ∀ n ∈ ws.graph.nodes, ws.registry.get? n.template.id = some n.template :=
    fun n member => loadable.registered _ (List.mem_map_of_mem member)
  exact toWorkspace_eq_ok.2 ⟨_, _, _, Graph.mapM_toNode registered, loadable.ofParts,
    foldlM_defineStored_list typed, rfl⟩

theorem template_toNode {registry : TemplateRegistry} {r : NodeRecord} {n : Node}
    (named : r.toNode registry = .ok n) : registry.get? n.template.id = some n.template := by
  unfold NodeRecord.toNode at named
  cases found : registry.get? r.typeId with
  | none => simp [found] at named
  | some t =>
    simp only [found, Except.ok.injEq] at named
    subst named
    exact registry.keyed _ _ found ▸ found

theorem templates_mapM_toNode {registry : TemplateRegistry} {records : List NodeRecord}
    {nodes : List Node} (named : records.mapM (NodeRecord.toNode registry) = .ok nodes) :
    ∀ n ∈ nodes, registry.get? n.template.id = some n.template := by
  induction records generalizing nodes with
  | nil =>
    obtain rfl := Except.ok.inj named
    simp
  | cons r rest ih =>
    obtain ⟨n, others, first, later, rfl⟩ := Checks.mapM_cons_eq_ok.1 named
    exact List.forall_mem_cons.2 ⟨template_toNode first, ih later⟩

theorem typed_foldlM_defineStored {vars : List Variable} (typed : b.Typed)
    (defined : vars.foldlM defineStored b = .ok b') : b'.Typed := by
  induction vars generalizing b with
  | nil =>
    obtain rfl := Except.ok.inj defined
    exact typed
  | cons v rest ih =>
    obtain ⟨next, first, later⟩ := Checks.foldlM_cons_eq_ok.1 defined
    obtain ⟨-, fits, eq⟩ := defineStored_eq_ok.1 first
    have stored := typed.store fits
    exact ih (eq ▸ stored.of_vars rfl rfl) later

/-- What was loaded can be loaded again, and has no history yet. -/
theorem loadable_of_toWorkspace {d : TreeDocument} {registry : TemplateRegistry} {ws : Workspace}
    (loaded : d.toWorkspace registry = .ok ws) :
    ws.graph.Loadable ws.registry ∧ ws.board.Typed ∧ ws.history = {} := by
  obtain ⟨nodes, graph, board, named, formed, defined, rfl⟩ := toWorkspace_eq_ok.1 loaded
  obtain ⟨rfl, wf⟩ := Graph.ofParts_eq_ok.1 formed
  have empty : ({} : Blackboard).Typed := fun scope => by
    cases scope <;> exact typedVars_empty _
  refine ⟨⟨wf, ?_⟩, typed_foldlM_defineStored empty defined, rfl⟩
  intro t member
  obtain ⟨n, listed, rfl⟩ := List.mem_map.1 member
  exact templates_mapM_toNode named n listed

end TreeDocument

end BehaviorTree
