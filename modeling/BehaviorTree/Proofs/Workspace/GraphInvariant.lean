import BehaviorTree.Proofs.Graph.Bindings
import BehaviorTree.Proofs.Workspace.Calls

/-!
# The graph of a workspace

A workspace that starts from a root alone has a graph that is well formed and whose bindings are in
order, whatever is asked of it and in whichever order (`graph_invariant`).
-/

namespace BehaviorTree

namespace Graph

/-- What holds of every graph that is edited through commands alone. -/
structure Sound (g : Graph) : Prop where
  wellFormed : g.WellFormed
  bound : g.Bound

theorem keeps_sound (registry : TemplateRegistry) : Keeps registry Sound where
  consistent sound := sound.wellFormed.consistent
  renumber _ sound := ⟨sound.wellFormed.renumber, sound.bound.renumber⟩
  execute sound stocked done := ⟨sound.wellFormed.execute stocked.childless done,
    sound.bound.execute sound.wellFormed stocked.childless done⟩

theorem sound_new {template : NodeTemplate} (kind : template.kind = .root) :
    (Graph.new template).Sound where
  wellFormed := wellFormed_new kind
  bound :=
    { declared := by simp [Graph.new]
      room := by simp [Graph.new, bindingsIntoSlot, bindingsInto]
      no_data := fun a b t child => absurd child (not_isChild_new a b) }

end Graph

namespace Workspace

variable {ws : Workspace}

/-- Whatever is asked of a workspace, its graph is valid, its nodes and connections are told apart
by their ids, no connection joins a node to itself, no data node is a child, and bindings lead into
declared slots that have room for them. -/
theorem graph_invariant (starts : ws.Starts) (calls : List Call) :
    let g := (ws.performAll calls).graph
    g.validate = .ok () ∧ (g.nodes.map (·.id)).Nodup ∧
      ((g.connections.map (·.id)).Nodup ∧ ∀ c ∈ g.connections, c.source ≠ c.target) ∧
      (∀ parent child n, child ∈ g.children parent → g.node? child = some n → n.kind ≠ .data) ∧
      (∀ c ∈ g.connections, c.kind = .binding → ∃ n name slot, g.node? c.target = some n ∧
        c.targetSlot = some name ∧ n.template.slot? name = some slot) ∧
      ∀ n ∈ g.nodes, ∀ name slot, n.template.slot? name = some slot → slot.multiple = false →
        (g.connections.filter fun c => c.kind == .binding && c.target == n.id &&
          c.targetSlot == some name).length ≤ 1 := by
  intro g
  obtain ⟨⟨empty, -⟩, root, kind, -, eq⟩ := starts.empty
  have tracked : ws.Tracked Graph.Sound := tracked_of_empty empty (eq ▸ Graph.sound_new kind)
  have sound : g.Sound := (tracked.performAll (Graph.keeps_sound _) calls).holds
  obtain ⟨wf, bound⟩ := sound
  refine ⟨(Graph.validate_eq_ok wf.distinct).2 wf.toValid, wf.distinct,
    ⟨wf.connection_ids, wf.no_loops⟩, ?_, ?_, ?_⟩
  · intro parent child n listed found
    exact bound.no_data parent child _ listed (Graph.template?_of_node? found)
  · intro c member binding
    obtain ⟨t, name, slot, typed, named, declared⟩ :=
      bound.declared c member (by simp [Connection.isChild, binding])
    obtain ⟨n, found, rfl⟩ := Option.map_eq_some_iff.1 typed
    exact ⟨n, name, slot, found, named, declared⟩
  · intro n member name slot declared single
    have few := bound.room n.id n.template name slot
      (Graph.template?_of_node? (wf.distinct.node?_of_mem member)) declared single
    have same (c : Connection) : (c.kind == .binding) = !c.isChild := by
      rw [Connection.isChild]
      cases c.kind <;> rfl
    simpa only [Graph.bindingsIntoSlot_eq, same] using few

/-- A leaf is added to a new workspace and made a child, both of which is taken back and done
again; connecting it a second time is rejected. -/
theorem graph_invariant_new :
    let calls : List Call := [.addNode TypeId.wait {} .empty, .connect Node.rootId "wait-1",
      .undo, .undo, .redo, .redo, .connect Node.rootId "wait-1"]
    let g := ((Workspace.new "patrol").performAll calls).graph
    g.validate = .ok () ∧ g.children Node.rootId = ["wait-1"] :=
  ⟨(graph_invariant (.new "patrol") _).1, by decide +kernel⟩

end Workspace

end BehaviorTree
