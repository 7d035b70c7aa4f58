import BehaviorTree.Proofs.Workspace.Cascade
import Mathlib.Data.List.Perm.Subperm

/-!
# New nodes and their ids

The id of a new node is its type with a number. The search for a number (`Graph.Finds`) goes up from
the last one given out until it comes to an id that no node has, and nothing in it says when to stop.
It stops because the ids it tries are all different (`numberedId_inj`): each that is taken is the id
of another node, so at most as many are taken as there are nodes (`Graph.Taken.count_le`). This holds
whatever the nodes are called and however low the numbering starts again after loading.

The node then joins the graph as the last one, bare of children and connections (`Joins`).
-/

namespace BehaviorTree

/-- The id of a type and a number. -/
def numberedId (typeId : String) (number : Nat) : String := typeId ++ "-" ++ toString number

theorem numberedId_inj {typeId : String} {a b : Nat}
    (same : numberedId typeId a = numberedId typeId b) : a = b := by
  have digits : toString a = toString b := (String.append_right_inj _).1 same
  have numbers := congrArg (fun text : String => Nat.ofDigitChars 10 text.toList 0) digits
  simpa using numbers

/-- The id of the root has no number. -/
theorem numberedId_ne_root (typeId : String) (number : Nat) :
    numberedId typeId number ≠ Node.rootId := by
  intro same
  have dash : '-' ∈ (numberedId typeId number).toList := by
    simp [numberedId, String.toList_append]
  rw [same] at dash
  revert dash
  decide

namespace Graph

variable {g : Graph} {typeId : String} {last steps number : Nat}

/-! ## The search for a number -/

/-- A search for a free number goes on from the last one and ends, after a number of steps, with a
number. It has no bound: while ids are taken, it goes on. -/
inductive Finds (g : Graph) (typeId : String) : Nat → Nat → Nat → Prop
  | free {last : Nat} (free : g.contains (numberedId typeId (last + 1)) = false) :
    Finds g typeId last 1 (last + 1)
  | taken {last steps number : Nat} (taken : g.contains (numberedId typeId (last + 1)) = true)
    (rest : Finds g typeId (last + 1) steps number) : Finds g typeId last (steps + 1) number

/-- The ids of as many numbers after a last one are all taken. -/
def Taken (g : Graph) (typeId : String) (last count : Nat) : Prop :=
  ∀ k < count, g.contains (numberedId typeId (last + 1 + k)) = true

theorem Taken.cons {count : Nat} (here : g.contains (numberedId typeId (last + 1)) = true)
    (rest : g.Taken typeId (last + 1) count) : g.Taken typeId last (count + 1) := by
  intro k less
  cases k with
  | zero => exact here
  | succ k =>
    have taken := rest k (by omega)
    rwa [show last + 1 + 1 + k = last + 1 + (k + 1) by omega] at taken

theorem Finds.number_eq (finds : g.Finds typeId last steps number) : number = last + steps := by
  induction finds with
  | free => rfl
  | taken _ _ ih => omega

theorem Finds.is_free (finds : g.Finds typeId last steps number) :
    g.contains (numberedId typeId number) = false := by
  induction finds with
  | free free => exact free
  | taken _ _ ih => exact ih

/-- All ids but the last one of a search are taken. -/
theorem Finds.exists_taken (finds : g.Finds typeId last steps number) :
    ∃ count, steps = count + 1 ∧ g.Taken typeId last count := by
  induction finds with
  | free => exact ⟨0, rfl, fun k less => absurd less (Nat.not_lt_zero k)⟩
  | taken here _ ih =>
    obtain ⟨count, rfl, taken⟩ := ih
    exact ⟨count + 1, rfl, taken.cons here⟩

/-- A search has one outcome. -/
theorem Finds.unique {steps' number' : Nat} (finds : g.Finds typeId last steps number)
    (again : g.Finds typeId last steps' number') : number = number' := by
  induction finds generalizing steps' with
  | free free =>
    cases again with
    | free => rfl
    | taken taken => exact absurd taken (Bool.eq_false_iff.1 free)
  | taken taken _ ih =>
    cases again with
    | free free => exact absurd taken (Bool.eq_false_iff.1 free)
    | taken _ rest => exact ih rest

/-- The running search is this one, unless its bound runs out among ids that are taken. -/
theorem finds_or_taken (g : Graph) (typeId : String) (fuel last : Nat) :
    (∃ steps, g.Finds typeId last steps (g.freshNumber typeId fuel last)) ∨
      g.Taken typeId last (fuel + 1) := by
  induction fuel generalizing last with
  | zero =>
    cases here : g.contains (numberedId typeId (last + 1)) with
    | false => exact .inl ⟨1, .free here⟩
    | true => exact .inr (.cons here fun k less => absurd less (Nat.not_lt_zero k))
  | succ fuel ih =>
    rw [freshNumber]
    split
    · next here =>
      exact (ih (last + 1)).imp (fun ⟨steps, finds⟩ => ⟨steps + 1, .taken here finds⟩) (.cons here)
    · next free => exact .inl ⟨1, .free (Bool.eq_false_iff.2 free)⟩

/-! ## Its end -/

theorem mem_ids {id : String} : id ∈ g.ids ↔ g.contains id = true := by
  rw [ids, List.mem_eraseDups, List.mem_map, contains_iff]

/-- Ids that are taken are different ones of any list that has the ids of all nodes. -/
theorem Taken.count_le {count : Nat} (taken : g.Taken typeId last count) {names : List String}
    (all : ∀ id, g.contains id = true → id ∈ names) : count ≤ names.length := by
  let tried := (List.range count).map fun k => numberedId typeId (last + 1 + k)
  have distinct : tried.Nodup :=
    List.nodup_range.map fun a b same => Nat.add_left_cancel (numberedId_inj same)
  have listed : tried ⊆ names := by
    intro id member
    obtain ⟨k, less, rfl⟩ := List.mem_map.1 member
    exact all _ (taken k (List.mem_range.1 less))
  have bound := (List.subperm_of_subset distinct listed).length_le
  simpa [tried] using bound

/-- The number of the next id that is given out for a type. -/
def nextNumber (g : Graph) (typeId : String) : Nat :=
  g.freshNumber typeId g.nodes.length g.lastId

/-- The search ends on every graph, with one more step than there are nodes at most. -/
theorem exists_finds (g : Graph) (typeId : String) :
    ∃ steps ≤ g.size + 1, g.Finds typeId g.lastId steps (g.nextNumber typeId) := by
  rcases finds_or_taken g typeId g.nodes.length g.lastId with ⟨steps, finds⟩ | taken
  · obtain ⟨count, rfl, taken⟩ := finds.exists_taken
    have bound : count ≤ g.size := taken.count_le fun id present => mem_ids.2 present
    exact ⟨count + 1, Nat.succ_le_succ bound, finds⟩
  · -- The bound does not run out: more ids would be taken than there are nodes.
    have bound := taken.count_le fun id present =>
      List.mem_map.2 (contains_iff.1 present)
    rw [List.length_map] at bound
    omega

/-- A node of a free id that is no root may be added where there is a root. -/
theorem checkNewNode_of_free {n : Node} (free : g.contains n.id = false) (other : n.kind ≠ .root)
    (named : n.id ≠ Node.rootId) : g.checkNewNode n = .ok () := by
  rw [checkNewNode, if_neg (by simp [free]), if_neg other, if_neg named]

end Graph

namespace Workspace

variable {ws : Workspace} {typeId : String} {template : NodeTemplate}

/-- How a new node joins the graph of a workspace: it comes after all nodes that were there, has no
children, is nobody's child and at no end of a connection. The history remembers it, and everything
else is as it was. -/
structure Joins (ws : Workspace) (n : Node) (number : Nat) (after : Workspace) : Prop where
  new : ws.graph.contains n.id = false
  childless : n.children = []
  parentless : ∀ a, ¬ after.graph.IsChild a n.id
  unconnected : ∀ c ∈ after.graph.connections, c.source ≠ n.id ∧ c.target ≠ n.id
  rest : after = { ws with
    graph := ⟨ws.graph.nodes ++ [n], ws.graph.connections, number⟩
    history := ws.history.remembering (.addNode n) (.added n.id) }

/-- A free node joins a graph in which all that is mentioned exists. -/
theorem joins_of_free {n : Node} (consistent : ws.graph.Consistent)
    (free : ws.graph.contains n.id = false) (childless : n.children = []) (number : Nat) :
    Joins ws n number { ws with
      graph := ⟨ws.graph.nodes ++ [n], ws.graph.connections, number⟩
      history := ws.history.remembering (.addNode n) (.added n.id) } where
  new := free
  childless := childless
  parentless a child := by
    have before : ws.graph.IsChild a n.id := (Graph.isChild_withNode free childless).1 child
    exact absurd (consistent.child_exists before) (Bool.eq_false_iff.1 free)
  unconnected c member := by
    have ends := consistent.ends_exist c member
    refine ⟨fun eq => ?_, fun eq => ?_⟩
    · exact absurd (eq ▸ ends.1) (Bool.eq_false_iff.1 free)
    · exact absurd (eq ▸ ends.2) (Bool.eq_false_iff.1 free)
  rest := rfl

/-- Adding a node is doing the command that adds it, once its id was given out. -/
theorem addNode_of_ok {position : Position} {data : Dict Value} {after : Workspace}
    (found : ws.registry.get? typeId = some template)
    (done : execute { ws with graph := ws.graph.renumber (ws.graph.nextNumber typeId) }
      (.addNode (.ofTemplate (numberedId typeId (ws.graph.nextNumber typeId)) template position
        data)) = (.ok (), after)) :
    ws.addNode typeId position data =
      (.ok (numberedId typeId (ws.graph.nextNumber typeId)), after) := by
  have given : ws.graph.allocateId typeId = (numberedId typeId (ws.graph.nextNumber typeId),
    ws.graph.renumber (ws.graph.nextNumber typeId)) := rfl
  simp only [addNode, found, given, done, Except.map]

/-- A node of any registered type other than the root's can be added to every workspace. The search
for its id ends, with one more step than there are nodes at most, at a number whose id no node has;
the node joins the graph under that id, and the numbering goes on from there. -/
theorem addNode_joins (arises : ws.Arises) (found : ws.registry.get? typeId = some template)
    (other : template.kind ≠ .root) (position : Position) (data : Dict Value) :
    ∃ steps ≤ ws.graph.size + 1, ∃ number,
      ws.graph.Finds typeId ws.graph.lastId steps number ∧ number = ws.graph.lastId + steps ∧
      ∃ after, ws.addNode typeId position data = (.ok (numberedId typeId number), after) ∧
        Joins ws (.ofTemplate (numberedId typeId number) template position data) number after := by
  obtain ⟨steps, bound, finds⟩ := ws.graph.exists_finds typeId
  have free := finds.is_free
  have checked : (ws.graph.renumber (ws.graph.nextNumber typeId)).checkNewNode (.ofTemplate
      (numberedId typeId (ws.graph.nextNumber typeId)) template position data) = .ok () :=
    Graph.checkNewNode_of_free free other (numberedId_ne_root typeId _)
  refine ⟨steps, bound, ws.graph.nextNumber typeId, finds, finds.number_eq, _, ?_,
    joins_of_free arises.consistent free rfl _⟩
  exact addNode_of_ok found (execute_of_ok (Graph.execute_addNode.2 ⟨checked, rfl, rfl⟩))

/-- A stored tree whose nodes have the ids that would be given out first. -/
def numberedDocument : TreeDocument where
  metadata := ⟨"patrol", ""⟩
  nodes := [⟨"root", "root", .empty, ["wait-2"], {}⟩, ⟨"wait-1", "log", .empty, [], {}⟩,
    ⟨"wait-2", "sequence", .empty, ["wait-1"], {}⟩]
  connections := [.toChild "root" "wait-2", .toChild "wait-2" "wait-1"]
  vars := []

/-- The third number is free. -/
theorem addNode_joins_numbered :
    ∃ ws, numberedDocument.toWorkspace .builtin = .ok ws ∧
      ∃ after, ws.addNode TypeId.wait {} .empty = (.ok "wait-3", after) ∧
        after.graph.nodes.length = 4 := by
  have accepted : (numberedDocument.toWorkspace .builtin).toOption.any (fun ws =>
      ws.graph.contains "wait-1" && ws.graph.contains "wait-2" && !ws.graph.contains "wait-3" &&
        ws.graph.lastId == 0 && ws.graph.nodes.length == 3) = true := by
    decide +kernel
  cases loaded : numberedDocument.toWorkspace .builtin with
  | error e => rw [loaded] at accepted; cases accepted
  | ok ws =>
    simp only [loaded, Except.toOption, Option.any_some, Bool.and_eq_true, Bool.not_eq_true',
      beq_iff_eq] at accepted
    obtain ⟨⟨⟨⟨first, second⟩, third⟩, zero⟩, three⟩ := accepted
    have arises : ws.Arises := ⟨ws, [], .loaded loaded, rfl⟩
    have registry : ws.registry = .builtin := by
      obtain ⟨_, _, _, -, -, -, rfl⟩ := TreeDocument.toWorkspace_eq_ok.1 loaded
      rfl
    obtain ⟨template, found, other⟩ : ∃ template,
        ws.registry.get? TypeId.wait = some template ∧ template.kind ≠ .root := by
      rw [registry]
      exact ⟨_, rfl, by decide⟩
    obtain ⟨steps, -, number, finds, -, after, eq, joins⟩ :=
      addNode_joins arises found other {} .empty
    rw [zero] at finds
    obtain rfl := finds.unique (.taken first (.taken second (.free third)))
    refine ⟨ws, rfl, after, eq, ?_⟩
    rw [joins.rest, List.length_append, three]
    rfl

end Workspace

end BehaviorTree
