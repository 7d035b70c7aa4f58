import BehaviorTree.Proofs.Blackboard.Store
import BehaviorTree.Proofs.Document.Loading

/-!
# Saving what was loaded

Every document that can be loaded is saved as it was, but for the order of its variables: nodes,
children and connections keep theirs, whatever it is, and the variables come out by scope and name
(`ofWorkspace_toWorkspace`). A variable that is defined makes the list longer by itself, since its
name was free, and so none is lost and none occurs twice.
-/

namespace BehaviorTree

/-! ## Variables -/

/-- The order in which a document lists variables: those of the tree before those of the project,
each scope by name. -/
def Variable.Before (v w : Variable) : Prop :=
  v.scope = .tree ∧ w.scope = .project ∨ v.scope = w.scope ∧ v.name < w.name

instance (v w : Variable) : Decidable (v.Before w) :=
  inferInstanceAs (Decidable (_ ∨ _))

namespace Blackboard

variable {b : Blackboard}

/-- The variables of both scopes, those of the tree first. -/
def listAll (b : Blackboard) : List Variable := b.list .tree ++ b.list .project

/-- What is stored under a free name is one variable more. -/
theorem listAll_store_perm {v : Variable} (free : b.contains v.name v.scope = false) :
    (b.store v).listAll.Perm (v :: b.listAll) := by
  have more := Dict.values_insert_perm v (Blackboard.contains_eq_false_iff.1 free)
  obtain ⟨name, scope, type, value⟩ := v
  cases scope with
  | tree => exact more.append_right _
  | project => exact (more.append_left _).trans List.perm_middle

theorem Typed.pairwise_list (typed : b.Typed) (scope : Scope) :
    (b.list scope).Pairwise Variable.Before := by
  rw [list, Dict.values, List.pairwise_map]
  refine (b.vars scope).ordered.imp_of_mem fun {entry later} member member' lt => .inr ?_
  obtain ⟨name, ofScope, -⟩ := typed scope _ _ (Dict.mem_entries.1 member)
  obtain ⟨name', ofScope', -⟩ := typed scope _ _ (Dict.mem_entries.1 member')
  rw [name, name', ofScope, ofScope']
  exact ⟨rfl, lt⟩

/-- A well-typed blackboard lists its variables by scope and name. -/
theorem Typed.pairwise_listAll (typed : b.Typed) : b.listAll.Pairwise Variable.Before := by
  refine List.pairwise_append.2 ⟨typed.pairwise_list .tree, typed.pairwise_list .project, ?_⟩
  intro v inTree w inProject
  exact .inl ⟨(typed.mem_list.1 inTree).2, (typed.mem_list.1 inProject).2⟩

end Blackboard

/-! ## Documents -/

/-- The record of a node that a record stands for is that record. -/
theorem NodeRecord.ofNode_toNode {registry : TemplateRegistry} {r : NodeRecord} {n : Node}
    (named : r.toNode registry = .ok n) : ofNode n = r := by
  unfold toNode at named
  cases found : registry.get? r.typeId with
  | none => simp [found] at named
  | some template =>
    simp only [found, Except.ok.injEq] at named
    subst named
    simp only [ofNode, Node.typeId, registry.keyed _ _ found]

namespace TreeDocument

theorem map_ofNode_mapM_toNode {registry : TemplateRegistry} {records : List NodeRecord}
    {nodes : List Node} (named : records.mapM (NodeRecord.toNode registry) = .ok nodes) :
    nodes.map NodeRecord.ofNode = records := by
  induction records generalizing nodes with
  | nil =>
    obtain rfl := Except.ok.inj named
    rfl
  | cons r rest ih =>
    obtain ⟨n, others, first, later, rfl⟩ := Checks.mapM_cons_eq_ok.1 named
    rw [List.map_cons, NodeRecord.ofNode_toNode first, ih later]

/-- The variables that were defined are listed beside those that were there. -/
theorem listAll_foldlM_defineStored {b after : Blackboard} {vars : List Variable}
    (defined : vars.foldlM defineStored b = .ok after) :
    after.listAll.Perm (b.listAll ++ vars) := by
  induction vars generalizing b with
  | nil =>
    obtain rfl := Except.ok.inj defined
    rw [List.append_nil]
  | cons v rest ih =>
    obtain ⟨next, first, later⟩ := Checks.foldlM_cons_eq_ok.1 defined
    obtain ⟨free, -, rfl⟩ := defineStored_eq_ok.1 first
    have others := ih later
    have here := (Blackboard.listAll_store_perm free).append_right rest
    exact (others.trans here).trans List.perm_middle.symm

/-- A document that is loaded is saved again with the same description, nodes and connections, in
the order they had, and with the same variables, by scope and name. -/
theorem ofWorkspace_toWorkspace {d : TreeDocument} {registry : TemplateRegistry} {ws : Workspace}
    (loaded : d.toWorkspace registry = .ok ws) :
    ∃ vars, ofWorkspace ws = { d with vars := vars } ∧ vars.Perm d.vars ∧
      vars.Pairwise Variable.Before := by
  have typed := (loadable_of_toWorkspace loaded).2.1
  obtain ⟨nodes, graph, board, named, formed, defined, rfl⟩ := toWorkspace_eq_ok.1 loaded
  obtain ⟨rfl, -⟩ := Graph.ofParts_eq_ok.1 formed
  refine ⟨board.listAll, ?_, listAll_foldlM_defineStored defined, typed.pairwise_listAll⟩
  simp only [ofWorkspace, map_ofNode_mapM_toNode named, Blackboard.listAll, Workspace.board]

/-- A document whose nodes come in no particular order, and its variables in none either. -/
def shuffledDocument : TreeDocument where
  metadata := ⟨"patrol", "A note after a rest."⟩
  nodes := [⟨"note", "log", .ofList [("colour", .string "red")], [], {}⟩,
    ⟨"all", "sequence", .empty, ["rest", "note"], ⟨1, 0⟩⟩,
    ⟨"root", "root", .empty, ["all"], {}⟩, ⟨"rest", "wait", .empty, [], {}⟩]
  connections := [.toChild "all" "note", .toChild "root" "all", .toChild "all" "rest"]
  vars := [⟨"route", .project, .array, .array []⟩, ⟨"speed", .tree, .number, .null⟩,
    ⟨"pace", .tree, .any, .string "slow"⟩, ⟨"pace", .project, .boolean, .bool true⟩]

/-- All that is stored comes back, of the variables those of the tree first. -/
theorem ofWorkspace_toWorkspace_shuffled :
    ∃ ws, shuffledDocument.toWorkspace .builtin = .ok ws ∧ ∃ vars,
      ofWorkspace ws = { shuffledDocument with vars := vars } ∧
      vars.Perm shuffledDocument.vars ∧ vars.Pairwise Variable.Before := by
  have accepted : (shuffledDocument.toWorkspace .builtin).isOk = true := by
    decide +kernel
  cases loaded : shuffledDocument.toWorkspace .builtin with
  | error e => rw [loaded] at accepted; cases accepted
  | ok ws => exact ⟨ws, rfl, ofWorkspace_toWorkspace loaded⟩

end TreeDocument

end BehaviorTree
