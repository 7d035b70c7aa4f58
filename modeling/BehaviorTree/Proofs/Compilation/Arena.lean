import BehaviorTree.Compilation.Tree
import BehaviorTree.Proofs.Compilation.DepthFirst

/-!
# The numbering of a compiled tree

Facts that hold of every compiled tree, however it came about. All of them rest on two: children
come after their parent, and the block of a node is the node followed by the blocks of its children
(`subtree_eq`), where a block is an interval of numbers.
-/

namespace BehaviorTree.CompiledTree

open Relation

variable {t : CompiledTree} {s : Tree CompiledNode} {i j c : Nat}

/-- The ids in pre-order. -/
def ids (t : CompiledTree) : List String := t.nodes.map (·.id)

theorem lt_size_iff : i < t.size ↔ ∃ s, t.root.subtrees[i]? = some s := by
  rw [size, ← Tree.length_subtrees, ← Option.isSome_iff_exists, isSome_getElem?]

theorem node?_eq_map : t.node? i = (t.root.subtrees[i]?).map Tree.label := by
  rw [node?, nodes, ← Tree.map_label_subtrees, List.getElem?_map]

theorem node?_eq_some {n : CompiledNode} :
    t.node? i = some n ↔ ∃ s, t.root.subtrees[i]? = some s ∧ s.label = n := by
  rw [node?_eq_map, Option.map_eq_some_iff]

theorem ids_getElem? : t.ids[i]? = (t.root.subtrees[i]?).map (·.label.id) := by
  rw [ids, nodes, ← Tree.map_label_subtrees, List.map_map, List.getElem?_map]; rfl

/-- If no id stands twice, looking one up finds the place where it stands. -/
theorem index?_eq_some_iff (once : t.ids.Nodup) {id : String} :
    t.index? id = some i ↔ t.ids[i]? = some id := by
  rw [index?, List.findIdx?_eq_some_iff_getElem]
  constructor
  · rintro ⟨inside, is, -⟩
    rw [ids, List.getElem?_map, List.getElem?_eq_getElem inside]
    simpa using is
  · intro at_
    obtain ⟨inside, is⟩ := List.getElem?_eq_some_iff.1 at_
    have inside' : i < t.nodes.length := by simpa [ids] using inside
    refine ⟨inside', by simpa [ids] using is, fun j earlier same => ?_⟩
    have inside'' : j < t.ids.length := Nat.lt_trans earlier inside
    have again : t.ids[j] = id := by simpa [ids] using same
    exact absurd ((List.Nodup.getElem_inj_iff once).1 (again.trans is.symm))
      (Nat.ne_of_lt earlier)

theorem children_of_found (found : t.root.subtrees[i]? = some s) :
    t.children i = Tree.places (i + 1) s.children := by
  rw [children, found]

theorem subtree_of_found (found : t.root.subtrees[i]? = some s) :
    t.subtree i = List.range' i s.size := by
  rw [subtree, found]

/-- The children of a subtree are found at their places. -/
theorem children_found (found : t.root.subtrees[i]? = some s) :
    List.Forall₂ (fun c child => t.root.subtrees[c]? = some child) (t.children i) s.children := by
  obtain ⟨before, after, eq, len⟩ := Tree.subtrees_contiguous found
  rw [children_of_found found, eq]
  cases s with
  | node label children =>
    have shift : (before ++ [Tree.node label children]).length = i + 1 := by simp [len]
    simpa [Tree.subtrees, Tree.children] using Tree.places_found children after shift

theorem exists_of_mem_children (child : c ∈ t.children i) :
    ∃ s, t.root.subtrees[i]? = some s ∧ c ∈ Tree.places (i + 1) s.children := by
  cases found : t.root.subtrees[i]? with
  | none => simp [children, found] at child
  | some s => exact ⟨s, rfl, children_of_found found ▸ child⟩

/-- Children come after their parent. -/
theorem lt_of_mem_children (child : c ∈ t.children i) : i < c := by
  obtain ⟨_, _, mem⟩ := exists_of_mem_children child
  exact Tree.le_of_mem_places mem

theorem add_size_le (found : t.root.subtrees[i]? = some s) : i + s.size ≤ t.size := by
  obtain ⟨before, after, eq, len⟩ := Tree.subtrees_contiguous found
  have all := congrArg List.length eq
  simp only [List.length_append, Tree.length_subtrees] at all
  rw [size]
  omega

theorem children_lt_size (child : c ∈ t.children i) : c < t.size := by
  obtain ⟨s, found, _⟩ := exists_of_mem_children child
  obtain ⟨k, inside, rfl⟩ := List.getElem_of_mem child
  have located := (children_found found).get inside
    ((children_found found).length_eq ▸ inside)
  exact lt_size_iff.2 ⟨_, located⟩

/-- The block of a node is the node, then the blocks of its children in order. -/
theorem subtree_eq (inside : i < t.size) :
    t.subtree i = i :: (t.children i).flatMap t.subtree := by
  obtain ⟨s, found⟩ := lt_size_iff.1 inside
  have blocks : List.Forall₂ (fun p child => t.subtree p = List.range' p child.size)
      (Tree.places (i + 1) s.children) s.children := by
    rw [← children_of_found found]
    exact (children_found found).imp fun _ _ located => subtree_of_found located
  rw [subtree_of_found found, Tree.size_eq, List.range'_succ, children_of_found found,
    Tree.flatMap_places blocks]

/-- The block of a node is what a walk from the node visits. -/
theorem subtree_depthFirst {t : CompiledTree} {i : Nat} (inside : i < t.size) :
    DepthFirst t.children [i] (t.subtree i) := by
  rw [subtree_eq inside]
  refine .visit ?_
  rw [List.append_nil]
  exact .flatMap fun c child => subtree_depthFirst (children_lt_size child)
termination_by t.size - i
decreasing_by
  have later := lt_of_mem_children child
  omega

theorem mem_subtree_iff (inside : i < t.size) :
    j ∈ t.subtree i ↔ ReflTransGen (fun a b => b ∈ t.children a) i j :=
  (subtree_depthFirst inside).mem_iff

theorem le_of_mem_subtree (mem : j ∈ t.subtree i) : i ≤ j := by
  cases found : t.root.subtrees[i]? with
  | none => simp [subtree, found] at mem
  | some s =>
    rw [subtree_of_found found, List.mem_range'_1] at mem
    exact mem.1

/-- A block is an interval. -/
theorem mem_subtree_of_between {k : Nat} (low : i ≤ j) (high : j ≤ k) (mem : k ∈ t.subtree i) :
    j ∈ t.subtree i := by
  cases found : t.root.subtrees[i]? with
  | none => simp [subtree, found] at mem
  | some s =>
    rw [subtree_of_found found, List.mem_range'_1] at mem ⊢
    omega

/-- A number that two children of a node have in their blocks shows them to be one. -/
theorem child_unique {d : Nat} (first : c ∈ t.children i) (second : d ∈ t.children i)
    (inFirst : j ∈ t.subtree c) (inSecond : j ∈ t.subtree d) : c = d := by
  obtain ⟨s, found, _⟩ := exists_of_mem_children first
  have once : (t.subtree i).Nodup := subtree_of_found found ▸ List.nodup_range'
  rw [subtree_eq (lt_size_iff.2 ⟨s, found⟩)] at once
  have apart := (List.nodup_flatMap.1 (List.nodup_cons.1 once).2).2
  have : Std.Symm (Function.onFun List.Disjoint t.subtree) := 
    ⟨fun _ _ disjoint _ here there => disjoint there here⟩
  by_contra ne
  exact apart.forall first second ne inFirst inSecond

/-- A node that comes later is not the parent of a child of an earlier node: it would lie in the
block of one of the earlier node's children, and the child in that block too. -/
theorem not_mem_children_of_lt (child : c ∈ t.children i) (later : i < j) : c ∉ t.children j := by
  intro again
  obtain ⟨s, found, _⟩ := exists_of_mem_children child
  have inside : i < t.size := lt_size_iff.2 ⟨s, found⟩
  have below : j ∈ t.subtree i :=
    mem_subtree_of_between (Nat.le_of_lt later) (Nat.le_of_lt (lt_of_mem_children again))
      ((mem_subtree_iff inside).2 (.single child))
  rw [subtree_eq inside, List.mem_cons, List.mem_flatMap] at below
  obtain ⟨d, other, deep⟩ := below.resolve_left (Nat.ne_of_gt later)
  have both : c ∈ t.subtree d := (subtree_depthFirst (children_lt_size other)).closed deep again
  have self : c ∈ t.subtree c := (mem_subtree_iff (children_lt_size child)).2 .refl
  cases child_unique child other self both
  exact absurd (le_of_mem_subtree deep) (Nat.not_le_of_gt (lt_of_mem_children again))

/-- Every node but the root is the child of one node. -/
theorem existsUnique_parent (positive : 0 < j) (inside : j < t.size) :
    ∃! i, j ∈ t.children i := by
  have rooted : 0 < t.size := Nat.lt_of_le_of_lt (Nat.zero_le j) inside
  have all : t.subtree 0 = List.range' 0 t.size := subtree_of_found (Tree.head?_subtrees t.root)
  have below : j ∈ t.subtree 0 := by
    rw [all, List.mem_range'_1]
    omega
  rcases ReflTransGen.cases_tail ((mem_subtree_iff rooted).1 below) with rfl | ⟨i, _, child⟩
  · exact absurd positive (Nat.lt_irrefl 0)
  · refine ⟨i, child, fun k other => ?_⟩
    rcases Nat.lt_trichotomy i k with later | rfl | earlier
    · exact absurd other (not_mem_children_of_lt child later)
    · rfl
    · exact absurd child (not_mem_children_of_lt other earlier)

end BehaviorTree.CompiledTree
