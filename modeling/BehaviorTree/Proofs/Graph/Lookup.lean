import BehaviorTree.Graph.Edit
import Mathlib.Data.List.Nodup

/-!
# Looking nodes up

A graph lists its nodes, and everything else asks for them by id. The lemmas here say what a look-up
finds, and how the edits that change one node or the list as a whole change what is found. Proofs
about edits go by these and do not open the list.
-/

namespace BehaviorTree.Graph

/-- No id stands twice in the list of nodes. -/
def Distinct (g : Graph) : Prop := (g.nodes.map (·.id)).Nodup

/-- One node lists another among its children. -/
def IsChild (g : Graph) (parent child : String) : Prop := child ∈ g.children parent

variable {g : Graph} {id a b : String} {n : Node}

/-! ## What is found -/

theorem mem_of_node? (found : g.node? id = some n) : n ∈ g.nodes :=
  List.mem_of_find?_eq_some found

theorem id_of_node? (found : g.node? id = some n) : n.id = id := by
  simpa using List.find?_some found

theorem contains_iff : g.contains id = true ↔ ∃ n ∈ g.nodes, n.id = id := by
  simp [contains, node?, List.find?_isSome]

theorem contains_of_node? (found : g.node? id = some n) : g.contains id = true := by
  rw [contains, found]; rfl

theorem exists_node? (h : g.contains id = true) : ∃ n, g.node? id = some n :=
  Option.isSome_iff_exists.1 h

theorem Distinct.node?_of_mem (distinct : g.Distinct) (member : n ∈ g.nodes) :
    g.node? n.id = some n := by
  obtain ⟨m, found⟩ := exists_node? (contains_iff.2 ⟨n, member, rfl⟩)
  have same : m = n :=
    List.inj_on_of_nodup_map distinct (mem_of_node? found) member (id_of_node? found)
  rw [found, same]

theorem children_of_node? (found : g.node? id = some n) : g.children id = n.children := by
  rw [children, found]; rfl

theorem Distinct.children_of_mem (distinct : g.Distinct) (member : n ∈ g.nodes) :
    g.children n.id = n.children :=
  children_of_node? (distinct.node?_of_mem member)

theorem isChild_iff : g.IsChild a b ↔ ∃ n, g.node? a = some n ∧ b ∈ n.children := by
  unfold IsChild children
  cases g.node? a <;> simp

/-- A node for which no parent is found is nobody's child. -/
theorem not_isChild_of_parent? (none : g.parent? b = none) (a : String) : ¬ g.IsChild a b := by
  intro child
  obtain ⟨n, found, listed⟩ := isChild_iff.1 child
  have unlisted := List.find?_eq_none.1 (Option.map_eq_none_iff.1 none) n (mem_of_node? found)
  simp [listed] at unlisted

/-! ## Changing nodes in place -/

/-- A change of nodes keeps ids. -/
def KeepsIds (f : Node → Node) : Prop := ∀ n, (f n).id = n.id

theorem ids_update {f : Node → Node} (keeps : KeepsIds f) :
    (g.update id f).nodes.map (·.id) = g.nodes.map (·.id) := by
  simp only [update, List.map_map]
  apply List.map_congr_left
  intro n _
  by_cases h : n.id = id <;> simp [h, keeps n]

theorem Distinct.update {f : Node → Node} (distinct : g.Distinct) (keeps : KeepsIds f) :
    (g.update id f).Distinct := by
  rw [Distinct, ids_update keeps]; exact distinct

theorem node?_update {f : Node → Node} (keeps : KeepsIds f) (a : String) :
    (g.update id f).node? a = (g.node? a).map fun n => if n.id = id then f n else n := by
  have same : (fun n => n.id == a) ∘ (fun n => if n.id = id then f n else n) = fun n => n.id == a := by
    funext n
    by_cases h : n.id = id <;> simp [h, keeps n]
  rw [node?, Graph.update, List.find?_map, same, node?]

theorem contains_update {f : Node → Node} (keeps : KeepsIds f) (a : String) :
    (g.update id f).contains a = g.contains a := by
  rw [contains, node?_update keeps, Option.isSome_map, contains]

/-- Changing the nodes of an id twice is changing them once by both changes. -/
theorem update_update {f f' : Node → Node} (keeps : KeepsIds f) :
    (g.update id f).update id f' = g.update id (f' ∘ f) := by
  simp only [update, List.map_map]
  congr 1
  apply List.map_congr_left
  intro n _
  by_cases h : n.id = id <;> simp [h, keeps n]

/-- A change that leaves the node of an id as it is leaves the graph as it is. -/
theorem Distinct.update_eq_self {f : Node → Node} (distinct : g.Distinct)
    (fixed : ∀ n, g.node? id = some n → f n = n) : g.update id f = g := by
  have unchanged : ∀ n ∈ g.nodes, (if n.id = id then f n else n) = n := by
    intro n member
    by_cases h : n.id = id
    · rw [if_pos h, fixed n (h ▸ distinct.node?_of_mem member)]
    · rw [if_neg h]
  rw [Graph.update, List.map_congr_left unchanged, List.map_id']

theorem keepsIds_children (children : List String) :
    KeepsIds fun n => { n with children := children } := fun _ => rfl

theorem node?_setChildren (children : List String) (a : String) :
    (g.setChildren id children).node? a =
      (g.node? a).map fun n => if n.id = id then { n with children := children } else n :=
  node?_update (keepsIds_children children) a

@[simp]
theorem contains_setChildren (children : List String) (a : String) :
    (g.setChildren id children).contains a = g.contains a :=
  contains_update (keepsIds_children children) a

theorem children_setChildren_self (listed : List String) (present : g.contains id = true) :
    (g.setChildren id listed).children id = listed := by
  obtain ⟨n, found⟩ := exists_node? present
  simp [children, node?_setChildren, found, id_of_node? found]

theorem children_setChildren_of_ne (listed : List String) (ne : a ≠ id) :
    (g.setChildren id listed).children a = g.children a := by
  cases found : g.node? a with
  | none => simp [children, node?_setChildren, found]
  | some n => simp [children, node?_setChildren, found, id_of_node? found, ne]

/-- Setting the children of a node twice is setting them once. -/
theorem setChildren_setChildren (first second : List String) :
    (g.setChildren id first).setChildren id second = g.setChildren id second :=
  update_update (keepsIds_children first)

/-- Setting the children that a node has changes nothing. -/
theorem Distinct.setChildren_children (distinct : g.Distinct) :
    g.setChildren id (g.children id) = g :=
  distinct.update_eq_self fun n found => by rw [children_of_node? found]

end BehaviorTree.Graph
