import BehaviorTree.Proofs.Compilation.Translation

/-!
# Going down without a bound

The compiler bounds how deep it goes by the number of nodes. `descend` is the same walk without the
bound: it ends because no node is entered below itself, so that fewer nodes are left off the path
with each step down. The bound is never met (`compileTree_eq_descend`), on cyclic graphs neither,
and what is compiled does not depend on it. `build_root` says what the compiler does in terms of
the walk without a bound.
-/

namespace BehaviorTree

open Checks

/-- How many nodes are not on a path. -/
def Graph.offPath (g : Graph) (path : List String) : Nat :=
  (g.nodes.filter fun n => !path.contains n.id).length

theorem Graph.offPath_nil (g : Graph) : g.offPath [] = g.nodes.length := by
  have all : g.nodes.filter (fun n => !([] : List String).contains n.id) = g.nodes :=
    List.filter_eq_self.2 fun _ _ => rfl
  rw [offPath, all]

/-- A node that joins the path is one less that is not on it. -/
theorem Graph.offPath_cons_lt {g : Graph} {n : Node} {path : List String} (member : n ∈ g.nodes)
    (off : n.id ∉ path) : g.offPath (n.id :: path) < g.offPath path := by
  have fewer : g.nodes.filter (fun m => !(n.id :: path).contains m.id) =
      (g.nodes.filter fun m => !path.contains m.id).filter fun m => m.id != n.id := by
    rw [List.filter_filter]
    apply List.filter_congr
    intro m _
    simp only [List.contains_cons, Bool.not_or]
    rfl
  have here : n ∈ g.nodes.filter fun m => !path.contains m.id :=
    List.mem_filter.2 ⟨member, by simpa using off⟩
  rw [offPath, offPath, fewer]
  exact List.length_filter_lt_length_iff_exists.2 ⟨n, here, by simp⟩

namespace TreeBuilder

variable {b : TreeBuilder} {g : Graph} {snapshot : BlackboardSnapshot} {n : Node} {found : Found}

theorem offPath_of_enter {path : List String} {id parent : String}
    (entered : enter g path id parent found = .ok n) :
    g.offPath (n.id :: path) < g.offPath path := by
  obtain ⟨off, -, is⟩ := enter_eq_ok.1 entered
  obtain rfl := Graph.id_of_node? is
  exact Graph.offPath_cons_lt (Graph.mem_of_node? is) off

/-- The tree below an id, however deep it is. -/
def descend (b : TreeBuilder) (g : Graph) (snapshot : BlackboardSnapshot) (path : List String)
    (parent id : String) (found : Found) : Except BuildError (Tree CompiledNode × Found) :=
  match _ : enter g path id parent found with
  | .error e => .error e
  | .ok n => do
    let (compiled, found) ← compileOne b g snapshot n found
    let (children, found) ← compileAll
      (fun child found => descend b g snapshot (n.id :: path) n.id child found) n.children found
    return (.node compiled children, found)
termination_by g.offPath path
decreasing_by exact offPath_of_enter (by assumption)

/-- A bound above the number of nodes off the path is never met. -/
theorem compileTree_eq_descend {fuel : Nat} {path : List String} (enough : g.offPath path < fuel)
    (parent id : String) (found : Found) :
    compileTree b g snapshot fuel path parent id found =
      descend b g snapshot path parent id found := by
  induction fuel generalizing path parent id found with
  | zero => exact absurd enough (Nat.not_lt_zero _)
  | succ fuel ih =>
    rw [compileTree, descend]
    split
    · next e refused => rw [refused]; rfl
    · next n entered =>
      have closer := offPath_of_enter entered
      have below : compileTree b g snapshot fuel (n.id :: path) n.id =
          descend b g snapshot (n.id :: path) n.id := by
        funext child found
        exact ih (by omega) n.id child found
      rw [entered, ← below]
      rfl

/-- What carries over, carries over without a bound. -/
theorem CarriesOver.descend {b' : TreeBuilder} {g' : Graph} {snapshot' : BlackboardSnapshot}
    {onNode : Node → Node} {onCompiled : CompiledNode → CompiledNode}
    {onError : BuildError → BuildError}
    (carries : CarriesOver b b' g g' snapshot snapshot' onNode onCompiled onError) {id : String}
    (reached : g.Reaches b.rootId id) (path : List String) (parent : String) (found : Found) :
    TreeBuilder.descend b' g' snapshot' path parent id found =
      translate onError (restated (Tree.map onCompiled))
        (TreeBuilder.descend b g snapshot path parent id found) := by
  have enough : g.offPath path < g.offPath path + g'.offPath path + 1 := by omega
  have enough' : g'.offPath path < g.offPath path + g'.offPath path + 1 := by omega
  rw [← compileTree_eq_descend enough, ← compileTree_eq_descend enough']
  exact carries.compileTree _ reached path parent found

/-- The tree that is compiled, apart from what is said of the nodes outside it. -/
theorem build_root (b : TreeBuilder) (g : Graph) (snapshot : BlackboardSnapshot) :
    (b.build g snapshot).map (·.root) =
      match g.node? b.rootId with
      | none => .error (.noRoot b.rootId)
      | some root =>
        if 1 < root.children.length then .error (.multipleRootChildren root.children.length)
        else do
          let (tree, found) ← descend b g snapshot [] root.id root.id {}
          checkOutputs found
          return tree := by
  unfold build
  cases g.node? b.rootId with
  | none => rfl
  | some root =>
    have enough : g.offPath [] < g.nodes.length + 1 := by
      rw [Graph.offPath_nil]
      omega
    dsimp only
    rw [compileTree_eq_descend enough]
    split
    · rfl
    · cases descend b g snapshot [] root.id root.id {} with
      | error e => rfl
      | ok compiled =>
        obtain ⟨tree, found⟩ := compiled
        show Except.map _ (checkOutputs found >>= _) = (checkOutputs found >>= _)
        cases checkOutputs found <;> rfl

end TreeBuilder

end BehaviorTree
