import BehaviorTree.Proofs.Compilation.Build

/-!
# Compiling in other terms

Two graphs may have the same shape below the root, with nodes that differ in a way that can be said
node by node. If each of these nodes is then compiled to the same, in other terms, so is the whole
tree: the walk through the graph depends on ids and children alone, and so do the errors that it
meets by itself.
-/

namespace BehaviorTree

open Checks

/-- The walk through the graph is refused, and not what is found at a node. -/
inductive BuildError.OfWalk : BuildError → Prop
  | noRoot (root : String) : OfWalk (.noRoot root)
  | multipleRootChildren (count : Nat) : OfWalk (.multipleRootChildren count)
  | cyclicStructure (node : String) : OfWalk (.cyclicStructure node)
  | invalidStructure (node : String) (fault : StructureFault) :
    OfWalk (.invalidStructure node fault)
  | notCompiled (node slot source : String) :
    OfWalk (.unresolvedBinding node slot (.notCompiled source))

namespace TreeBuilder

/-- Expresses what was compiled in other terms, and leaves what was found. -/
def restated {α β : Type} (terms : α → β) (result : α × Found) : β × Found :=
  (terms result.1, result.2)

/-- What each node below the root is compiled to carries over from one graph to another one. -/
structure CarriesOver (b b' : TreeBuilder) (g g' : Graph)
    (snapshot snapshot' : BlackboardSnapshot) (onNode : Node → Node)
    (onCompiled : CompiledNode → CompiledNode) (onError : BuildError → BuildError) : Prop where
  node : ∀ id, g.Reaches b.rootId id → g'.node? id = (g.node? id).map onNode
  id : ∀ n, (onNode n).id = n.id
  children : ∀ n, (onNode n).children = n.children
  walk : ∀ error : BuildError, error.OfWalk → onError error = error
  one : ∀ n, g.Reaches b.rootId n.id → ∀ found,
    compileOne b' g' snapshot' (onNode n) found =
      translate onError (restated onCompiled) (compileOne b g snapshot n found)

theorem checkOutputs_ofWalk {found : Found} {error : BuildError}
    (refused : checkOutputs found = .error error) : error.OfWalk := by
  unfold checkOutputs at refused
  split at refused
  · cases refused
    exact .notCompiled _ _ _
  · cases refused

/-- Trees below ids that each carry over. -/
theorem compileAll_translate
    {below below' : String → Found → Except BuildError (Tree CompiledNode × Found)}
    {onCompiled : CompiledNode → CompiledNode} {onError : BuildError → BuildError}
    {ids : List String} (each : ∀ id ∈ ids, ∀ found,
      below' id found = translate onError (restated (Tree.map onCompiled)) (below id found))
    (found : Found) :
    compileAll below' ids found =
      translate onError (restated (Tree.maps onCompiled)) (compileAll below ids found) := by
  induction ids generalizing found with
  | nil => rfl
  | cons id ids ih =>
    obtain ⟨first, rest⟩ := List.forall_mem_cons.1 each
    rw [compileAll, compileAll, first]
    apply translate_bind
    rintro ⟨tree, between⟩ -
    simp only [restated]
    rw [ih rest]
    apply translate_bind
    rintro ⟨trees, after⟩ -
    rfl

namespace CarriesOver

variable {b b' : TreeBuilder} {g g' : Graph} {snapshot snapshot' : BlackboardSnapshot}
  {onNode : Node → Node} {onCompiled : CompiledNode → CompiledNode}
  {onError : BuildError → BuildError}
  (carries : CarriesOver b b' g g' snapshot snapshot' onNode onCompiled onError)

include carries

theorem enter {id : String} (reached : g.Reaches b.rootId id) (path : List String)
    (parent : String) (found : Found) :
    TreeBuilder.enter g' path id parent found =
      translate onError onNode (TreeBuilder.enter g path id parent found) := by
  unfold TreeBuilder.enter
  split
  · rw [translate_error, carries.walk _ (.cyclicStructure id)]
  · split
    · rw [translate_error, carries.walk _ (.invalidStructure id .manyParents)]
    · rw [carries.node id reached]
      cases g.node? id with
      | none => exact congrArg Except.error (carries.walk _ (.invalidStructure _ _)).symm
      | some n => rfl

/-- The tree below an id that is reached from the root carries over. -/
theorem compileTree (fuel : Nat) {id : String} (reached : g.Reaches b.rootId id)
    (path : List String) (parent : String) (found : Found) :
    TreeBuilder.compileTree b' g' snapshot' fuel path parent id found =
      translate onError (restated (Tree.map onCompiled))
        (TreeBuilder.compileTree b g snapshot fuel path parent id found) := by
  induction fuel generalizing path parent id found with
  | zero => exact congrArg Except.error (carries.walk _ (.cyclicStructure id)).symm
  | succ fuel ih =>
    rw [TreeBuilder.compileTree, TreeBuilder.compileTree, carries.enter reached]
    apply translate_bind
    intro n entered
    obtain ⟨-, -, is⟩ := enter_eq_ok.1 entered
    obtain rfl := Graph.id_of_node? is
    rw [carries.one n reached, carries.id, carries.children]
    apply translate_bind
    rintro ⟨compiled, between⟩ -
    simp only [restated]
    rw [compileAll_translate (fun child listed between =>
      ih (reached.tail (Graph.isChild_iff.2 ⟨n, is, listed⟩)) (n.id :: path) n.id between)]
    apply translate_bind
    rintro ⟨trees, after⟩ -
    rfl

/-- The whole tree carries over, if all nodes correspond to one another and keep their kinds. -/
theorem build (root : b'.rootId = b.rootId) (nodes : g'.nodes = g.nodes.map onNode)
    (kinds : ∀ n, (onNode n).kind = n.kind) :
    b'.build g' snapshot' =
      translate onError (fun t => { t with root := t.root.map onCompiled })
        (b.build g snapshot) := by
  unfold TreeBuilder.build
  rw [root, carries.node _ .refl, nodes, List.length_map]
  cases is : g.node? b.rootId with
  | none => exact congrArg Except.error (carries.walk _ (.noRoot b.rootId)).symm
  | some n =>
    have start : g.Reaches b.rootId n.id := by
      rw [Graph.id_of_node? is]
      exact .refl
    simp only [Option.map_some, carries.id, carries.children]
    split
    · exact congrArg Except.error (carries.walk _ (.multipleRootChildren _)).symm
    · rw [carries.compileTree _ start]
      apply translate_bind
      rintro ⟨tree, found⟩ -
      simp only [restated]
      cases outputs : checkOutputs found with
      | error e => exact congrArg Except.error (carries.walk _ (checkOutputs_ofWalk outputs)).symm
      | ok =>
        have excluded : (fun n : Node => n.kind != .data && !found.met.contains n.id) ∘ onNode =
            fun n : Node => n.kind != .data && !found.met.contains n.id := by
          funext n
          simp only [Function.comp_apply, kinds, carries.id]
        have listed : (fun n : Node => n.id) ∘ onNode = fun n : Node => n.id := funext carries.id
        rw [List.filter_map, List.map_map, excluded, listed]
        rfl

end CarriesOver

end TreeBuilder

end BehaviorTree
