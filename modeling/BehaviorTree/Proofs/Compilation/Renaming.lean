import BehaviorTree.Proofs.Compilation.Bindings
import BehaviorTree.Proofs.Compilation.Translation

/-!
# Variables under other names

A `Renaming` gives one variable of one scope another name, in the nodes that point at it and in the
sources that refer to it. The nodes of a graph and the sources of the compiled tree have to agree on
what refers to the variable; they do, since both go by `Node.variableReference?`. So a graph that
compiles still compiles once it is renamed, to the renamed tree, against any snapshot that has the
variables under their new names (`TreeBuilder.build_renamed`). The other direction does not hold: a
node may have pointed at the new name before there was such a variable.
-/

namespace BehaviorTree

open Checks

/-- The node, pointing at a variable of some name. -/
def Node.pointAt (name : String) (n : Node) : Node :=
  { n with data := n.data.insert "variableName" (.string name) }

/-- A variable of a scope that gets another name. -/
structure Renaming where
  former : String
  current : String
  scope : Scope

namespace Renaming

/-- The name of a variable after the renaming. -/
def onName (r : Renaming) (name : String) (scope : Scope) : String :=
  if name = r.former ∧ scope = r.scope then r.current else name

def onSource (r : Renaming) : ValueSource → ValueSource
  | .variable name scope => .variable (r.onName name scope) scope
  | other => other

def onBinding (r : Renaming) (binding : Binding) : Binding :=
  { binding with sources := binding.sources.map r.onSource }

/-- The configuration of a node that points at the variable points at the new name. -/
def onConfig (r : Renaming) (typeId : String) (config : Dict Value) : Dict Value :=
  if typeId = TypeId.blackboardVariable ∧ Node.variableIn config = some (r.former, r.scope) then
    config.insert "variableName" (.string r.current)
  else config

def onNode (r : Renaming) (n : Node) : Node := { n with data := r.onConfig n.typeId n.data }

def onGraph (r : Renaming) (g : Graph) : Graph := { g with nodes := g.nodes.map r.onNode }

def onCompiled (r : Renaming) (c : CompiledNode) : CompiledNode :=
  { c with config := r.onConfig c.typeId c.config, bindings := c.bindings.map r.onBinding }

def onTree (r : Renaming) (t : CompiledTree) : CompiledTree :=
  { t with root := t.root.map r.onCompiled }

/-- Slots with their sources. -/
def onEntry (r : Renaming) (entry : String × ValueSource) : String × ValueSource :=
  (entry.1, r.onSource entry.2)

/-! ## Nodes -/

variable (r : Renaming)

theorem onName_self : r.onName r.former r.scope = r.current := if_pos ⟨rfl, rfl⟩

theorem onName_of_ne {name : String} {scope : Scope} (other : ¬ (name = r.former ∧ scope = r.scope)) :
    r.onName name scope = name :=
  if_neg other

/-- No entry of a configuration is written but that of the name. -/
theorem get?_onConfig_of_ne {key : String} (other : key ≠ "variableName") (typeId : String)
    (config : Dict Value) : (r.onConfig typeId config).get? key = config.get? key := by
  unfold onConfig
  split
  · exact Dict.get?_insert_of_ne _ other _
  · rfl

/-- The nodes that point at the variable are made to point at the new name. -/
theorem onNode_eq (n : Node) : r.onNode n =
    if n.variableReference? = some (r.former, r.scope) then n.pointAt r.current else n := by
  unfold onNode onConfig Node.variableReference?
  by_cases isVariable : n.typeId = TypeId.blackboardVariable
  · simp only [isVariable, true_and, if_true]
    split <;> rfl
  · simp [isVariable]

theorem node?_onGraph (g : Graph) (id : String) :
    (r.onGraph g).node? id = (g.node? id).map r.onNode := by
  unfold Graph.node? onGraph
  rw [List.find?_map]
  rfl

/-- A node points at what it pointed at before, under the name that this has now. -/
theorem variableReference?_onNode (n : Node) : (r.onNode n).variableReference? =
    n.variableReference?.map fun reference =>
      (r.onName reference.1 reference.2, reference.2) := by
  rw [r.onNode_eq]
  by_cases refers : n.variableReference? = some (r.former, r.scope)
  · -- The scope is named by another entry, which stays.
    have named : n.typeId = TypeId.blackboardVariable ∧
        Node.variableIn n.data = some (r.former, r.scope) := by
      simpa [Node.variableReference?] using refers
    obtain ⟨_, -, same⟩ := Option.map_eq_some_iff.1 named.2
    have scope : Node.scopeNamed (n.data.get? "scope") = r.scope := congrArg Prod.snd same
    have kept : (n.data.insert "variableName" (.string r.current)).get? "scope" =
        n.data.get? "scope" := Dict.get?_insert_of_ne _ (by decide) _
    have typeId : (n.pointAt r.current).typeId = n.typeId := rfl
    have points : Node.variableIn (n.pointAt r.current).data = some (r.current, r.scope) := by
      rw [Node.variableIn, Node.pointAt, Dict.get?_insert_self, kept, scope]
      rfl
    rw [if_pos refers, refers, Node.variableReference?, typeId, if_pos named.1, points,
      Option.map_some, r.onName_self]
  · rw [if_neg refers]
    cases points : n.variableReference? with
    | none => rfl
    | some reference =>
      have other : ¬ (reference.1 = r.former ∧ reference.2 = r.scope) := by
        rintro ⟨name, scope⟩
        exact refers (points.trans (congrArg some (Prod.ext name scope)))
      rw [Option.map_some, r.onName_of_ne other]

/-! ## Slots -/

theorem sourcesOf_onEntry (slot : String) (sources : List (String × ValueSource)) :
    sourcesOf slot (sources.map r.onEntry) = (sourcesOf slot sources).map r.onSource := by
  have same : (fun entry : String × ValueSource => entry.1 == slot) ∘ r.onEntry =
      fun entry => entry.1 == slot := rfl
  rw [sourcesOf, sourcesOf, List.filter_map, same, List.map_map, List.map_map]
  rfl

theorem bindings_onNode (n : Node) (sources : List (String × ValueSource)) :
    TreeBuilder.bindings (r.onNode n) (sources.map r.onEntry) =
      (TreeBuilder.bindings n sources).map r.onBinding := by
  apply Dict.ext_get?
  intro slot
  rw [Dict.get?_map, TreeBuilder.get?_bindings, TreeBuilder.get?_bindings, r.sourcesOf_onEntry]
  simp only [List.map_eq_nil_iff]
  split <;> rfl

/-- Outputs are read as before. -/
theorem outputUses_onNode (n : Node) (sources : List (String × ValueSource)) :
    TreeBuilder.outputUses (r.onNode n) (sources.map r.onEntry) =
      TreeBuilder.outputUses n sources := by
  unfold TreeBuilder.outputUses
  rw [List.filterMap_map]
  apply List.filterMap_congr
  rintro ⟨slot, source⟩ -
  cases source <;> rfl

end Renaming

namespace TreeBuilder

variable {b : TreeBuilder} {g : Graph} {snapshot snapshot' : BlackboardSnapshot} {n m : Node}

/-! ## Compiling -/

/-- What feeds the slots of a node depends on its id alone. -/
theorem slotSources_congr (same : n.id = m.id) :
    b.slotSources g snapshot n = b.slotSources g snapshot m := by
  unfold slotSources slotSource
  rw [same]

section Renamed

variable (r : Renaming)
  (defined : ∀ name scope, snapshot.contains name scope = true →
    snapshot'.contains (r.onName name scope) scope = true)

include defined

theorem Resolves.renamed {source : ValueSource} (resolves : b.Resolves snapshot m source) :
    b.Resolves snapshot' (r.onNode m) (r.onSource source) := by
  cases resolves with
  | @named name scope is reference present =>
    refine .named is ?_ (defined name scope present)
    rw [r.variableReference?_onNode, reference]
    rfl
  | constant is =>
    have kept : (r.onNode m).data.get? "value" = m.data.get? "value" :=
      r.get?_onConfig_of_ne (by decide) _ _
    rw [← kept]
    exact .constant is
  | output no_variable no_constant runs => exact .output no_variable no_constant runs

theorem slotSource_renamed {c : Connection} {entry : Option (String × ValueSource)}
    (found : b.slotSource g snapshot n c = .ok entry) :
    b.slotSource (r.onGraph g) snapshot' (r.onNode n) c = .ok (entry.map r.onEntry) := by
  cases named : c.targetSlot with
  | none =>
    rw [slotSource_unnamed named] at found ⊢
    obtain rfl := Except.ok.inj found
    rfl
  | some slot =>
    obtain ⟨m, source, is, resolved, rfl⟩ := (slotSource_eq_ok named).1 found
    have resolves : b.Resolves snapshot' (r.onNode m) (r.onSource source) :=
      (source_eq_ok.1 resolved).renamed r defined
    refine (slotSource_eq_ok named).2 ⟨r.onNode m, _, ?_, source_eq_ok.2 resolves, rfl⟩
    rw [r.node?_onGraph, is]
    rfl

theorem slotSources_renamed {sources : List (String × ValueSource)}
    (fed : b.slotSources g snapshot n = .ok sources) :
    b.slotSources (r.onGraph g) snapshot' (r.onNode n) = .ok (sources.map r.onEntry) := by
  obtain ⟨entries, all, rfl⟩ := map_eq_ok.1 fed
  have each : ∀ c ∈ g.bindingsInto n.id, b.slotSource (r.onGraph g) snapshot' (r.onNode n) c =
      translate id (Option.map r.onEntry) (b.slotSource g snapshot n c) := by
    intro c into
    obtain ⟨entry, found⟩ := of_mapM_eq_ok all c into
    rw [slotSource_renamed r defined found, found]
    rfl
  have connections : (r.onGraph g).bindingsInto (r.onNode n).id = g.bindingsInto n.id := rfl
  rw [slotSources, connections, translate_mapM each, all]
  have found : (entries.map (Option.map r.onEntry)).filterMap id =
      (entries.filterMap id).map r.onEntry := by
    rw [List.filterMap_map, List.map_filterMap]
    rfl
  exact congrArg Except.ok found

/-- What a node with sources in its slots is compiled to carries over. -/
theorem compileOne_renamed {sources : List (String × ValueSource)}
    (fed : b.slotSources g snapshot n = .ok sources) (found : Found) :
    compileOne b (r.onGraph g) snapshot' (r.onNode n) found =
      translate id (restated r.onCompiled) (compileOne b g snapshot n found) := by
  have behavior : b.behavior (r.onNode n) = b.behavior n := rfl
  rw [compileOne, compileOne, behavior, fed, slotSources_renamed r defined fed]
  cases b.behavior n with
  | error e => rfl
  | ok behavior =>
    simp only [bind, Except.bind, pure, Except.pure, r.bindings_onNode, r.outputUses_onNode]
    rfl

/-- A graph that compiles does so under the new name, to the tree with the new name in it. -/
theorem build_renamed {t : CompiledTree} (built : b.build g snapshot = .ok t) :
    b.build (r.onGraph g) snapshot' = .ok (r.onTree t) := by
  obtain ⟨found, compiled, -⟩ := build_eq_ok built
  have carries : CarriesOver b b g (r.onGraph g) snapshot snapshot' r.onNode r.onCompiled id :=
    { node := fun id _ => r.node?_onGraph g id
      id := fun _ => rfl
      children := fun _ => rfl
      walk := fun _ _ => rfl
      one := fun n reached found => by
        obtain ⟨m, s, is, copy⟩ := compiled.exists_copy reached
        obtain ⟨sources, fed, -⟩ := copy.sources
        rw [← slotSources_congr (Graph.id_of_node? is).symm] at fed
        exact compileOne_renamed r defined fed found }
  rw [carries.build rfl rfl fun _ => rfl, built]
  rfl

end Renamed

end TreeBuilder

end BehaviorTree
