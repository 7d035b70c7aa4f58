import BehaviorTree.Proofs.Compilation.Acceptance
import BehaviorTree.Proofs.Graph.Bindings
import Mathlib.Data.List.Induction

/-!
# What slots are bound to

The compiler groups the connections into a node by the slots that they lead into. What comes out is
told here by the graph alone: a slot is bound exactly if a connection leads into it, and its sources
are what these connections come from, one for each and in their order (`TreeBuilder.Feeding`). So a
slot of a compiled node reads as the graph says, whatever is on the blackboard and whatever the
nodes have published by then (`Feeding.property?_eq`); nothing of the snapshot is left in it.
-/

namespace BehaviorTree

open Checks

/-! ## Grouping -/

/-- The sources of a slot among those of all slots. -/
def sourcesOf (slot : String) (sources : List (String × ValueSource)) : List ValueSource :=
  (sources.filter fun entry => entry.1 == slot).map (·.2)

theorem sourcesOf_append (slot : String) (sources more : List (String × ValueSource)) :
    sourcesOf slot (sources ++ more) = sourcesOf slot sources ++ sourcesOf slot more := by
  rw [sourcesOf, List.filter_append, List.map_append]
  rfl

theorem mem_sourcesOf {slot : String} {source : ValueSource}
    {sources : List (String × ValueSource)} :
    source ∈ sourcesOf slot sources ↔ (slot, source) ∈ sources := by
  simp [sourcesOf]

/-- Whether a slot takes any number of sources. -/
def Node.multiplexes (n : Node) (slot : String) : Bool :=
  ((n.template.slot? slot).map (·.multiple)).getD false

namespace TreeBuilder

/-- What is under a slot after its sources were added, one by one, in between those of other
slots. -/
theorem get?_bindings (n : Node) (sources : List (String × ValueSource)) (slot : String) :
    (bindings n sources).get? slot =
      if sourcesOf slot sources = [] then none
      else some ⟨sourcesOf slot sources, n.multiplexes slot⟩ := by
  induction sources using List.reverseRecOn with
  | nil => rfl
  | append_singleton sources entry ih =>
    obtain ⟨at_, source⟩ := entry
    rw [bindings, List.foldl_append, ← bindings, sourcesOf_append]
    by_cases here : slot = at_
    · subst here
      have last : sourcesOf slot [(slot, source)] = [source] := by simp [sourcesOf]
      have before : (((bindings n sources).get? slot).map (·.sources)).getD [] =
          sourcesOf slot sources := by
        rw [ih]
        split <;> simp_all
      rw [last, if_neg (by simp)]
      simp only [List.foldl_cons, List.foldl_nil, addSource, Dict.get?_insert_self, before]
      rfl
    · have none : sourcesOf slot [(at_, source)] = [] := by simp [sourcesOf, Ne.symm here]
      rw [none, List.append_nil, ← ih]
      exact Dict.get?_insert_of_ne _ here _

/-! ## Sources -/

variable {b : TreeBuilder} {g : Graph} {snapshot : BlackboardSnapshot} {n m : Node}

/-- What a node is as a source, by the type that it is treated as. -/
inductive Resolves (b : TreeBuilder) (snapshot : BlackboardSnapshot) (m : Node) :
    ValueSource → Prop
  | named {name : String} {scope : Scope}
    (is : b.canonical m.typeId = TypeId.blackboardVariable)
    (reference : m.variableReference? = some (name, scope))
    (defined : snapshot.contains name scope = true) : Resolves b snapshot m (.variable name scope)
  | constant (is : b.canonical m.typeId = TypeId.constant) :
    Resolves b snapshot m (.constant ((m.data.get? "value").getD .null))
  | output (no_variable : b.canonical m.typeId ≠ TypeId.blackboardVariable)
    (no_constant : b.canonical m.typeId ≠ TypeId.constant) (runs : m.kind ≠ .data) :
    Resolves b snapshot m (.output m.id)

theorem source_eq_ok {source : ValueSource} :
    b.source snapshot m = .ok source ↔ b.Resolves snapshot m source := by
  have apart : TypeId.constant ≠ TypeId.blackboardVariable := by decide
  constructor
  · intro resolved
    unfold TreeBuilder.source at resolved
    by_cases isVariable : b.canonical m.typeId = TypeId.blackboardVariable
    · simp only [isVariable, if_true] at resolved
      cases named : m.variableReference? with
      | none => simp [named] at resolved
      | some reference =>
        obtain ⟨name, scope⟩ := reference
        simp only [named] at resolved
        split at resolved
        · obtain rfl := Except.ok.inj resolved
          exact .named isVariable named ‹_›
        · cases resolved
    · by_cases isConstant : b.canonical m.typeId = TypeId.constant
      · simp only [isConstant, apart, if_true, if_false, Except.ok.injEq] at resolved
        subst resolved
        exact .constant isConstant
      · simp only [isVariable, isConstant, if_false] at resolved
        obtain ⟨runs, resolved⟩ := guard_eq_ok.1 resolved
        obtain rfl := Except.ok.inj resolved
        exact .output isVariable isConstant runs
  · intro resolves
    cases resolves with
    | named is reference defined => simp [TreeBuilder.source, is, reference, defined]
    | constant is => simp [TreeBuilder.source, is, apart]
    | output no_variable no_constant runs =>
      simp [TreeBuilder.source, no_variable, no_constant, runs]

/-- A connection comes from a node that is some source. -/
def Supplies (b : TreeBuilder) (g : Graph) (snapshot : BlackboardSnapshot) (c : Connection)
    (source : ValueSource) : Prop :=
  ∃ m, g.node? c.source = some m ∧ b.Resolves snapshot m source

theorem resolves_of_slotSource {c : Connection} {entry : String × ValueSource}
    (found : b.slotSource g snapshot n c = .ok (some entry)) :
    ∃ m, b.Resolves snapshot m entry.2 := by
  cases named : c.targetSlot with
  | none =>
    rw [slotSource_unnamed named] at found
    cases found
  | some slot =>
    obtain ⟨m, source, -, resolved, same⟩ := (slotSource_eq_ok named).1 found
    obtain rfl := Option.some.inj same
    exact ⟨m, source_eq_ok.1 resolved⟩

/-- The sources of a slot are those of the connections into it, in their order. -/
theorem supplies_of_mapM {connections : List Connection}
    {entries : List (Option (String × ValueSource))}
    (found : connections.mapM (b.slotSource g snapshot n) = .ok entries) (slot : String) :
    List.Forall₂ (b.Supplies g snapshot) (connections.filter fun c => c.targetSlot == some slot)
      (sourcesOf slot (entries.filterMap id)) := by
  induction connections generalizing entries with
  | nil =>
    obtain rfl := Except.ok.inj found
    exact .nil
  | cons c rest ih =>
    obtain ⟨entry, others, first, later, rfl⟩ := mapM_cons_eq_ok.1 found
    have rest := ih later
    cases named : c.targetSlot with
    | none =>
      rw [slotSource_unnamed named] at first
      obtain rfl := Except.ok.inj first
      simpa [named] using rest
    | some into =>
      obtain ⟨m, source, is, resolved, rfl⟩ := (slotSource_eq_ok named).1 first
      have supplies : b.Supplies g snapshot c source := ⟨m, is, source_eq_ok.1 resolved⟩
      by_cases here : into = slot
      · simpa [sourcesOf, named, here] using List.Forall₂.cons supplies rest
      · simpa [sourcesOf, named, here] using rest

/-! ## Bindings -/

/-- The bindings of a node are what the connections into its slots come from. -/
structure Feeding (b : TreeBuilder) (g : Graph) (snapshot : BlackboardSnapshot) (ids : List String)
    (n : Node) (bindings : Dict Binding) : Prop where
  /-- A slot is bound exactly if a connection leads into it. -/
  bound_iff : ∀ slot, bindings.contains slot = true ↔
    ∃ c ∈ g.bindingsInto n.id, c.targetSlot = some slot
  /-- There is a source for each connection, in the order of the connections. -/
  sources : ∀ slot binding, bindings.get? slot = some binding →
    List.Forall₂ (b.Supplies g snapshot) (g.bindingsIntoSlot n.id slot) binding.sources
  multiplexed : ∀ slot binding, bindings.get? slot = some binding →
    binding.multiplexed = n.multiplexes slot
  /-- Variables are defined in the snapshot. -/
  defined : ∀ slot binding name scope, bindings.get? slot = some binding →
    .variable name scope ∈ binding.sources → snapshot.contains name scope = true
  /-- Outputs are those of some nodes. -/
  compiled : ∀ slot binding id, bindings.get? slot = some binding →
    .output id ∈ binding.sources → id ∈ ids

/-- The bindings that the compiler makes. -/
theorem feeding_bindings {ids : List String} {sources : List (String × ValueSource)}
    (fed : b.slotSources g snapshot n = .ok sources)
    (published : ∀ use ∈ outputUses n sources, use.source ∈ ids) :
    b.Feeding g snapshot ids n (bindings n sources) := by
  obtain ⟨entries, found, rfl⟩ := map_eq_ok.1 fed
  have supplied (slot : String) : List.Forall₂ (b.Supplies g snapshot)
      (g.bindingsIntoSlot n.id slot) (sourcesOf slot (entries.filterMap id)) :=
    supplies_of_mapM found slot
  have is {slot : String} {binding : Binding}
      (at_ : (bindings n (entries.filterMap id)).get? slot = some binding) :
      binding = ⟨sourcesOf slot (entries.filterMap id), n.multiplexes slot⟩ := by
    rw [get?_bindings] at at_
    split at at_
    · cases at_
    · exact (Option.some.inj at_).symm
  constructor
  case bound_iff =>
    intro slot
    have nothing : sourcesOf slot (entries.filterMap id) = [] ↔
        g.bindingsIntoSlot n.id slot = [] := by
      rw [← List.length_eq_zero_iff, ← (supplied slot).length_eq, List.length_eq_zero_iff]
    rw [Dict.contains, get?_bindings, ← not_iff_not]
    simp only [nothing, Graph.bindingsIntoSlot, List.filter_eq_nil_iff, beq_iff_eq]
    split <;> simp_all
  case sources =>
    intro slot binding at_
    rw [is at_]
    exact supplied slot
  case multiplexed =>
    intro slot binding at_
    rw [is at_]
  case defined =>
    intro slot binding name scope at_ member
    rw [is at_] at member
    obtain ⟨c, -, found⟩ := (mem_of_slotSources fed).1 (mem_sourcesOf.1 member)
    obtain ⟨m, resolves⟩ := resolves_of_slotSource found
    cases resolves with
    | named _ _ defined => exact defined
  case compiled =>
    intro slot binding id at_ member
    rw [is at_] at member
    exact published ⟨n.id, slot, id⟩ (mem_outputUses.2 ⟨rfl, mem_sourcesOf.1 member⟩)

/-- Each node of a compiled tree is fed as its graph says. -/
theorem feeding_of_build {t : CompiledTree} (built : b.build g snapshot = .ok t) :
    ∀ c ∈ t.nodes, ∃ n, g.node? c.id = some n ∧ c.config = n.data ∧
      b.Feeding g snapshot t.ids n c.bindings := by
  obtain ⟨root, found, -, -, compiles, outputs, -⟩ := build_eq_ok_iff.1 built
  have compiled : Compiled b g snapshot [b.rootId] [t.root] {} found :=
    compiled_of_compileTree compiles
  intro c member
  have visited : c.id ∈ found.met := by
    rw [compiled.met_root, List.mem_reverse]
    exact List.mem_map_of_mem member
  rw [CompiledTree.nodes, ← Tree.map_label_subtrees] at member
  obtain ⟨s, below, rfl⟩ := List.mem_map.1 member
  obtain ⟨n, is, copy⟩ := compiled.copies_root below
  obtain ⟨sources, fed, bound⟩ := copy.sources
  refine ⟨n, is, copy.config, ?_⟩
  rw [bound]
  refine feeding_bindings fed fun use uses => ?_
  have noted := (noted_iff compiles).2
    ⟨s.label.id, (met_iff compiles).1 visited, n, sources, is, fed, uses⟩
  have met := checkOutputs_eq_ok.1 outputs use noted
  rwa [compiled.met_root, List.mem_reverse] at met

/-! ## Reading slots -/

/-- What is behind a connection at some moment: the value of a variable, a constant, or what a node
has published. -/
def present (b : TreeBuilder) (g : Graph) (board : Blackboard)
    (published : String → Option Value) (c : Connection) : Option Value :=
  (g.node? c.source).bind fun m =>
    if b.canonical m.typeId = TypeId.blackboardVariable then
      m.variableReference?.bind fun reference => board.get? reference.1 reference.2
    else if b.canonical m.typeId = TypeId.constant then some ((m.data.get? "value").getD .null)
    else published m.id

/-- What a slot of a node reads as at some moment. What is behind a single connection falls back on
the configuration of the node; otherwise there is an array of all values that are there. -/
def reading (b : TreeBuilder) (g : Graph) (n : Node) (board : Blackboard)
    (published : String → Option Value) (slot : String) : Option Value :=
  match g.bindingsIntoSlot n.id slot, n.multiplexes slot with
  | [], _ => n.data.get? slot
  | [c], false => (b.present g board published c).or (n.data.get? slot)
  | connections, _ => some (.array (connections.filterMap (b.present g board published)))

/-- A source has the value that is behind its connection. -/
theorem Supplies.value?_eq {c : Connection} {source : ValueSource}
    (supplies : b.Supplies g snapshot c source) (board : Blackboard) (outputs : Outputs) :
    source.value? board outputs = b.present g board outputs.get? c := by
  have apart : TypeId.constant ≠ TypeId.blackboardVariable := by decide
  obtain ⟨m, is, resolves⟩ := supplies
  rw [present, is]
  cases resolves with
  | named isVariable reference _ => simp [isVariable, reference, ValueSource.value?]
  | constant isConstant => simp [isConstant, apart, ValueSource.value?]
  | output no_variable no_constant _ => simp [no_variable, no_constant, ValueSource.value?]

theorem filterMap_value? {connections : List Connection} {sources : List ValueSource}
    (supplied : List.Forall₂ (b.Supplies g snapshot) connections sources) (board : Blackboard)
    (outputs : Outputs) : sources.filterMap (·.value? board outputs) =
      connections.filterMap (b.present g board outputs.get?) := by
  induction supplied with
  | nil => rfl
  | cons first _ ih => rw [List.filterMap_cons, List.filterMap_cons, first.value?_eq, ih]

/-- A slot of a compiled node reads as its graph says. -/
theorem Feeding.property?_eq {info : NodeInfo} {ids : List String}
    (feeding : b.Feeding g snapshot ids n info.bindings) (config : info.config = n.data)
    (board : Blackboard) (outputs : Outputs) (slot : String) :
    info.property? board outputs slot = b.reading g n board outputs.get? slot := by
  rw [NodeInfo.property?, config, reading]
  cases at_ : info.bindings.get? slot with
  | none =>
    have unbound : g.bindingsIntoSlot n.id slot = [] := by
      rw [Graph.bindingsIntoSlot, List.filter_eq_nil_iff]
      intro c into named
      have bound := (feeding.bound_iff slot).2 ⟨c, into, beq_iff_eq.1 named⟩
      rw [Dict.contains, at_] at bound
      cases bound
    rw [unbound]
    rfl
  | some binding =>
    have supplied := feeding.sources slot binding at_
    have bound : g.bindingsIntoSlot n.id slot ≠ [] := by
      obtain ⟨c, into, named⟩ := (feeding.bound_iff slot).1 (by rw [Dict.contains, at_]; rfl)
      exact List.ne_nil_of_mem (List.mem_filter.2 ⟨into, beq_iff_eq.2 named⟩)
    rw [Option.bind_some, Binding.value?, feeding.multiplexed slot binding at_]
    have values := filterMap_value? supplied board outputs
    revert supplied bound values
    generalize g.bindingsIntoSlot n.id slot = connections
    generalize binding.sources = sources
    intro supplied bound values
    cases supplied with
    | nil => exact absurd rfl bound
    | cons first rest =>
      cases rest with
      | nil =>
        cases n.multiplexes slot with
        | false => simp only [first.value?_eq]
        | true => simp only [values, Option.some_or]
      | cons second rest => simp only [values, Option.some_or]

end TreeBuilder

end BehaviorTree
