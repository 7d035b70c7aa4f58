import BehaviorTree.Proofs.Compilation.Translation

/-!
# Types that stand for other ones

A mapping makes the compiler treat the nodes of one type as those of another one. That is as if the
nodes had the other type from the start, up to the types that are recorded and the names of the
handlers of last resort: `TreeBuilder.build_withMapping`. There is one exception. A source of
values whose type is mapped to that of blackboard variables is taken for a variable, but the
variable it names is looked up only in nodes that have this type themselves; so a tree into which
such a source leads is not compiled at all.
-/

namespace BehaviorTree

open Checks

/-- A type, or the one it is replaced by. -/
def retyped (u v typeId : String) : String := if typeId = u then v else typeId

/-- The node with one type replaced by another one. -/
def Node.retype (u v : String) (n : Node) : Node :=
  { n with template := { n.template with id := retyped u v n.template.id } }

/-- The graph in which all nodes of one type have another one. -/
def Graph.retype (u v : String) (g : Graph) : Graph :=
  { g with nodes := g.nodes.map (Node.retype u v) }

/-- The fault, told of another type. -/
def SourceFault.retype (u v : String) : SourceFault → SourceFault
  | .noValue source typeId => .noValue source (retyped u v typeId)
  | other => other

/-- The error, told of another type. -/
def BuildError.retype (u v : String) : BuildError → BuildError
  | .unknownNodeType node typeId => .unknownNodeType node (retyped u v typeId)
  | .unresolvedBinding node slot fault => .unresolvedBinding node slot (fault.retype u v)
  | other => other

/-- A source whose type is mapped to that of blackboard variables leads into a slot of a node. -/
def Graph.Misread (g : Graph) (u v id : String) : Prop :=
  v = TypeId.blackboardVariable ∧ ∃ c ∈ g.bindingsInto id, c.targetSlot.isSome ∧
    ∃ source, g.node? c.source = some source ∧ source.typeId = u

namespace TreeBuilder

/-- The handler of a node whose type is replaced. That of an action for which none is registered is
one of last resort, which has its name from the type. -/
def retypeHandler (b : TreeBuilder) (u v : String) (n : NodeInfo) (h : Handler) : Handler :=
  if n.typeId = u ∧ n.kind = .action ∧ (b.handlers.get? v).isNone then { h with nodeType := v }
  else h

def retypeBehavior (b : TreeBuilder) (u v : String) (n : NodeInfo) : Behavior → Behavior
  | .handler h => .handler (b.retypeHandler u v n h)
  | other => other

def retypeCompiled (b : TreeBuilder) (u v : String) (c : CompiledNode) : CompiledNode :=
  { c with
    typeId := retyped u v c.typeId
    behavior := b.retypeBehavior u v c.toNodeInfo c.behavior }

/-- The compiled tree with one recorded type replaced by another one. -/
def retypeTree (b : TreeBuilder) (u v : String) (t : CompiledTree) : CompiledTree :=
  { t with root := t.root.map (b.retypeCompiled u v) }

end TreeBuilder

variable {b : TreeBuilder} {u v : String} {g : Graph} {snapshot : BlackboardSnapshot} {n : Node}

/-! ## Nodes of another type -/

theorem retyped_self (u v : String) : retyped u v u = v := if_pos rfl

theorem retyped_of_ne {typeId : String} (other : typeId ≠ u) : retyped u v typeId = typeId :=
  if_neg other

theorem Node.typeId_retype (n : Node) : (n.retype u v).typeId = retyped u v n.typeId := rfl

@[simp]
theorem Node.id_retype (n : Node) : (n.retype u v).id = n.id := rfl

@[simp]
theorem Node.kind_retype (n : Node) : (n.retype u v).kind = n.kind := rfl

@[simp]
theorem Node.children_retype (n : Node) : (n.retype u v).children = n.children := rfl

theorem Node.retype_of_ne (other : n.typeId ≠ u) : n.retype u v = n := by
  have same : retyped u v n.template.id = n.template.id := retyped_of_ne other
  rw [retype, same]

theorem Graph.node?_retype (g : Graph) (id : String) :
    (g.retype u v).node? id = (g.node? id).map (Node.retype u v) := by
  unfold node? retype
  rw [List.find?_map]
  rfl

/-- Only types are replaced in errors, and none are told of where the walk is refused. -/
theorem BuildError.OfWalk.retype {error : BuildError} (walk : error.OfWalk) :
    error.retype u v = error := by
  cases walk <;> rfl

namespace TreeBuilder

/-! ## What a type is treated as -/

/-- A handler of last resort has its name from the type, and nothing else. -/
theorem fallbackHandler?_retype (b : TreeBuilder) (u v : String) :
    b.fallbackHandler? v = (b.fallbackHandler? u).map fun h => { h with nodeType := v } := by
  unfold fallbackHandler?
  cases b.fallback <;> rfl

section Plain

variable (plain : b.mapping.get? v = none)

include plain

/-- Whether a type is mapped or replaced, it is treated as the same. -/
theorem canonical_retyped (typeId : String) :
    b.canonical (retyped u v typeId) = (b.withMapping u v).canonical typeId := by
  unfold canonical withMapping
  by_cases same : typeId = u
  · rw [same, retyped_self, plain, Dict.get?_insert_self]
    rfl
  · rw [retyped_of_ne same, Dict.get?_insert_of_ne _ same]

theorem canonical_self : b.canonical v = v := by
  rw [canonical, plain]
  rfl

/-- The handler of an action carries over. -/
theorem handler_retype {info : NodeInfo} (typeId : info.typeId = n.typeId)
    (role : info.kind = .action) :
    (b.handlers.get? ((b.withMapping u v).canonical n.typeId)).or
        (b.fallbackHandler? (retyped u v n.typeId)) =
      ((b.handlers.get? ((b.withMapping u v).canonical n.typeId)).or
        (b.fallbackHandler? n.typeId)).map (b.retypeHandler u v info) := by
  by_cases same : n.typeId = u
  · have treated : (b.withMapping u v).canonical u = v := by
      rw [← canonical_retyped plain, retyped_self, canonical_self plain]
    rw [same, retyped_self, treated]
    cases registered : b.handlers.get? v with
    | some h =>
      have kept : b.retypeHandler u v info h = h := by
        apply if_neg
        simp [registered]
      exact congrArg some kept.symm
    | none =>
      have named : b.retypeHandler u v info = fun h => { h with nodeType := v } := by
        funext h
        apply if_pos
        exact ⟨typeId.trans same, role, by rw [registered]; rfl⟩
      rw [named]
      exact b.fallbackHandler?_retype u v
  · have kept : b.retypeHandler u v info = id := by
      funext h
      apply if_neg
      rintro ⟨mapped, -⟩
      exact same (typeId.symm.trans mapped)
    rw [retyped_of_ne same, kept, Option.map_id]
    rfl

/-- What a node does carries over. -/
theorem behavior_retype (n : Node) {info : NodeInfo} (typeId : info.typeId = n.typeId)
    (kind : info.kind = n.kind) :
    b.behavior (n.retype u v) =
      translate (BuildError.retype u v) (b.retypeBehavior u v info)
        ((b.withMapping u v).behavior n) := by
  have handlers : (b.withMapping u v).handlers = b.handlers := rfl
  have lastResort (typeId : String) :
      (b.withMapping u v).fallbackHandler? typeId = b.fallbackHandler? typeId := rfl
  simp only [behavior, Node.typeId_retype, canonical_retyped plain, Node.kind_retype,
    Node.id_retype, Node.children_retype, handlers, lastResort]
  cases role : n.kind with
  | root => rfl
  | composite =>
    dsimp only
    cases Named.ofName? (α := CompositeKind) ((b.withMapping u v).canonical n.typeId) <;> rfl
  | decorator =>
    dsimp only
    split
    · rfl
    · cases Named.ofName? (α := DecoratorKind) ((b.withMapping u v).canonical n.typeId) <;> rfl
  | condition =>
    have kept (h : Handler) : b.retypeHandler u v info h = h := by
      apply if_neg
      simp [kind, role]
    dsimp only
    cases b.handlers.get? ((b.withMapping u v).canonical n.typeId) with
    | none => rfl
    | some h => exact congrArg (fun h => Except.ok (Behavior.handler h)) (kept h).symm
  | action =>
    dsimp only
    rw [handler_retype plain typeId (kind.trans role)]
    cases (b.handlers.get? ((b.withMapping u v).canonical n.typeId)).or
      (b.fallbackHandler? n.typeId) <;> rfl
  | data => rfl

/-! ## Where slots take their values from -/

/-- The source that a node is carries over, unless it is misread. -/
theorem source_retype (n : Node) (read : ¬ (v = TypeId.blackboardVariable ∧ n.typeId = u)) :
    b.source snapshot (n.retype u v) =
      translate (SourceFault.retype u v) id ((b.withMapping u v).source snapshot n) := by
  unfold source
  rw [Node.typeId_retype, canonical_retyped plain]
  by_cases same : n.typeId = u
  · have other : v ≠ TypeId.blackboardVariable := fun variable_ => read ⟨variable_, same⟩
    have treated : (b.withMapping u v).canonical u = v := by
      rw [← canonical_retyped plain, retyped_self, canonical_self plain]
    rw [same, treated, if_neg other, if_neg other]
    split
    · rfl
    · rw [Node.kind_retype]
      split <;> rfl
  · rw [Node.retype_of_ne same, retyped_of_ne same]
    dsimp only
    split
    · split
      · rfl
      · split <;> rfl
    · split
      · rfl
      · split
        · have told := retyped_of_ne (v := v) same
          exact congrArg (fun typeId => Except.error (SourceFault.noValue n.id typeId)) told.symm
        · rfl

/-- What feeds a slot carries over. -/
theorem slotSource_retype (n : Node) {c : Connection} (into : c ∈ g.bindingsInto n.id)
    (read : ¬ g.Misread u v n.id) :
    b.slotSource (g.retype u v) snapshot (n.retype u v) c =
      translate (BuildError.retype u v) id ((b.withMapping u v).slotSource g snapshot n c) := by
  unfold slotSource
  cases slot : c.targetSlot with
  | none => rfl
  | some name =>
    rw [Graph.node?_retype]
    cases is : g.node? c.source with
    | none => rfl
    | some source =>
      have readable : ¬ (v = TypeId.blackboardVariable ∧ source.typeId = u) := by
        rintro ⟨variable_, mapped⟩
        exact read ⟨variable_, c, into, by rw [slot]; rfl, source, is, mapped⟩
      rw [Option.map_some]
      dsimp only
      rw [source_retype plain source readable]
      cases (b.withMapping u v).source snapshot source <;> rfl

theorem slotSources_retype (n : Node) (read : ¬ g.Misread u v n.id) :
    b.slotSources (g.retype u v) snapshot (n.retype u v) =
      translate (BuildError.retype u v) id ((b.withMapping u v).slotSources g snapshot n) := by
  have each : ∀ c ∈ g.bindingsInto n.id,
      b.slotSource (g.retype u v) snapshot (n.retype u v) c =
        translate (BuildError.retype u v) id ((b.withMapping u v).slotSource g snapshot n c) :=
    fun c into => slotSource_retype plain n into read
  have connections : (g.retype u v).bindingsInto (n.retype u v).id = g.bindingsInto n.id := rfl
  rw [slotSources, slotSources, connections, translate_mapM each, List.map_id_fun]
  cases (g.bindingsInto n.id).mapM ((b.withMapping u v).slotSource g snapshot n) <;> rfl

/-- What a node is compiled to carries over. -/
theorem compileOne_retype (n : Node) (read : ¬ g.Misread u v n.id) (found : Found) :
    compileOne b (g.retype u v) snapshot (n.retype u v) found =
      translate (BuildError.retype u v) (restated (b.retypeCompiled u v))
        (compileOne (b.withMapping u v) g snapshot n found) := by
  let info : NodeInfo := ⟨n.id, n.typeId, n.kind, n.data, .empty⟩
  have behaves : b.behavior (n.retype u v) = translate (BuildError.retype u v)
      (b.retypeBehavior u v info) ((b.withMapping u v).behavior n) :=
    behavior_retype plain n rfl rfl
  rw [compileOne, compileOne, behaves, slotSources_retype plain n read]
  apply translate_bind
  intro behavior _
  apply translate_bind
  intro sources _
  rfl

/-- All that is compiled carries over, if nothing is misread below the root. -/
theorem carriesOver_retype (read : ∀ id, g.Reaches b.rootId id → ¬ g.Misread u v id) :
    CarriesOver (b.withMapping u v) b g (g.retype u v) snapshot snapshot (Node.retype u v)
      (b.retypeCompiled u v) (BuildError.retype u v) where
  node id _ := g.node?_retype id
  id _ := rfl
  children _ := rfl
  walk _ walk := walk.retype
  one n reached := compileOne_retype plain n (read n.id reached)

end Plain

/-! ## Whole trees -/

/-- A source that is taken for a variable by a mapping has none. -/
theorem source_misread (distinct : u ≠ TypeId.blackboardVariable) (mapped : n.typeId = u) :
    (b.withMapping u TypeId.blackboardVariable).source snapshot n =
      .error (.namesNoVariable n.id) := by
  have treated : (b.withMapping u TypeId.blackboardVariable).canonical n.typeId =
      TypeId.blackboardVariable := by
    rw [mapped, canonical, withMapping, Dict.get?_insert_self]
    rfl
  have nameless : n.variableReference? = none := by
    apply if_neg
    rw [mapped]
    exact distinct
  rw [source, if_pos treated, nameless]

/-- Where something is misread, nothing is compiled. -/
theorem not_misread_of_build (distinct : u ≠ v) {t : CompiledTree}
    (built : (b.withMapping u v).build g snapshot = .ok t) {id : String}
    (reached : g.Reaches b.rootId id) : ¬ g.Misread u v id := by
  rintro ⟨rfl, c, into, slot, source, is, mapped⟩
  obtain ⟨found, compiled, -⟩ := build_eq_ok built
  obtain ⟨n, s, isNode, copy⟩ := compiled.exists_copy reached
  obtain rfl := Graph.id_of_node? isNode
  obtain ⟨sources, fed, -⟩ := copy.sources
  obtain ⟨fed_by, all, -⟩ := Checks.map_eq_ok.1 fed
  obtain ⟨entry, feeds⟩ := of_mapM_eq_ok all c into
  obtain ⟨name, named⟩ := Option.isSome_iff_exists.1 slot
  rw [slotSource, named, is] at feeds
  simp only [source_misread distinct mapped] at feeds
  cases feeds

/-- On every graph, mapping a type to another one is as good as giving the nodes of that type the
other one: the same is compiled, or the same error is met, up to the types that are recorded and
told and the names of handlers of last resort. The exception is a source of values below the root
that is mapped to a blackboard variable, for then nothing is compiled. -/
theorem build_withMapping (distinct : u ≠ v) (plain : b.mapping.get? v = none) (g : Graph)
    (snapshot : BlackboardSnapshot) :
    ((∀ id, g.Reaches b.rootId id → ¬ g.Misread u v id) →
        b.build (g.retype u v) snapshot =
          translate (BuildError.retype u v) (b.retypeTree u v)
            ((b.withMapping u v).build g snapshot)) ∧
      ((∃ id, g.Reaches b.rootId id ∧ g.Misread u v id) →
        ∃ error, (b.withMapping u v).build g snapshot = .error error) := by
  constructor
  · intro read
    exact (carriesOver_retype plain read).build rfl rfl fun _ => rfl
  · rintro ⟨id, reached, misread⟩
    cases built : (b.withMapping u v).build g snapshot with
    | error error => exact ⟨error, rfl⟩
    | ok t => exact absurd misread (not_misread_of_build distinct built reached)

/-- A wait, for as long as a data node of some type says, below the root. -/
def waitGraph (waitType sourceType : String) : Graph :=
  { nodes := [⟨"root", .new "root" .root "", .empty, {}, ["rest"]⟩,
      ⟨"rest", .new waitType .action "", .empty, {}, []⟩,
      ⟨"delay", .new sourceType .data "", .ofList [("variableName", .string "delay")], {}, []⟩]
    connections := [.toChild "root" "rest", .toSlot "delay" "rest" "duration"] }

/-- A snapshot with the variable that the data node names. -/
def delaySnapshot : BlackboardSnapshot :=
  ⟨.ofList [("delay", ⟨"delay", .tree, .number, .number 1⟩)], .empty⟩

/-- A type that is mapped to a wait compiles like a wait, and a source that is mapped to a variable
does not compile at all. -/
theorem build_withMapping_wait :
    let b : TreeBuilder := {}
    let naps := waitGraph "nap" TypeId.blackboardVariable
    let settings := waitGraph "wait" "setting"
    (b.build (naps.retype "nap" "wait") delaySnapshot =
        translate (BuildError.retype "nap" "wait") (b.retypeTree "nap" "wait")
          ((b.withMapping "nap" "wait").build naps delaySnapshot) ∧
      ((b.withMapping "nap" "wait").build naps delaySnapshot).isOk) ∧
      ∃ error, (b.withMapping "setting" TypeId.blackboardVariable).build settings delaySnapshot =
        .error error := by
  intro b naps settings
  have naps_read : ∀ id, naps.Reaches b.rootId id → ¬ naps.Misread "nap" "wait" id :=
    fun id _ misread => absurd misread.1 (by decide)
  have mapped := (build_withMapping (by decide : "nap" ≠ "wait") (b := b) rfl naps
    delaySnapshot).1 naps_read
  have below : settings.IsChild b.rootId "rest" := by
    show "rest" ∈ settings.children "root"
    decide +kernel
  have reached : settings.Reaches b.rootId "rest" := .single below
  have misread : settings.Misread "setting" TypeId.blackboardVariable "rest" :=
    ⟨rfl, .toSlot "delay" "rest" "duration", by decide +kernel, rfl, _, rfl, rfl⟩
  have refused := (build_withMapping (by decide : "setting" ≠ TypeId.blackboardVariable) (b := b)
    rfl settings delaySnapshot).2 ⟨"rest", reached, misread⟩
  exact ⟨⟨mapped, by decide +kernel⟩, refused⟩

/-- A source of values that is mapped to a blackboard variable is said to name no variable, and one
that has this type itself compiles. -/
theorem build_withMapping_differs :
    let b : TreeBuilder := {}
    let g := waitGraph "wait" "setting"
    (b.mapping.get? TypeId.blackboardVariable = none ∧ (b.handlers.get? "setting").isNone) ∧
      ((b.withMapping "setting" TypeId.blackboardVariable).build g delaySnapshot).map
          (fun t => t.nodes.map (·.bindings)) =
        .error (.unresolvedBinding "rest" "duration" (.namesNoVariable "delay")) ∧
      (b.build (g.retype "setting" TypeId.blackboardVariable) delaySnapshot).map
          (fun t => t.nodes.map (·.bindings)) =
        .ok [.empty, .ofList [("duration", ⟨[.variable "delay" .tree], false⟩)]] := by
  decide +kernel

end TreeBuilder

end BehaviorTree
