import BehaviorTree.Proofs.Compilation.Descent

/-!
# What the compiler accepts

`Buildable` says of a graph, without following the compiler, when what lies below the root is a tree
of nodes that can run, with something behind each slot that is connected. The compiler goes through
exactly then, and on every graph it comes to an end (`TreeBuilder.build_succeeds_iff`).

Each of the two directions is one induction on the walk. What is compiled was visited by a walk that
visits nothing twice, and such a walk has gone down a tree. Conversely, below different children of
a node of a tree there is nothing in common, so that what is met in one of the subtrees is in
nobody's way later on.
-/

namespace BehaviorTree

open Relation Checks

/-! ## Graphs that can be compiled -/

namespace TreeBuilder

/-- The type of a node is one that a node of its kind can have, and a decorator has its child. -/
def Performs (b : TreeBuilder) (n : Node) : Prop :=
  match n.kind with
  | .root | .condition => True
  | .composite => b.canonical n.typeId ∈ ["sequence", "selector"]
  | .decorator => n.children.length = 1 ∧ b.canonical n.typeId ∈
    ["inverter", "always-succeed", "always-fail", "repeat", "retry", "cooldown", "timeout"]
  | .action => (b.handlers.get? (b.canonical n.typeId)).isSome ∨ b.fallback ≠ .reject
  | .data => False

/-- A node names a variable that is defined. -/
def NamesDefined (b : TreeBuilder) (snapshot : BlackboardSnapshot) (n : Node) : Prop :=
  b.canonical n.typeId = TypeId.blackboardVariable ∧
    ∃ name scope, n.variableReference? = some (name, scope) ∧ snapshot.contains name scope

/-- What can be behind a slot: a variable that is defined, a constant, or the output of a node of
the tree that is not treated as a variable. -/
def Feeds (b : TreeBuilder) (g : Graph) (snapshot : BlackboardSnapshot) (n : Node) : Prop :=
  b.NamesDefined snapshot n ∨ b.canonical n.typeId = TypeId.constant ∨
    (b.canonical n.typeId ≠ TypeId.blackboardVariable ∧ n.kind ≠ .data ∧
      g.Reaches b.rootId n.id)

/-- Below the root there is a tree of nodes that can run, with sources that can feed their slots. -/
structure Buildable (b : TreeBuilder) (g : Graph) (feeds : Node → Prop) : Prop where
  root : ∃ n, g.node? b.rootId = some n ∧ n.children.length ≤ 1
  exist : ∀ id, g.Reaches b.rootId id → g.contains id = true
  listed_once : ∀ id, g.Reaches b.rootId id → (g.children id).Nodup
  one_parent : ∀ parent other child, g.Reaches b.rootId parent → g.Reaches b.rootId other →
    g.IsChild parent child → g.IsChild other child → parent = other
  acyclic : ∀ id, g.Reaches b.rootId id → ¬ TransGen g.IsChild id id
  performs : ∀ id n, g.Reaches b.rootId id → g.node? id = some n → b.Performs n
  fed : ∀ id, g.Reaches b.rootId id → ∀ c ∈ g.bindingsInto id, c.targetSlot.isSome →
    ∃ n, g.node? c.source = some n ∧ feeds n

variable {b : TreeBuilder} {g : Graph} {snapshot : BlackboardSnapshot} {n : Node}
  {found found' : Found}

/-! ## One node -/

theorem exists_fallbackHandler?_iff (typeId : String) :
    (∃ h, b.fallbackHandler? typeId = some h) ↔ b.fallback ≠ .reject := by
  unfold fallbackHandler?
  cases b.fallback <;> simp

theorem behavior_succeeds_iff : (∃ behavior, b.behavior n = .ok behavior) ↔ b.Performs n := by
  unfold behavior Performs
  cases n.kind with
  | root => exact iff_of_true ⟨_, rfl⟩ trivial
  | composite =>
    refine Iff.trans ?_ (Named.exists_ofName?_iff (α := CompositeKind))
    dsimp only
    cases Named.ofName? (α := CompositeKind) (b.canonical n.typeId) <;> simp
  | decorator =>
    simp only [guard_eq_ok, exists_and_left, not_not]
    refine and_congr_right fun _ => Iff.trans ?_ (Named.exists_ofName?_iff (α := DecoratorKind))
    cases Named.ofName? (α := DecoratorKind) (b.canonical n.typeId) <;> simp
  | condition =>
    dsimp only
    cases b.handlers.get? (b.canonical n.typeId) <;> simp
  | action =>
    dsimp only
    rw [← exists_fallbackHandler?_iff n.typeId]
    cases b.handlers.get? (b.canonical n.typeId) with
    | some h => simp
    | none => cases b.fallbackHandler? n.typeId <;> simp
  | data => simp

/-- A node feeds a slot exactly if it is a source, and a part of the tree where its output is the
source. -/
theorem feeds_iff : b.Feeds g snapshot n ↔ ∃ source, b.source snapshot n = .ok source ∧
    ∀ id, source = .output id → g.Reaches b.rootId id := by
  have apart : TypeId.constant ≠ TypeId.blackboardVariable := by decide
  unfold Feeds NamesDefined source
  by_cases isVariable : b.canonical n.typeId = TypeId.blackboardVariable
  · simp only [isVariable, apart.symm, if_true, true_and, ne_eq, not_true_eq_false, false_and,
      or_false]
    cases n.variableReference? with
    | none => simp
    | some reference =>
      obtain ⟨name, scope⟩ := reference
      by_cases defined : snapshot.contains name scope = true <;> simp [defined]
  · by_cases isConstant : b.canonical n.typeId = TypeId.constant
    · simp [isConstant, apart]
    · by_cases isData : n.kind = .data <;> simp [isVariable, isConstant, isData]

/-! ## The slots of one node -/

theorem slotSource_unnamed {c : Connection} (unnamed : c.targetSlot = none) :
    b.slotSource g snapshot n c = .ok none := by
  rw [slotSource, unnamed]

/-- A slot has a source if the connection comes from a node that is one. -/
theorem slotSource_eq_ok {c : Connection} {slot : String} (named : c.targetSlot = some slot)
    {entry : Option (String × ValueSource)} :
    b.slotSource g snapshot n c = .ok entry ↔ ∃ m source, g.node? c.source = some m ∧
      b.source snapshot m = .ok source ∧ entry = some (slot, source) := by
  unfold slotSource
  rw [named]
  cases g.node? c.source with
  | none => simp
  | some m => cases resolved : b.source snapshot m <;> simp [resolved, eq_comm]

/-- A connection comes from what can be behind a slot exactly if it has a source, and where that is
an output, the output of a node of the tree. -/
theorem slot_fed_iff {c : Connection} {slot : String} (named : c.targetSlot = some slot) :
    (∃ m, g.node? c.source = some m ∧ b.Feeds g snapshot m) ↔
      ∃ source, b.slotSource g snapshot n c = .ok (some (slot, source)) ∧
        ∀ id, source = .output id → g.Reaches b.rootId id := by
  simp only [slotSource_eq_ok named, feeds_iff]
  constructor
  · rintro ⟨m, is, source, resolved, reached⟩
    exact ⟨source, ⟨m, source, is, resolved, rfl⟩, reached⟩
  · rintro ⟨source, ⟨m, _, is, resolved, same⟩, reached⟩
    cases same
    exact ⟨m, is, source, resolved, reached⟩

theorem mem_of_slotSources {sources : List (String × ValueSource)}
    (fed : b.slotSources g snapshot n = .ok sources) {entry : String × ValueSource} :
    entry ∈ sources ↔
      ∃ c ∈ g.bindingsInto n.id, b.slotSource g snapshot n c = .ok (some entry) := by
  obtain ⟨entries, all, rfl⟩ := map_eq_ok.1 fed
  rw [← mem_of_mapM_eq_ok all]
  simp

theorem mem_outputUses {sources : List (String × ValueSource)} {use : OutputUse} :
    use ∈ outputUses n sources ↔ use.node = n.id ∧ (use.slot, .output use.source) ∈ sources := by
  obtain ⟨node, slot, source⟩ := use
  rw [outputUses, List.mem_filterMap]
  constructor
  · rintro ⟨⟨slot', source'⟩, member, uses⟩
    cases source' <;> simp only [reduceCtorEq, Option.some.injEq, OutputUse.mk.injEq] at uses
    obtain ⟨rfl, rfl, rfl⟩ := uses
    exact ⟨rfl, member⟩
  · rintro ⟨rfl, member⟩
    exact ⟨_, member, rfl⟩

/-- The slots of a node are fed exactly if their sources are found and the outputs among them are
those of nodes of the tree. -/
theorem fed_iff :
    (∀ c ∈ g.bindingsInto n.id, c.targetSlot.isSome →
        ∃ m, g.node? c.source = some m ∧ b.Feeds g snapshot m) ↔
      ∃ sources, b.slotSources g snapshot n = .ok sources ∧
        ∀ use ∈ outputUses n sources, g.Reaches b.rootId use.source := by
  constructor
  · intro each
    have resolves : ∀ c ∈ g.bindingsInto n.id, ∃ entry,
        b.slotSource g snapshot n c = .ok entry := by
      intro c into
      cases slot : c.targetSlot with
      | none => exact ⟨none, slotSource_unnamed slot⟩
      | some name =>
        obtain ⟨source, found, -⟩ := (slot_fed_iff slot).1 (each c into (slot ▸ rfl))
        exact ⟨_, found⟩
    obtain ⟨entries, all⟩ := exists_mapM_eq_ok.2 resolves
    have fed : b.slotSources g snapshot n = .ok (entries.filterMap id) :=
      map_eq_ok.2 ⟨entries, all, rfl⟩
    refine ⟨_, fed, fun use uses => ?_⟩
    obtain ⟨-, member⟩ := mem_outputUses.1 uses
    obtain ⟨c, into, found⟩ := (mem_of_slotSources fed).1 member
    cases slot : c.targetSlot with
    | none =>
      rw [slotSource_unnamed slot] at found
      cases found
    | some name =>
      obtain ⟨source, found', reached⟩ := (slot_fed_iff slot).1 (each c into (slot ▸ rfl))
      have same := found'.symm.trans found
      cases same
      exact reached use.source rfl
  · rintro ⟨sources, fed, reached⟩ c into slot
    obtain ⟨name, slot⟩ := Option.isSome_iff_exists.1 slot
    obtain ⟨entries, all, -⟩ := map_eq_ok.1 fed
    obtain ⟨entry, found⟩ := of_mapM_eq_ok all c into
    obtain ⟨-, source, -, -, rfl⟩ := (slotSource_eq_ok slot).1 found
    refine (slot_fed_iff slot).2 ⟨source, found, ?_⟩
    rintro id rfl
    have member : (name, ValueSource.output id) ∈ sources :=
      (mem_of_slotSources fed).2 ⟨c, into, found⟩
    exact reached ⟨n.id, name, id⟩ (mem_outputUses.2 ⟨rfl, member⟩)

/-! ## The outputs that are read -/

/-- A slot of a node reads an output. -/
def Reads (b : TreeBuilder) (g : Graph) (snapshot : BlackboardSnapshot) (id : String)
    (use : OutputUse) : Prop :=
  ∃ n sources, g.node? id = some n ∧ b.slotSources g snapshot n = .ok sources ∧
    use ∈ outputUses n sources

/-- What is noted while trees are compiled is what their nodes read. -/
def Notes (b : TreeBuilder) (g : Graph) (snapshot : BlackboardSnapshot)
    (trees : List (Tree CompiledNode)) (found found' : Found) : Prop :=
  ∀ use, use ∈ found'.outputUses ↔
    use ∈ found.outputUses ∨ ∃ c ∈ Tree.preorders trees, b.Reads g snapshot c.id use

theorem notes_of_compileAll
    {below : String → Found → Except BuildError (Tree CompiledNode × Found)}
    (each : ∀ id found tree found', below id found = .ok (tree, found') →
      b.Notes g snapshot [tree] found found')
    {ids : List String} {trees : List (Tree CompiledNode)}
    (all : compileAll below ids found = .ok (trees, found')) :
    b.Notes g snapshot trees found found' := by
  induction ids generalizing found trees with
  | nil =>
    cases all
    simp [Notes, Tree.preorders]
  | cons id ids ih =>
    obtain ⟨tree, between, rest, first, others, rfl⟩ := compileAll_cons_eq_ok.1 all
    intro use
    rw [ih others use, each _ _ _ _ first use, or_assoc]
    simp [Tree.preorders, or_and_right, exists_or]

/-- The walk notes the outputs that the nodes it meets read, and no other ones. -/
theorem notes_of_compileTree {fuel : Nat} {path : List String} {parent id : String}
    {tree : Tree CompiledNode}
    (compiles : compileTree b g snapshot fuel path parent id found = .ok (tree, found')) :
    b.Notes g snapshot [tree] found found' := by
  induction fuel generalizing path parent id found tree found' with
  | zero => cases compiles
  | succ fuel ih =>
    obtain ⟨n, c, between, children, entered, one, all, rfl⟩ := compileTree_succ_eq_ok.1 compiles
    obtain ⟨behavior, sources, -, fed, rfl, rfl⟩ := compileOne_eq_ok.1 one
    obtain ⟨-, -, is⟩ := enter_eq_ok.1 entered
    obtain rfl := Graph.id_of_node? is
    have below := notes_of_compileAll (fun _ _ _ _ compiles => ih compiles) all
    have here (use : OutputUse) : b.Reads g snapshot n.id use ↔ use ∈ outputUses n sources := by
      constructor
      · rintro ⟨n', sources', is', fed', uses⟩
        obtain rfl : n = n' := Option.some.inj (is.symm.trans is')
        obtain rfl : sources = sources' := Except.ok.inj (fed.symm.trans fed')
        exact uses
      · intro uses
        exact ⟨n, sources, is, fed, uses⟩
    intro use
    rw [below use, List.mem_append, or_assoc, ← here use]
    simp [Tree.preorders, Tree.preorder]

theorem checkOutputs_eq_ok :
    checkOutputs found = .ok () ↔ ∀ use ∈ found.outputUses, use.source ∈ found.met := by
  have missing : (found.outputUses.find? fun use => !found.met.contains use.source) = none ↔
      ∀ use ∈ found.outputUses, use.source ∈ found.met := by
    simp
  rw [← missing]
  unfold checkOutputs
  cases found.outputUses.find? fun use => !found.met.contains use.source <;> simp

/-! ## From a tree to its compilation -/

/-- Nothing that stands above an id or has been met is at the id or below it. -/
def Clear (g : Graph) (path : List String) (found : Found) (id : String) : Prop :=
  ∀ x, x ∈ path ∨ x ∈ found.met → ¬ g.Reaches id x

/-- Ids that have nothing in common below them are in nobody's way. -/
theorem compileAll_succeeds
    {below : String → Found → Except BuildError (Tree CompiledNode × Found)} {path : List String}
    {ids : List String}
    (each : ∀ id ∈ ids, ∀ found, Clear g path found id → ∃ tree found',
      below id found = .ok (tree, found') ∧ ∀ x ∈ found'.met, x ∈ found.met ∨ g.Reaches id x)
    (apart : ids.Pairwise fun a b => ∀ x, g.Reaches a x → ¬ g.Reaches b x)
    (clear : ∀ id ∈ ids, Clear g path found id) :
    ∃ trees found', compileAll below ids found = .ok (trees, found') ∧
      ∀ x ∈ found'.met, x ∈ found.met ∨ ∃ id ∈ ids, g.Reaches id x := by
  induction ids generalizing found with
  | nil => exact ⟨[], found, rfl, fun x met => .inl met⟩
  | cons id ids ih =>
    obtain ⟨one, others⟩ := List.forall_mem_cons.1 each
    obtain ⟨here, there⟩ := List.forall_mem_cons.1 clear
    obtain ⟨fromHere, apart⟩ := List.pairwise_cons.1 apart
    obtain ⟨tree, between, first, met⟩ := one found here
    -- What was met on the way is below the first id, and so not below the later ones.
    have still : ∀ a ∈ ids, Clear g path between a := by
      intro a member x before path
      rcases before with above | before
      · exact there a member x (.inl above) path
      · rcases met x before with before | below
        · exact there a member x (.inr before) path
        · exact fromHere a member x below path
    obtain ⟨trees, after, rest, met'⟩ := ih others apart still
    refine ⟨tree :: trees, after, compileAll_cons_eq_ok.2 ⟨_, _, _, first, rest, rfl⟩, ?_⟩
    intro x last
    rcases met' x last with before | ⟨a, member, path⟩
    · rcases met x before with before | path
      · exact .inl before
      · exact .inr ⟨id, List.mem_cons_self, path⟩
    · exact .inr ⟨a, List.mem_cons_of_mem _ member, path⟩

namespace Buildable

variable {feeds : Node → Prop} (buildable : b.Buildable g feeds)

include buildable

/-- Of two ids above a third one, one is above the other: going up there is one way only. -/
theorem above_or_above {a d x : String} (reachedA : g.Reaches b.rootId a)
    (reachedD : g.Reaches b.rootId d) (fromA : g.Reaches a x) (fromD : g.Reaches d x) :
    g.Reaches a d ∨ g.Reaches d a := by
  induction fromA with
  | refl => exact .inr fromD
  | @tail p x toP child ih =>
    cases fromD with
    | refl => exact .inl (toP.tail child)
    | @tail q _ toQ child' =>
      obtain rfl : p = q := buildable.one_parent p q x (reachedA.trans toP) (reachedD.trans toQ)
        child child'
      exact ih toQ

/-- Different children of a node are not above one another. -/
theorem not_reaches_sibling {id a d : String} (reached : g.Reaches b.rootId id)
    (childA : g.IsChild id a) (childD : g.IsChild id d) (ne : a ≠ d) : ¬ g.Reaches a d := by
  intro path
  cases path with
  | refl => exact ne rfl
  | @tail p _ toP child =>
    obtain rfl : p = id := buildable.one_parent p id d ((reached.tail childA).trans toP) reached
      child childD
    exact buildable.acyclic p reached (TransGen.head' childA toP)

/-- Below different children of a node there is nothing in common. -/
theorem apart {id : String} (reached : g.Reaches b.rootId id) :
    (g.children id).Pairwise fun a d => ∀ x, g.Reaches a x → ¬ g.Reaches d x := by
  apply (buildable.listed_once id reached).imp_of_mem
  intro a d childA childD ne x fromA fromD
  rcases buildable.above_or_above (reached.tail childA) (reached.tail childD) fromA fromD with
    path | path
  · exact buildable.not_reaches_sibling reached childA childD ne path
  · exact buildable.not_reaches_sibling reached childD childA ne.symm path

end Buildable

/-- The tree below an id is compiled if nothing of it has been met, and nothing else is met then. -/
theorem Buildable.compileTree_succeeds (buildable : b.Buildable g (b.Feeds g snapshot))
    {fuel : Nat} {path : List String} {parent id : String} (enough : g.offPath path < fuel)
    (reached : g.Reaches b.rootId id) (clear : Clear g path found id) :
    ∃ tree found', compileTree b g snapshot fuel path parent id found = .ok (tree, found') ∧
      ∀ x ∈ found'.met, x ∈ found.met ∨ g.Reaches id x := by
  induction fuel generalizing path parent id found with
  | zero => exact absurd enough (Nat.not_lt_zero _)
  | succ fuel ih =>
    obtain ⟨n, is⟩ := Graph.exists_node? (buildable.exist id reached)
    obtain rfl := Graph.id_of_node? is
    have entered : enter g path n.id parent found = .ok n :=
      enter_eq_ok.2 ⟨fun above => clear _ (.inl above) .refl, fun met => clear _ (.inr met) .refl, is⟩
    obtain ⟨behavior, known⟩ := behavior_succeeds_iff.2 (buildable.performs n.id n reached is)
    obtain ⟨sources, fed, -⟩ := fed_iff.1 (buildable.fed n.id reached)
    have one : compileOne b g snapshot n found = .ok (_, _) :=
      compileOne_eq_ok.2 ⟨behavior, sources, known, fed, rfl, rfl⟩
    have isChild : ∀ child ∈ n.children, g.IsChild n.id child :=
      fun child member => Graph.isChild_iff.2 ⟨n, is, member⟩
    have closer := offPath_of_enter entered
    -- Below a child there is neither the node itself, since that would be a cycle, nor anything
    -- that was not to be below the node.
    have clearBelow : ∀ child ∈ n.children, Clear g (n.id :: path)
        ⟨n.id :: found.met, found.outputUses ++ outputUses n sources⟩ child := by
      intro child member x before below
      have child := isChild child member
      have here : x ≠ n.id := by
        rintro rfl
        exact buildable.acyclic n.id reached (TransGen.head' child below)
      simp only [List.mem_cons, here, false_or] at before
      exact clear x before (below.head child)
    have each : ∀ child ∈ n.children, ∀ found, Clear g (n.id :: path) found child →
        ∃ tree found', compileTree b g snapshot fuel (n.id :: path) n.id child found =
          .ok (tree, found') ∧ ∀ x ∈ found'.met, x ∈ found.met ∨ g.Reaches child x := by
      intro child member found clear
      exact ih (by omega) (reached.tail (isChild child member)) clear
    have apart := buildable.apart reached
    rw [Graph.children_of_node? is] at apart
    obtain ⟨children, after, all, met⟩ := compileAll_succeeds each apart clearBelow
    refine ⟨_, after, compileTree_succ_eq_ok.2 ⟨n, _, _, children, entered, one, all, rfl⟩, ?_⟩
    intro x last
    rcases met x last with before | ⟨child, member, path⟩
    · rcases List.mem_cons.1 before with rfl | before
      · exact .inr .refl
      · exact .inl before
    · exact .inr (path.head (isChild child member))

/-! ## The whole tree -/

section Root

variable {fuel : Nat} {path : List String} {parent root : String} {tree : Tree CompiledNode}
  (compiles : compileTree b g snapshot fuel path parent root {} = .ok (tree, found))

include compiles

/-- The walk meets what is reached. -/
theorem met_iff {id : String} : id ∈ found.met ↔ g.Reaches root id := by
  let t : CompiledTree := ⟨tree, []⟩
  have compiled : Compiled b g snapshot [root] [t.root] {} found :=
    compiled_of_compileTree compiles
  rw [compiled.met_root, List.mem_reverse]
  exact compiled.order.mem_iff

/-- The walk notes the outputs that the nodes reached read. -/
theorem noted_iff {use : OutputUse} :
    use ∈ found.outputUses ↔ ∃ id, g.Reaches root id ∧ b.Reads g snapshot id use := by
  have met : found.met = (tree.preorder.map (·.id)).reverse := by
    simpa [Tree.preorders] using (compiled_of_compileTree compiles).met
  have notes := notes_of_compileTree compiles use
  simp only [List.not_mem_nil, false_or, Tree.preorders, List.append_nil] at notes
  simp only [notes, ← met_iff compiles, met, List.mem_reverse, List.mem_map]
  constructor
  · rintro ⟨c, member, reads⟩
    exact ⟨c.id, ⟨c, member, rfl⟩, reads⟩
  · rintro ⟨_, ⟨c, member, rfl⟩, reads⟩
    exact ⟨c, member, reads⟩

end Root

/-- What was compiled was a tree. -/
theorem buildable_of_build (built : ∃ t, b.build g snapshot = .ok t) :
    b.Buildable g (b.Feeds g snapshot) := by
  obtain ⟨t, built⟩ := built
  obtain ⟨root, found, isRoot, few, compiles, outputs, -⟩ := build_eq_ok_iff.1 built
  have compiled : Compiled b g snapshot [b.rootId] [t.root] {} found :=
    compiled_of_compileTree compiles
  have order := compiled.order
  have once := compiled.ids_nodup
  have visited {id : String} : g.Reaches b.rootId id → id ∈ t.ids := order.mem_iff.2
  refine ⟨⟨root, isRoot, few⟩, ?_, ?_, ?_, ?_, ?_, ?_⟩
  · intro id reached
    obtain ⟨n, -, is, -⟩ := compiled.exists_copy reached
    exact Graph.contains_of_node? is
  · intro id reached
    exact order.nodup_children once (visited reached)
  · intro parent other child reached reached' listed listed'
    exact order.one_parent once (visited reached) (visited reached') listed listed'
  · intro id reached
    exact order.acyclic once (visited reached)
  · intro id n reached is
    obtain ⟨n', s, is', copy⟩ := compiled.exists_copy reached
    obtain rfl : n = n' := Option.some.inj (is.symm.trans is')
    exact behavior_succeeds_iff.1 ⟨_, copy.behavior⟩
  · intro id reached
    obtain ⟨n, s, is, copy⟩ := compiled.exists_copy reached
    obtain rfl := Graph.id_of_node? is
    obtain ⟨sources, fed, -⟩ := copy.sources
    refine fed_iff.2 ⟨sources, fed, fun use uses => ?_⟩
    have noted := (noted_iff compiles).2 ⟨n.id, reached, n, sources, is, fed, uses⟩
    exact (met_iff compiles).1 (checkOutputs_eq_ok.1 outputs use noted)

/-- A tree is compiled. -/
theorem build_of_buildable (buildable : b.Buildable g (b.Feeds g snapshot)) :
    ∃ t, b.build g snapshot = .ok t := by
  obtain ⟨root, isRoot, few⟩ := buildable.root
  have enough : g.offPath [] < g.nodes.length + 1 := by
    rw [Graph.offPath_nil]
    exact Nat.lt_succ_self _
  have clear : Clear g [] {} b.rootId := by
    intro x before
    simp at before
  obtain ⟨tree, found, compiles, -⟩ := buildable.compileTree_succeeds enough .refl clear
  refine ⟨⟨tree, _⟩, build_eq_ok_iff.2 ⟨root, found, isRoot, few, compiles, ?_, rfl⟩⟩
  refine checkOutputs_eq_ok.2 fun use noted => ?_
  obtain ⟨id, reached, n, sources, is, fed, uses⟩ := (noted_iff compiles).1 noted
  obtain rfl := Graph.id_of_node? is
  obtain ⟨sources', fed', published⟩ := fed_iff.1 (buildable.fed n.id reached)
  obtain rfl : sources = sources' := Except.ok.inj (fed.symm.trans fed')
  exact (met_iff compiles).2 (published use uses)

/-- On every graph the compiler ends: the bound on its depth is never met, so that the walk is the
one without a bound. It succeeds exactly if there is a tree of nodes that can run below the root,
with something behind each slot that is connected. -/
theorem build_succeeds_iff (b : TreeBuilder) (g : Graph) (snapshot : BlackboardSnapshot) :
    (∀ bound parent id found, g.nodes.length < bound →
        compileTree b g snapshot bound [] parent id found =
          descend b g snapshot [] parent id found) ∧
      ((∃ t, b.build g snapshot = .ok t) ↔ b.Buildable g (b.Feeds g snapshot)) := by
  refine ⟨fun bound parent id found beyond => ?_, buildable_of_build, build_of_buildable⟩
  apply compileTree_eq_descend
  rw [Graph.offPath_nil]
  exact beyond

/-- A node of the tree that is treated as a variable is no output, though it runs: the slot that it
is connected to has nothing behind it. -/
theorem build_refuses_running_variable :
    let b : TreeBuilder := { fallback := .succeed }
    let node (id typeId : String) (kind : NodeKind) (children : List String) : Node :=
      ⟨id, .new typeId kind "", .empty, {}, children⟩
    let g : Graph := {
      nodes := [node "root" "root" .root ["all"],
        node "all" "sequence" .composite ["speed", "rest"],
        node "speed" TypeId.blackboardVariable .action [], node "rest" "wait" .action []]
      connections := [.toChild "root" "all", .toChild "all" "speed", .toChild "all" "rest",
        .toSlot "speed" "rest" "duration"] }
    let s : BlackboardSnapshot := ⟨.empty, .empty⟩
    b.Buildable g (fun n => b.NamesDefined s n ∨ b.canonical n.typeId = TypeId.constant ∨
        (n.kind ≠ .data ∧ g.Reaches b.rootId n.id)) ∧
      (b.build g s).map (·.excluded) =
        .error (.unresolvedBinding "rest" "duration" (.namesNoVariable "speed")) := by
  intro b node g s
  refine ⟨?_, by decide +kernel⟩
  -- Without the connection into the slot the graph is built, so that the rest is as it should be.
  let bare : Graph := { g with connections := [] }
  have runs : (b.build bare s).isOk = true := by decide +kernel
  have built : ∃ t, b.build bare s = .ok t := by
    cases compiled : b.build bare s with
    | error e =>
      rw [compiled] at runs
      cases runs
    | ok t => exact ⟨t, rfl⟩
  have shape := buildable_of_build built
  have below : g.IsChild b.rootId "all" := by
    show "all" ∈ g.children "root"
    decide +kernel
  have deeper : g.IsChild "all" "speed" := by
    show "speed" ∈ g.children "all"
    decide +kernel
  refine ⟨shape.root, shape.exist, shape.listed_once, shape.one_parent, shape.acyclic,
    shape.performs, fun id reached c into slot => ?_⟩
  have only : ∀ c ∈ g.connections, c.isChild = false → c.source = "speed" := by decide +kernel
  obtain ⟨member, kind⟩ := List.mem_filter.1 into
  rw [only c member (by simpa using (Bool.and_eq_true_iff.1 kind).1)]
  exact ⟨_, rfl, .inr (.inr ⟨by decide, .tail (.single below) deeper⟩)⟩

end TreeBuilder

end BehaviorTree
