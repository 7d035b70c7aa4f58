import BehaviorTree.Proofs.Compilation.Bindings
import BehaviorTree.Proofs.Execution.Containment

/-!
# What the nodes published last

The evaluations of a run begin one after the other, and a node that publishes a value does so before
the next one begins. Told in this order (`moments`), what a node finds among the outputs when its
evaluation begins is what each node has published last, since the run was reset
(`Executor.journal_outputs`). With the blackboard of that moment it reads its slots as its graph says
(`TreeBuilder.bindings_are_faithful`). These are all evaluations that there are: a trace has the same
ones, in the order in which they end (`perm_worlds_begun`).
-/

namespace BehaviorTree

variable {T : Type}

/-! ## Moments -/

/-- What befalls the outputs in a run. -/
inductive Moment where
  | reset
  /-- The evaluation of a node begins in a world. What the node itself publishes in it comes with
  it, for no other evaluation begins in between. -/
  | begun (node : CompiledNode) (world : World) (published : Option Value)

/-- What a node has published last, after some moments. -/
def lastPublished? (id : String) (moments : List Moment) : Option Value :=
  moments.foldl (fun last moment => match moment with
    | .reset => none
    | .begun n _ published => if n.id = id then published.or last else last) none

/-- The outputs after one more moment. -/
def Moment.after (outputs : Outputs) : Moment → Outputs
  | .reset => .empty
  | .begun _ _ none => outputs
  | .begun n _ (some value) => outputs.insert n.id value

def outputsAfter (outputs : Outputs) (moments : List Moment) : Outputs :=
  moments.foldl Moment.after outputs

/-- Each evaluation finds the outputs that the moments before it have left. -/
def Handed : Outputs → List Moment → Prop
  | _, [] => True
  | _, .reset :: later => Handed .empty later
  | outputs, .begun n w published :: later =>
    w.outputs = outputs ∧ Handed (Moment.after outputs (.begun n w published)) later

section Handed

variable {outputs : Outputs} {moments later : List Moment}

theorem outputsAfter_append (outputs : Outputs) (moments later : List Moment) :
    outputsAfter outputs (moments ++ later) = outputsAfter (outputsAfter outputs moments) later :=
  List.foldl_append

theorem handed_append : Handed outputs (moments ++ later) ↔
    Handed outputs moments ∧ Handed (outputsAfter outputs moments) later := by
  induction moments generalizing outputs with
  | nil => exact (iff_of_eq (true_and _)).symm
  | cons moment moments ih =>
    cases moment with
    | reset => exact ih
    | begun n w published => exact (and_congr_right fun _ => ih).trans and_assoc.symm

/-- The outputs that an evaluation finds. -/
theorem Handed.outputs_eq {n : CompiledNode} {w : World} {published : Option Value}
    (handed : Handed outputs (moments ++ .begun n w published :: later)) :
    w.outputs = outputsAfter outputs moments :=
  (handed_append.1 handed).2.1

/-- Where nothing was published at first, the outputs are what was published last. -/
theorem get?_outputsAfter (moments : List Moment) (id : String) :
    (outputsAfter .empty moments).get? id = lastPublished? id moments := by
  induction moments using List.reverseRecOn with
  | nil => rfl
  | append_singleton moments moment ih =>
    rw [outputsAfter_append, lastPublished?, List.foldl_append, ← lastPublished?]
    generalize outputsAfter .empty moments = outputs at ih
    match moment with
    | .reset => rfl
    | .begun n w none => simpa [outputsAfter, Moment.after] using ih
    | .begun n w (some value) =>
      by_cases here : n.id = id
      · subst here
        simp [outputsAfter, Moment.after]
      · simp only [outputsAfter, List.foldl_cons, List.foldl_nil, Moment.after, here, if_false]
        rw [Dict.get?_insert_of_ne _ (Ne.symm here), ih]

end Handed

/-! ## Evaluations -/

variable [Clock T]

/-- What a node publishes when it is evaluated in a world. -/
def published (time : TickTime T) (n : CompiledNode) (state : NodeState T) (w : World) :
    Option Value :=
  match n.behavior with
  | .handler h => (runLeaf time n h state w).2.output
  | _ => none

mutual

/-- The evaluations that begin when a tree is evaluated in a world, in the order in which they
do. -/
def begun (time : TickTime T) : LiveTree T → World → List Moment
  | .node ⟨n, state⟩ children, w =>
    .begun n w (published time n state w) ::
      match n.behavior, children with
      | .root, child :: _ => begun time child w
      | .composite kind, children => begunFrom time kind state.cursor 0 children w
      | .decorator kind, child :: _ =>
        match enterDecorator time kind n state w with
        | .proceed _ _ => begun time child w
        | _ => []
      | _, _ => []

/-- The evaluations that begin when the children of a composite are evaluated. -/
def begunFrom (time : TickTime T) (kind : CompositeKind) (cursor place : Nat) :
    List (LiveTree T) → World → List Moment
  | [], _ => []
  | child :: rest, w =>
    if place < cursor then begunFrom time kind cursor (place + 1) rest w
    else
      let (after, next) := evaluate time child w
      begun time child w ++
        if after.status = .running ∨ after.status = kind.settlesOn then []
        else begunFrom time kind cursor (place + 1) rest next

end

/-- Moments that lead from some outputs to others, each of them about one of some nodes. -/
structure Hands (nodes : List CompiledNode) (outputs : Outputs) (moments : List Moment)
    (outputs' : Outputs) : Prop where
  handed : Handed outputs moments
  after : outputs' = outputsAfter outputs moments
  within : ∀ n w published, .begun n w published ∈ moments → n ∈ nodes

section Hands

variable {nodes more : List CompiledNode} {first second third : Outputs}
  {moments later : List Moment}

theorem Hands.nil (same : second = first) : Hands nodes first [] second :=
  ⟨trivial, same, fun _ _ _ mem => nomatch mem⟩

theorem Hands.mono (hands : Hands nodes first moments second) (sub : nodes ⊆ more) :
    Hands more first moments second :=
  ⟨hands.handed, hands.after, fun n w published mem => sub (hands.within n w published mem)⟩

theorem Hands.append (one : Hands nodes first moments second) (two : Hands nodes second later third) :
    Hands nodes first (moments ++ later) third where
  handed := handed_append.2 ⟨one.handed, one.after ▸ two.handed⟩
  after := by rw [outputsAfter_append, ← one.after, two.after]
  within n w published mem :=
    (List.mem_append.1 mem).elim (one.within n w published) (two.within n w published)

/-- A node that publishes nothing by itself, and what begins below it. -/
theorem Hands.above {n : CompiledNode} {w : World} {published : Option Value}
    (silent : published = none) (below : Hands nodes w.outputs moments second) :
    Hands (n :: nodes) w.outputs (.begun n w published :: moments) second := by
  subst silent
  refine ⟨⟨rfl, below.handed⟩, below.after, fun m world published mem => ?_⟩
  rcases List.mem_cons.1 mem with same | mem
  · obtain ⟨rfl, -, -⟩ := Moment.begun.inj same
    exact List.mem_cons_self
  · exact List.mem_cons_of_mem _ (below.within m world published mem)

end Hands

theorem outputs_evaluateCondition (tick : Nat) (n : CompiledNode) (w : World) :
    (evaluateCondition tick n w).2.outputs = w.outputs := by
  unfold evaluateCondition
  split
  · split
    · rfl
    · dsimp only
      split <;> rfl
  · rfl

/-- A leaf puts what its handler publishes among the outputs. -/
theorem outputs_evaluateLeaf (time : TickTime T) {n : CompiledNode} {h : Handler}
    (is : n.behavior = .handler h) (state : NodeState T) (w : World) :
    (evaluateLeaf time n h state w).2.outputs =
      Moment.after w.outputs (.begun n w (published time n state w)) := by
  simp only [evaluateLeaf_eq, World.afterHandler, published, is]
  cases (runLeaf time n h state w).2.output <;> rfl

mutual

/-- An evaluation hands the outputs from each node to the next one. -/
theorem hands_evaluate (time : TickTime T) (t : LiveTree T) (w : World) :
    Hands (t.preorder.map (·.node)) w.outputs (begun time t w) (evaluate time t w).2.outputs := by
  match t with
  | .node ⟨n, state⟩ children =>
    have below {child : LiveTree T} {rest : List (LiveTree T)} :
        child.preorder.map (·.node) ⊆ (Tree.preorders (child :: rest)).map (·.node) := by
      rw [Tree.preorders, List.map_append]
      exact List.subset_append_left _ _
    unfold evaluate begun
    match is : n.behavior, children with
    | .root, [] => exact .above (by simp only [published, is]) (.nil rfl)
    | .root, child :: rest =>
      have first := hands_evaluate time child w
      exact .above (by simp only [published, is]) (first.mono below)
    | .composite kind, children =>
      exact .above (by simp only [published, is])
        (hands_evaluateFrom time kind state.cursor 0 children w)
    | .decorator kind, [] => exact .above (by simp only [published, is]) (.nil rfl)
    | .decorator kind, child :: rest =>
      have first := hands_evaluate time child w
      dsimp only
      cases enterDecorator time kind n state w with
      | refuse => exact .above (by simp only [published, is]) (.nil rfl)
      | cutShort state => exact .above (by simp only [published, is]) (.nil rfl)
      | proceed state limit => exact .above (by simp only [published, is]) (first.mono below)
    | .condition, children =>
      exact .above (by simp only [published, is]) (.nil (outputs_evaluateCondition ..))
    | .handler h, children =>
      refine ⟨⟨rfl, trivial⟩, outputs_evaluateLeaf time is state w, fun m world published mem => ?_⟩
      obtain ⟨rfl, -, -⟩ := Moment.begun.inj (List.mem_singleton.1 mem)
      exact List.mem_cons_self

theorem hands_evaluateFrom (time : TickTime T) (kind : CompositeKind) (cursor place : Nat)
    (children : List (LiveTree T)) (w : World) :
    Hands ((Tree.preorders children).map (·.node)) w.outputs
      (begunFrom time kind cursor place children w)
      (evaluateFrom time kind cursor place children w).2.2.2.outputs := by
  match children with
  | [] => exact .nil rfl
  | child :: rest =>
    have mine : child.preorder.map (·.node) ⊆ (Tree.preorders (child :: rest)).map (·.node) := by
      rw [Tree.preorders, List.map_append]
      exact List.subset_append_left _ _
    have others : (Tree.preorders rest).map (·.node) ⊆
        (Tree.preorders (child :: rest)).map (·.node) := by
      rw [Tree.preorders, List.map_append]
      exact List.subset_append_right _ _
    have first := (hands_evaluate time child w).mono mine
    have later (w : World) := (hands_evaluateFrom time kind cursor (place + 1) rest w).mono others
    simp only [evaluateFrom, begunFrom]
    by_cases before : place < cursor
    · simp only [if_pos before]
      exact later w
    simp only [if_neg before]
    by_cases running : (evaluate time child w).1.status = .running
    · simp only [running, true_or, if_true, List.append_nil]
      exact first
    by_cases settled : (evaluate time child w).1.status = kind.settlesOn
    · simp only [settled, kind.settlesOn_ne_running, or_true, if_true, if_false, List.append_nil]
      exact first
    simp only [running, settled, or_self, if_false]
    exact first.append (later _)

end

/-! ## None is left out -/

/-- The worlds in which the evaluations among some moments begin. -/
def worldsBegun (moments : List Moment) : List World :=
  moments.filterMap fun moment => match moment with
    | .reset => none
    | .begun _ w _ => some w

/-- The worlds in which the evaluations of a trace began. -/
def Trace.worlds (trace : Trace) : List World :=
  trace.filterMap fun entry => match entry.2 with
    | .evaluated w _ => some w
    | .cutShort => none

section Worlds

variable {trace : Trace} {moments later : List Moment} {n : CompiledNode} {w : World}
  {status : Status} {published : Option Value}

theorem worldsBegun_append : worldsBegun (moments ++ later) = worldsBegun moments ++ worldsBegun later :=
  List.filterMap_append

theorem Trace.worlds_append (trace trace' : Trace) :
    worlds (trace ++ trace') = trace.worlds ++ trace'.worlds :=
  List.filterMap_append

theorem Trace.worlds_below (place : Nat) (trace : Trace) :
    (trace.below place).worlds = trace.worlds := by
  rw [worlds, below, List.filterMap_map]
  rfl

omit [Clock T] in
theorem Trace.worlds_cuts (t : LiveTree T) : (cuts t).worlds = [] := by
  simp [worlds, cuts]

/-- A node begins before everything below it, and ends after it. -/
theorem perm_worlds_above (below : (worldsBegun moments).Perm trace.worlds) :
    (worldsBegun (.begun n w published :: moments)).Perm
      (Trace.worlds (trace ++ [([], .evaluated w status)])) := by
  rw [Trace.worlds_append]
  exact (below.cons w).trans (List.perm_append_singleton w _).symm

end Worlds

mutual

/-- The evaluations that begin are those that the trace tells of, in another order. -/
theorem perm_worlds_begun (time : TickTime T) (t : LiveTree T) (w : World) :
    (worldsBegun (begun time t w)).Perm (visits time t w).worlds := by
  match t with
  | .node ⟨n, state⟩ children =>
    unfold begun visits
    apply perm_worlds_above
    match n.behavior, children with
    | .root, [] => exact .nil
    | .root, child :: _ =>
      rw [Trace.worlds_below]
      exact perm_worlds_begun time child w
    | .composite kind, children => exact perm_worlds_begunFrom time kind state.cursor 0 children w
    | .decorator kind, [] => exact .nil
    | .decorator kind, child :: _ =>
      dsimp only
      cases enterDecorator time kind n state w with
      | refuse => exact .nil
      | cutShort state =>
        dsimp only
        rw [Trace.worlds_below, Trace.worlds_cuts]
        exact .nil
      | proceed state limit =>
        dsimp only
        rw [Trace.worlds_below]
        exact perm_worlds_begun time child w
    | .condition, _ => exact .nil
    | .handler _, _ => exact .nil

theorem perm_worlds_begunFrom (time : TickTime T) (kind : CompositeKind) (cursor place : Nat)
    (children : List (LiveTree T)) (w : World) :
    (worldsBegun (begunFrom time kind cursor place children w)).Perm
      (visitsFrom time kind cursor place children w).worlds := by
  match children with
  | [] => exact .nil
  | child :: rest =>
    simp only [begunFrom, visitsFrom]
    split
    · exact perm_worlds_begunFrom time kind cursor (place + 1) rest w
    · rw [worldsBegun_append, Trace.worlds_append, Trace.worlds_below]
      refine (perm_worlds_begun time child w).append ?_
      split
      · exact .nil
      · exact perm_worlds_begunFrom time kind cursor (place + 1) rest _

end

/-! ## Runs -/

/-- The moments of passes over a tree. -/
def moments : LiveTree T → List (Pass T) → List Moment
  | _, [] => []
  | t, .reset :: later => .reset :: moments t.reset later
  | t, .tick time w :: later => begun time t w ++ moments (evaluate time t w).1 later

theorem moments_append (t : LiveTree T) (passes later : List (Pass T)) :
    moments t (passes ++ later) = moments t passes ++ moments (replay t passes) later := by
  induction passes generalizing t with
  | nil => rfl
  | cons pass passes ih =>
    cases pass with
    | reset => exact congrArg _ (ih t.reset)
    | tick time w =>
      rw [List.cons_append, moments, moments, ih, List.append_assoc]
      rfl

namespace Executor

variable {e : Executor T} {passes : List (Pass T)} {o : Outcome T}

/-- Passes hand the outputs of an executor on. -/
def HandsOn (e : Executor T) (passes : List (Pass T)) (o : Outcome T) : Prop :=
  ∀ t, e.tree = some t → ∃ outputs,
    Hands t.compiled.preorder e.outputs (moments t passes) outputs ∧
      (o.executor.tree.isSome → o.executor.outputs = outputs)

theorem Makes.handsOn (makes : Makes e passes o) : e.HandsOn passes o := by
  induction makes with
  | @still e o config reports elapsed left =>
    refine fun t alive => ⟨e.outputs, .nil rfl, fun alive' => ?_⟩
    rcases left with dead | ⟨-, same⟩
    · rw [dead] at alive'
      cases alive'
    · exact same
  | reset alive config reports elapsed tree outputs =>
    refine fun t alive => ⟨.empty, ⟨trivial, rfl, ?_⟩, fun _ => outputs⟩
    intro n w published mem
    cases List.mem_singleton.1 mem
  | @tick e t alive delta s =>
    refine fun t' alive' => ⟨_, ?_, fun _ => rfl⟩
    obtain rfl := Option.some.inj (alive.symm.trans alive')
    have hands := hands_evaluate ⟨delta, Clock.add e.elapsed delta, e.tickCount + 1⟩ t
      { board := s.board.applyQueue.2, outputs := e.outputs, random := e.random }
    rw [LiveTree.compiled, Tree.preorder_map, pass, moments, moments, List.append_nil]
    exact hands
  | of_eq makes config tree elapsed outputs ih =>
    unfold HandsOn
    rw [tree, outputs]
    exact ih
  | @followedBy e first others o₁ o₂ one two ih₁ ih₂ =>
    intro t alive
    obtain ⟨between, here, kept⟩ := ih₁ t alive
    rw [moments_append]
    cases alive₁ : o₁.executor.tree with
    | none =>
      -- The tree was given up, and nothing follows.
      obtain ⟨rfl, -⟩ := two.follows.destroyed alive₁
      refine ⟨between, (List.append_nil (moments t first)).symm ▸ here, fun alive₂ => ?_⟩
      obtain ⟨t₂, alive₂⟩ := Option.isSome_iff_exists.1 alive₂
      obtain ⟨t₁, alive', -⟩ := two.follows.tree t₂ alive₂
      cases alive₁.symm.trans alive'
    | some t₁ =>
      obtain ⟨t', alive', rfl⟩ := one.follows.tree t₁ alive₁
      obtain rfl := Option.some.inj (alive.symm.trans alive')
      obtain ⟨outputs, there, kept'⟩ := ih₂ _ alive₁
      rw [compiled_replay, kept (by rw [alive₁]; rfl)] at there
      exact ⟨outputs, here.append there, kept'⟩

/-- The moments of a run of a compiled tree. -/
def journal (t : CompiledTree) (config : ExecutorConfig) (entropy : Nat) (s : SharedBlackboard)
    (calls : List (Call T)) : List Moment :=
  moments (.ofCompiled t.root) ((new t config entropy : Executor T).passes s calls)

/-- Each evaluation of a run is one of a node of the tree, which finds what each node has published
last. -/
theorem journal_outputs {t : CompiledTree} {config : ExecutorConfig} {entropy : Nat}
    {s : SharedBlackboard} {calls : List (Call T)} {before later : List Moment} {c : CompiledNode}
    {w : World} {published : Option Value}
    (here : journal t config entropy s calls = before ++ .begun c w published :: later) :
    c ∈ t.nodes ∧ ∀ id, w.outputs.get? id = lastPublished? id before := by
  obtain ⟨outputs, hands, -⟩ :=
    (makes_performAll (new t config entropy : Executor T) s calls).handsOn _ rfl
  have handed := hands.handed
  rw [← journal, here] at handed
  refine ⟨?_, fun id => ?_⟩
  · have within := hands.within c w published (by
      rw [← journal, here]
      exact List.mem_append_right _ List.mem_cons_self)
    rwa [LiveTree.compiled_ofCompiled] at within
  · rw [handed.outputs_eq]
    exact get?_outputsAfter before id

end Executor

/-! ## Reading slots -/

/-- A handler reads a slot on the blackboard as it is, with what it has published itself. -/
theorem HandlerM.property?_eq (slot : String) (context : HandlerContext) (state : HandlerState) :
    property? slot context state = (.ok (context.node.property? state.board
      (match state.output with
      | some value => context.outputs.insert context.node.id value
      | none => context.outputs) slot), state) := by
  obtain ⟨board, random, memory, output, logs, typeChanges⟩ := state
  cases output <;> rfl

namespace TreeBuilder

/-- What the nodes have published when the handler of one of them, which has published some value
or none, reads its slots. -/
def publishedBy (id : String) (own : Option Value) (before : List Moment) (other : String) :
    Option Value :=
  if other = id then own.or (lastPublished? other before) else lastPublished? other before

/-- Slots are bound as a graph says, and read so at all times. -/
structure FaithfullyBound (T : Type) [Clock T] (b : TreeBuilder) (g : Graph)
    (snapshot : BlackboardSnapshot) (t : CompiledTree) : Prop where
  bound : ∀ c ∈ t.nodes, ∃ n, g.node? c.id = some n ∧ b.Feeding g snapshot t.ids n c.bindings
  /-- In every run, a node reads its slots on the blackboard that it finds when its evaluation
  begins, with what was published last by then. Its handler reads them on the blackboard as it is by
  then, with what it has published itself. -/
  read : ∀ (config : ExecutorConfig) (entropy : Nat) (s : SharedBlackboard)
    (calls : List (Executor.Call T)) (before later : List Moment) (c : CompiledNode) (w : World)
    (published : Option Value),
    Executor.journal t config entropy s calls = before ++ .begun c w published :: later →
      ∃ n, g.node? c.id = some n ∧ c ∈ t.nodes ∧
        (∀ slot, w.property? c slot = b.reading g n w.board (lastPublished? · before) slot) ∧
        ∀ (context : HandlerContext) (state : HandlerState) (slot : String),
          context.node = c.toNodeInfo → context.outputs = w.outputs →
            HandlerM.property? slot context state =
              (.ok (b.reading g n state.board (publishedBy c.id state.output before) slot), state)

/-- The compiler binds slots as the graph says. -/
theorem bindings_are_faithful (T : Type) [Clock T] {b : TreeBuilder} {g : Graph}
    {snapshot : BlackboardSnapshot} {t : CompiledTree} (built : b.build g snapshot = .ok t) :
    b.FaithfullyBound T g snapshot t := by
  have fed := feeding_of_build built
  constructor
  case bound =>
    intro c member
    obtain ⟨n, is, -, feeding⟩ := fed c member
    exact ⟨n, is, feeding⟩
  case read =>
    intro config entropy s calls before later c w published here
    obtain ⟨member, last⟩ := Executor.journal_outputs here
    obtain ⟨n, is, same, feeding⟩ := fed c member
    have found : w.outputs.get? = (lastPublished? · before) := funext last
    refine ⟨n, is, member, fun slot => ?_, fun context state slot node outputs => ?_⟩
    · rw [World.property?, feeding.property?_eq same, found]
    · rw [HandlerM.property?_eq, node, outputs, feeding.property?_eq same]
      suffices published : Dict.get? _ = publishedBy c.id state.output before by rw [published]
      funext id
      rw [publishedBy]
      cases state.output with
      | none => simp [last]
      | some value =>
        by_cases here : id = c.id
        · subst here
          simp
        · rw [if_neg here, ← last]
          exact Dict.get?_insert_of_ne _ here _

/-- A counter of which the count is copied, and gathered with a constant and a variable. -/
def gatheringGraph : Graph :=
  let node (id typeId : String) (kind : NodeKind) (data : List (String × Value))
      (children : List String) : Node := ⟨id, .new typeId kind "", .ofList data, {}, children⟩
  let inputs : SlotDef := { name := "inputs", slotType := .any, multiple := true }
  { nodes := [node "root" "root" .root [] ["all"],
      node "all" "sequence" .composite [] ["bump", "copy", "gather"],
      node "bump" TypeId.increment .action [("key", .string "count")] [],
      node "copy" TypeId.setVariable .action [("key", .string "copy"), ("value", .null)] [],
      ⟨"gather", (NodeTemplate.new "gather" .action "Gather").withSlot inputs, .empty, {}, []⟩,
      node "one" TypeId.constant .data [("value", .number 1)] [],
      node "speed" TypeId.blackboardVariable .data [("variableName", .string "speed")] []]
    connections := [.toChild "root" "all", .toChild "all" "bump", .toChild "all" "copy",
      .toChild "all" "gather", .toSlot "bump" "copy" "value", .toSlot "speed" "gather" "inputs",
      .toSlot "bump" "gather" "inputs", .toSlot "one" "gather" "inputs"] }

/-- Before anything is published or written, the copy reads its configuration, and the gatherer the
constant alone. -/
example :
    let read (id slot : String) := (gatheringGraph.node? id).bind fun n =>
      reading {} gatheringGraph n {} (fun _ => none) slot
    read "copy" "value" = some .null ∧ read "gather" "inputs" = some (.array [.number 1]) := by
  decide +kernel

theorem bindings_are_faithful_gather :
    let b : TreeBuilder := { fallback := .succeed }
    let snapshot : BlackboardSnapshot :=
      { tree := .ofList [("speed", ⟨"speed", .tree, .number, .number 2⟩)] }
    ∃ t, b.build gatheringGraph snapshot = .ok t ∧
      b.FaithfullyBound Number gatheringGraph snapshot t := by
  intro b snapshot
  have runs : (b.build gatheringGraph snapshot).isOk = true := by decide +kernel
  cases built : b.build gatheringGraph snapshot with
  | error e =>
    rw [built] at runs
    cases runs
  | ok t => exact ⟨t, rfl, bindings_are_faithful Number built⟩

end TreeBuilder

end BehaviorTree
