import BehaviorTree.Graph.Validity
import BehaviorTree.Proofs.Blackboard.Types
import BehaviorTree.Proofs.Execution.Passes
import BehaviorTree.Proofs.Handler.Actions
import BehaviorTree.Proofs.Value.Equality

/-!
# What a node stores, a condition finds

A leaf that writes a variable leaves the value on the blackboard (`evaluateLeaf_setVariable`), and a
condition that expects a value of the variable compares the two (`evaluateCondition_of_get?`). In a
sequence the child after one that succeeds is evaluated right after it, in the world that it leaves
(`Proceeds.results_eq_cons`). So a condition that expects what the child before it writes succeeds,
unless that is NaN or contains it, or is an infinite number (`stored_value_is_found`).
-/

namespace BehaviorTree

/-- A node names a variable and a value of it in its own configuration. -/
structure NodeInfo.Fixes (n : NodeInfo) (key : String) (scope : Scope) (value : Value) : Prop where
  unbound : ∀ slot ∈ ["key", "value", "scope"], n.bindings.get? slot = none
  key : n.config.get? "key" = some (.string key)
  value : (n.config.get? "value").getD .null = value
  scope : Node.scopeNamed (n.config.get? "scope") = scope

section Nodes

variable {n : CompiledNode} {key : String} {scope : Scope} {value found : Value}

/-- A slot without a binding has the value that is configured. -/
theorem NodeInfo.property?_of_unbound {n : NodeInfo} {slot : String}
    (unbound : n.bindings.get? slot = none) (board : Blackboard) (outputs : Outputs) :
    n.property? board outputs slot = n.config.get? slot := by
  rw [property?, unbound]
  rfl

theorem NodeInfo.Fixes.property? {n : NodeInfo} (fixes : n.Fixes key scope value) (slot : String)
    (listed : slot ∈ ["key", "value", "scope"]) (board : Blackboard) (outputs : Outputs) :
    n.property? board outputs slot = n.config.get? slot :=
  property?_of_unbound (fixes.unbound slot listed) board outputs

/-- A variable that was written has the value that was written. -/
theorem Blackboard.get?_set_self (b : Blackboard) (name : String) (value : Value) (scope : Scope) :
    (b.set name value scope).2.get? name scope = some value := by
  rw [get?]
  cases found : b.find? name scope with
  | none =>
    rw [set, found]
    dsimp only
    rw [find?_raise, find?_store, if_pos ⟨rfl, rfl⟩]
    rfl
  | some v =>
    rw [find?_set_self found]
    rfl

namespace HandlerM

variable {context : HandlerContext} (fixes : context.node.Fixes key scope value)
  (state : HandlerState)

include fixes

theorem property?_of_fixes (slot : String) (listed : slot ∈ ["key", "value", "scope"]) :
    property? slot context state = (.ok (context.node.config.get? slot), state) := by
  obtain ⟨board, random, memory, output, logs, typeChanges⟩ := state
  cases output with
  | none => exact Prod.ext (congrArg Except.ok (fixes.property? slot listed ..)) rfl
  | some value => exact Prod.ext (congrArg Except.ok (fixes.property? slot listed ..)) rfl

theorem string_of_fixes : string "key" context state = (.ok key, state) := by
  have found := property?_of_fixes fixes state "key" (by decide)
  rw [fixes.key] at found
  have required : require "key" context state = (.ok (.string key), state) := by
    rw [require, bind_apply, found]
    rfl
  rw [string, bind_apply, required]
  rfl

theorem scope_of_fixes : HandlerM.scope context state = (.ok scope, state) := by
  rw [HandlerM.scope, bind_apply, property?_of_fixes fixes state _ (by decide), ← fixes.scope]
  rfl

variable (context) in
/-- The handler writes the variable and succeeds. -/
theorem tick_setVariable :
    ∃ after, Handler.setVariable.tick context state = (.ok .success, after) ∧
      after.board = (state.board.set key value scope).2 := by
  rw [Handler.setVariable]
  dsimp only
  rw [bind_apply, string_of_fixes fixes]
  dsimp only
  rw [bind_apply, property?_of_fixes fixes state _ (by decide)]
  dsimp only
  rw [bind_apply, scope_of_fixes fixes, fixes.value]
  exact ⟨_, rfl, rfl⟩

end HandlerM

variable {T : Type} [Clock T] {time : TickTime T}

/-- A leaf that writes a variable succeeds, and the variable has the value. -/
theorem evaluateLeaf_setVariable (fixes : n.Fixes key scope value) (state : NodeState T)
    (w : World) :
    let after := evaluateLeaf time n Handler.setVariable state w
    after.1.status = .success ∧ after.2.board.get? key scope = some value := by
  intro after
  let runningTime := if state.running then Clock.add state.runningTime time.delta else time.delta
  obtain ⟨ended, ran, wrote⟩ := HandlerM.tick_setVariable
    { node := n.toNodeInfo, outputs := w.outputs, deltaTime := Clock.toNumber time.delta,
      runningTime := Clock.toNumber runningTime,
      hasRunFor := fun duration => Clock.reaches runningTime (Clock.ofNumber duration),
      tick := time.tick } fixes ⟨w.board, w.random, state.memory, none, [], []⟩
  have does : after.1.status = .success ∧ after.2.board = ended.board := by
    simp only [after, evaluateLeaf, Handler.run]
    rw [ran]
    exact ⟨rfl, rfl⟩
  refine ⟨does.1, ?_⟩
  rw [does.2, wrote]
  exact Blackboard.get?_set_self ..

/-- A condition compares the variable with the value that it expects. -/
theorem evaluateCondition_of_get? (fixes : n.Fixes key scope value) (nonempty : key ≠ "")
    (tick : Nat) {w : World} (is : w.board.get? key scope = some found) :
    (evaluateCondition tick n w).1 = .ofBool (found.looselyEq value) := by
  have named : key.isEmpty = false := by simpa using nonempty
  rw [evaluateCondition]
  simp only [World.property?, fixes.property? "key" (by decide),
    fixes.property? "value" (by decide), fixes.property? "scope" (by decide), fixes.key,
    fixes.value, fixes.scope, named, is, Bool.false_eq_true, if_false]

/-- Evaluating a leaf that writes a variable. -/
theorem evaluate_of_sets (sets : n.behavior = .handler Handler.setVariable)
    (fixes : n.Fixes key scope value) (state : NodeState T) (children : List (LiveTree T))
    (w : World) :
    let after := evaluate time (.node ⟨n, state⟩ children) w
    after.1.status = .success ∧ after.2.board.get? key scope = some value := by
  rw [evaluate_of_handler sets]
  exact evaluateLeaf_setVariable fixes state w

/-- Evaluating a condition on a variable that is defined. -/
theorem evaluate_of_checks (checks : n.behavior = .condition) (fixes : n.Fixes key scope value)
    (nonempty : key ≠ "") (state : NodeState T) (children : List (LiveTree T)) {w : World}
    (is : w.board.get? key scope = some found) :
    (evaluate time (.node ⟨n, state⟩ children) w).1.status = .ofBool (found.looselyEq value) := by
  have evaluated : evaluate time (.node ⟨n, state⟩ children) w =
      finish n state (evaluateCondition time.tick n w).1 children
        (evaluateCondition time.tick n w).2 :=
    (evaluate.eq_def ..).trans (by simp only [checks])
  rw [evaluated]
  exact evaluateCondition_of_get? fixes nonempty time.tick is

end Nodes

/-! ## One child after the other -/

section Sequence

variable {T : Type} [Clock T] {time : TickTime T} {kind : CompositeKind} {cursor place next : Nat}
  {child : LiveTree T} {children children' rest : List (LiveTree T)} {w w' : World}
  {status : Status} {trace : Trace}

theorem mem_results_visits {i : Nat} :
    i ∈ ((visits time child w).below place).results.map (·.1) ↔ i = place := by
  rw [results_visits]
  exact List.mem_singleton

/-- The first child that is not behind the cursor is evaluated first. -/
theorem Proceeds.results_eq_cons
    (did : Proceeds time kind cursor place (child :: rest) w status next children' w' trace)
    (reached : cursor ≤ place) :
    ∃ later, trace.results = (place, (evaluate time child w).1.status) :: later := by
  cases did with
  | skipped before => exact absurd reached (Nat.not_le.2 before)
  | running | settled => exact ⟨[], results_visits ..⟩
  | passed => exact ⟨_, by rw [Trace.results_append, results_visits]; rfl⟩

/-- Only children from the place on give results. -/
theorem Proceeds.le_of_mem_results
    (did : Proceeds time kind cursor place children w status next children' w' trace) {i : Nat}
    (mem : i ∈ trace.results.map (·.1)) : place ≤ i := by
  induction did with
  | ended => cases mem
  | skipped before later ih => exact Nat.le_of_succ_le (ih mem)
  | running reached runs | settled reached settles => exact (mem_results_visits.1 mem).ge
  | passed reached ends unsettled later ih =>
    rw [Trace.results_append, List.map_append] at mem
    rcases List.mem_append.1 mem with here | there
    · exact (mem_results_visits.1 here).ge
    · exact Nat.le_of_succ_le (ih there)

end Sequence

variable {T : Type} [Clock T]

/-- Whatever the world, one tree does something after which another one gives a status. -/
def Gives (time : TickTime T) (first second : LiveTree T) (status : Status) : Prop :=
  ∀ w, (evaluate time first w).1.status = .success ∧
    (evaluate time second (evaluate time first w).2).1.status = status

section Gives

variable {time : TickTime T} {cursor place next j : Nat} {first second : LiveTree T}
  {children children' : List (LiveTree T)} {w w' : World} {status given : Status} {trace : Trace}

/-- In a sequence the second one of two such children is evaluated whenever the first one is, and
right after it. -/
theorem Proceeds.results_of_gives (gives : Gives time first second given)
    (did : Proceeds time .sequence cursor place children w status next children' w' trace)
    (at_ : children[j]? = some first) (after : children[j + 1]? = some second)
    (evaluated : place + j ∈ trace.results.map (·.1)) :
    ∃ before later, trace.results =
      before ++ (place + j, .success) :: (place + j + 1, given) :: later := by
  induction did generalizing j with
  | ended => cases at_
  | skipped before later ih =>
    cases j with
    | zero => exact absurd (later.le_of_mem_results evaluated) (Nat.not_succ_le_self _)
    | succ j =>
      rw [← Nat.succ_add_eq_add_succ] at evaluated ⊢
      exact ih at_ after evaluated
  | @running place child rest w reached stops | @settled place child rest w reached stops =>
    -- The last child that is evaluated does not succeed, so it is not the first of the two.
    obtain rfl : j = 0 := Nat.add_eq_left.1 (mem_results_visits.1 evaluated)
    obtain rfl := Option.some.inj at_
    exact absurd ((gives w).1.symm.trans stops) (by decide)
  | @passed place next child rest rest' w w' status trace reached ends unsettled later ih =>
    rw [Trace.results_append] at evaluated ⊢
    cases j with
    | zero =>
      obtain rfl := Option.some.inj at_
      obtain ⟨_, others, rfl⟩ : ∃ c others, rest = c :: others := by
        cases rest with
        | nil => cases after
        | cons c others => exact ⟨c, others, rfl⟩
      obtain rfl := Option.some.inj after
      obtain ⟨more, results⟩ := later.results_eq_cons (Nat.le_succ_of_le reached)
      exact ⟨[], more, by rw [results_visits, results, (gives w).1, (gives w).2]; rfl⟩
    | succ j =>
      rw [List.map_append] at evaluated
      have there := (List.mem_append.1 evaluated).resolve_left fun here =>
        Nat.succ_ne_zero j (Nat.add_eq_left.1 (mem_results_visits.1 here))
      rw [← Nat.succ_add_eq_add_succ] at there ⊢
      obtain ⟨before, more, results⟩ := ih at_ after there
      exact ⟨_, more, by rw [results, List.append_assoc]⟩

end Gives

/-- A leaf that writes a variable and a condition that expects the value. -/
theorem gives_of_fixes {setter check : LiveTree T} {key : String} {scope : Scope} {value : Value}
    (sets : setter.label.node.behavior = .handler Handler.setVariable)
    (checks : check.label.node.behavior = .condition)
    (fixes : setter.label.node.Fixes key scope value)
    (fixes' : check.label.node.Fixes key scope value) (nonempty : key ≠ "")
    (real : ∀ x ∈ value.numbers, x.isNaN = false) (time : TickTime T) :
    Gives time setter check (if value.isInfinite then .failure else .success) := by
  intro w
  obtain ⟨⟨n, state⟩, children⟩ := setter
  obtain ⟨⟨n', state'⟩, children'⟩ := check
  obtain ⟨success, written⟩ := evaluate_of_sets (n := n) sets fixes state children w
  refine ⟨success, (evaluate_of_checks (n := n') checks fixes' nonempty state' _ written).trans ?_⟩
  rw [Value.looselyEq_self real]
  cases value.isInfinite <;> rfl

/-- What an evaluation of a sequence gives, where one child succeeds and another one comes after
it. -/
theorem results_of_gives {n : CompiledNode} (is : n.behavior = .composite .sequence)
    {time : TickTime T} {i : Nat} {first second : LiveTree T} {given : Status}
    (gives : Gives time first second given) {children : List (LiveTree T)}
    (at_ : children[i]? = some first) (after : children[i + 1]? = some second)
    (state : NodeState T) (w : World) :
    let e := Evaluation.of time (.node ⟨n, state⟩ children) w
    i ∈ e.children.map (·.1) →
      ∃ before later, e.children = before ++ (i, .success) :: (i + 1, given) :: later := by
  intro e
  obtain ⟨state', status, children', w', trace, did, -, traced⟩ := acts time n state children w
  cases did with
  | @composite kind next status children children' w' trace is' proceeds =>
    obtain rfl : kind = .sequence := by simpa [is] using is'.symm
    have results : e.children = trace.results := by
      show Trace.results (visits time (.node ⟨n, state⟩ children) w) = _
      rw [traced, Trace.results_append, Trace.results_self, List.append_nil]
    rw [results, ← Nat.zero_add i]
    exact proceeds.results_of_gives gives at_ after
  | _ => simp_all

/-- What a node stores, a condition finds: in every run of every compiled tree, where a child of a
sequence writes a variable and the next one expects the value, the second one is evaluated right
after the first one whenever that is, and succeeds unless the value is an infinite number. -/
theorem stored_value_is_found {t : CompiledTree} {path : List Nat} {node : Tree CompiledNode}
    (at_ : t.root.at? path = some node) (is : node.label.behavior = .composite .sequence)
    {i : Nat} {setter check : Tree CompiledNode} (first : node.children[i]? = some setter)
    (second : node.children[i + 1]? = some check)
    (sets : setter.label.behavior = .handler Handler.setVariable)
    (checks : check.label.behavior = .condition) {key : String} {scope : Scope} {value : Value}
    (fixes : setter.label.Fixes key scope value) (fixes' : check.label.Fixes key scope value)
    (nonempty : key ≠ "") (real : ∀ x ∈ value.numbers, x.isNaN = false)
    (config : ExecutorConfig) (entropy : Nat) (s : SharedBlackboard)
    (calls : List (Executor.Call T)) (e : Evaluation T)
    (evaluated : .evaluated e ∈ Executor.history t config entropy s calls path)
    (reached : i ∈ e.children.map (·.1)) :
    ∃ before later, e.children = before ++ (i, .success) ::
      (i + 1, if value.isInfinite then .failure else .success) :: later := by
  obtain ⟨place, happens⟩ := List.getElem?_of_mem evaluated
  refine evaluated_induction (P := fun _ _ => True) (Q := fun _ e => i ∈ e.children.map (·.1) →
    ∃ before later, e.children = before ++ (i, .success) ::
      (i + 1, if value.isInfinite then .failure else .success) :: later)
    at_ trivial ?_ _ place e happens reached
  rintro _ ⟨⟨n, state⟩, children⟩ rfl - time w
  simp only [LiveTree.children_compiled, List.getElem?_map, Option.map_eq_some_iff] at first second
  obtain ⟨setter, at_i, rfl⟩ := first
  obtain ⟨check, after, rfl⟩ := second
  rw [LiveTree.label_compiled] at sets checks fixes fixes'
  have gives := gives_of_fixes sets checks fixes fixes' nonempty real time
  exact ⟨results_of_gives is gives at_i after state w, trivial⟩

/-- Below a wait, an array with null, both zeros and an infinite number inside is stored and found. -/
theorem stored_value_is_found_nested :
    let value := Value.array [.null, .number 0, .object [("edge", .number Number.negativeInfinity)],
      .number (Number.ofParts true 0)]
    let data := Dict.ofList
      [("key", .string "seen"), ("value", value), ("scope", .string "global")]
    let node (id typeId : String) (kind : NodeKind) (data : Dict Value) (behavior : Behavior)
        (children : List (Tree CompiledNode)) : Tree CompiledNode :=
      .node ⟨⟨id, typeId, kind, data, .empty⟩, behavior⟩ children
    let list := node "list" "sequence" .composite .empty (.composite .sequence)
      [node "wait" "wait" .action (.ofList [("duration", .number 2)]) (.handler .wait) [],
        node "set" "set-variable" .action data (.handler .setVariable) [],
        node "check" "check-blackboard" .condition data .condition []]
    let t : CompiledTree := ⟨node "root" "root" .root .empty .root [list], []⟩
    let calls : List (Executor.Call Number) := [.start, .tick 1, .tick 1]
    let history := Executor.history t {} 0 {} calls [0]
    history.map Event.results? = [none, some ([(0, .running)], .running),
      some ([(0, .success), (1, .success), (2, .success)], .success)] ∧
    ∀ e, .evaluated e ∈ history → 1 ∈ e.children.map (·.1) → ∃ before later,
      e.children = before ++ (1, .success) :: (2, .success) :: later := by
  intro value data node list t calls history
  have fixes (n : CompiledNode) (is : n.config = data) (bare : n.bindings = .empty) :
      n.Fixes "seen" .project value :=
    ⟨by rw [bare]; decide, by rw [is]; decide +kernel, by rw [is]; decide +kernel,
      by rw [is]; decide +kernel⟩
  have at_ : t.root.at? [0] = some list := rfl
  refine ⟨by decide +kernel, fun e evaluated reached => ?_⟩
  exact stored_value_is_found at_ rfl rfl rfl rfl rfl
    (fixes _ rfl rfl) (fixes _ rfl rfl) (by decide) (by decide +kernel) {} 0 {} calls e evaluated
    reached

/-- An infinite number is stored and not found: the sequence fails. -/
theorem infinite_value_is_missed :
    let node (id typeId : String) (kind : NodeKind) (data : Dict Value)
        (children : List String) : Node :=
      ⟨id, .new typeId kind "", data, {}, children⟩
    let data := Dict.ofList [("key", .string "seen"), ("value", .number Number.infinity)]
    let nodes := [node "root" "root" .root .empty ["list"],
      node "list" "sequence" .composite .empty ["set", "check"],
      node "set" "set-variable" .action data [], node "check" "check-blackboard" .condition data []]
    let g : Graph := { nodes := nodes, connections := [.toChild "root" "list",
      .toChild "list" "set", .toChild "list" "check"] }
    let calls : List (Executor.Call Number) := [.start, .tick 1]
    g.validate = .ok () ∧ Number.infinity.isNaN = false ∧
      ∃ t, ({} : TreeBuilder).build g ⟨.empty, .empty⟩ = .ok t ∧
        (Executor.history t {} 0 {} calls [0]).map Event.results? =
          [none, some ([(0, .success), (1, .failure)], .failure)] := by
  intro node data nodes g calls
  have shown : (({} : TreeBuilder).build g ⟨.empty, .empty⟩).toOption.map (fun t =>
      (Executor.history t {} 0 {} calls [0]).map Event.results?) =
        some [none, some ([(0, .success), (1, .failure)], .failure)] := by
    decide +kernel
  refine ⟨by decide +kernel, by decide, ?_⟩
  cases built : ({} : TreeBuilder).build g ⟨.empty, .empty⟩ with
  | error e => rw [built] at shown; cases shown
  | ok t =>
    rw [built] at shown
    exact ⟨t, rfl, Option.some.inj shown⟩

end BehaviorTree
