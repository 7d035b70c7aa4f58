import BehaviorTree.Proofs.Execution.Containment

/-!
# Runs with contained errors

Executors that march together make the same passes over their trees (`Marches.passes_eq`). A tree
and the one with its handlers contained march together, so what they do can be compared tick by
tick (`errors_are_contained`): log lines, and the cap on them, have no effect on anything else.
-/

namespace BehaviorTree

open Executor

variable {T : Type} [Clock T]

/-! ## Passes of executors that march together -/

namespace Marches

variable {R : LiveTree T → LiveTree T → Prop} {P : TickReport T → TickReport T → Prop}
  {e e' : Executor T}

theorem duePasses_eq (marches : Marches R P) (twins : e.Twins R e') (count : Nat)
    (s : SharedBlackboard) : duePasses count e' s = duePasses count e s := by
  induction count generalizing e e' s with
  | zero => rfl
  | succ count ih =>
    rcases marches.due_twins twins s with
      ⟨t, t', alive, alive', due, due', first⟩ | ⟨early, early'⟩
    · rw [duePasses_due alive due, duePasses_due alive' due', first.shared, ih first.executor]
      refine congrArg (· :: _) ?_
      obtain ⟨tree', -, rfl⟩ := twins
      rfl
    · rw [duePasses_early early, duePasses_early early']

/-- Executors that march together make the same passes. -/
theorem callPasses_eq (marches : Marches R P) (twins : e.Twins R e') (s : SharedBlackboard)
    (c : Call T) : e'.callPasses s c = e.callPasses s c := by
  unfold callPasses
  rcases marches.call_twins twins s c with ⟨o, o', made, made', -⟩ | ⟨_, _, made, made'⟩
  · rw [made, made']
    cases c with
    | step =>
      have stepping : (e'.stepping s).pass (e'.stepping s).interval s =
          (e.stepping s).pass (e.stepping s).interval s := by
        obtain ⟨tree', -, same⟩ := marches.stepping_twins twins s
        rw [same]
        rfl
      obtain ⟨tree', -, rfl⟩ := twins
      exact congrArg (_ ++ [·]) stepping
    | update frameDelta =>
      have fed : (e.addFrame frameDelta).Twins R (e'.addFrame frameDelta) := by
        obtain ⟨tree', related, rfl⟩ := twins
        exact ⟨tree', related, rfl⟩
      have due := marches.duePasses_eq fed e.config.maxTicksPerUpdate s
      obtain ⟨tree', -, rfl⟩ := twins
      simp only [due]
    | tick delta =>
      obtain ⟨tree', -, rfl⟩ := twins
      rfl
    | _ => rfl
  · rw [made, made']

theorem passes_eq (marches : Marches R P) (twins : e.Twins R e') (s : SharedBlackboard)
    (calls : List (Call T)) : e'.passes s calls = e.passes s calls := by
  induction calls generalizing e e' s with
  | nil => rfl
  | cons c calls ih =>
    have first := marches.perform_twins twins s c
    rw [passes, passes, marches.callPasses_eq twins, first.shared, ih first.executor]

end Marches

/-! ## Runs with contained errors -/

namespace Containment

variable (c : Containment)

/-- A tick of a tree with its handlers contained. -/
def tick (tick : Tick T) : Tick T := { tick with tree := c.live tick.tree }

omit [Clock T] in
theorem quieter_refl (w : World) : World.Quieter [] w w := ⟨w.logs, rfl, .only_second w.logs⟩

theorem apply_live (t : LiveTree T) (time : TickTime T) (w : World) :
    (evaluate time (c.live t) w).1 = c.live (evaluate time t w).1 :=
  (evaluate_live c time t (quieter_refl w)).1

theorem ticks_live (t : LiveTree T) (passes : List (Pass T)) :
    ticks (c.live t) passes = (ticks t passes).map c.tick := by
  induction passes generalizing t with
  | nil => rfl
  | cons pass passes ih =>
    cases pass with
    | reset => rw [ticks, ticks, reset_live, ih]
    | tick time w =>
      rw [ticks, ticks, apply_live, ih]
      rfl

/-- Of what is reported, containment changes only log lines. -/
theorem marches : Marches (fun t t' : LiveTree T => t' = c.live t)
    (fun r r' => r' = { r with logs := r'.logs }) where
  reset {t t'} related := by
    rw [related, reset_live]
  tick {e e'} twins t t' related delta s := by
    obtain ⟨other, -, rfl⟩ := twins
    subst related
    obtain ⟨after, logs, world, -⟩ := evaluate_live c
      ⟨delta, Clock.add e.elapsed delta, e.tickCount + 1⟩ t
      (quieter_refl { board := s.board.applyQueue.2, outputs := e.outputs, random := e.random })
    simp only [Outcome.ofTick, tickTree, runTree, SharedBlackboard.transact, world]
    exact ⟨.cons rfl .nil, ⟨_, .some after, rfl⟩, rfl⟩

/-- The log lines of the faults that are contained in a tick. -/
def faultsOf (tick : Tick T) : List LogLine :=
  c.faults tick.time tick.tree (visits tick.time tick.tree tick.world)

end Containment

/-- In every run, a tree and the one with its handlers contained report the same, tick by tick, but
for log lines, and lead to the same executor, with the same states of all nodes, and the same
blackboard. In each tick, before the cap on log lines, the first one writes what the second one
writes, and in between one error line for each fault, in the order of these. -/
theorem errors_are_contained (c : Containment) (t : CompiledTree) (config : ExecutorConfig)
    (entropy : Nat) (s : SharedBlackboard) (calls : List (Call T)) :
    let e : Executor T := .new t config entropy
    let e' : Executor T := .new (c.tree t) config entropy
    let run := e.performAll s calls
    let run' := e'.performAll s calls
    let ticks := ticks (.ofCompiled t.root) (e.passes s calls)
    List.Forall₂ (fun r r' => r' = { r with logs := r'.logs }) run.reports run'.reports ∧
      run'.executor = { run.executor with tree := run.executor.tree.map c.live } ∧
      run'.shared = run.shared ∧
      List.Forall₂ (Executor.Reported config) ticks run.reports ∧
      List.Forall₂ (Executor.Reported config) (ticks.map c.tick) run'.reports ∧
      ∀ tick ∈ ticks,
        Interleaves (c.faultsOf tick) (c.tick tick).outcome.2.logs tick.outcome.2.logs := by
  intro e e' run run' ticks
  have begins : (LiveTree.ofCompiled (c.tree t).root : LiveTree T) =
      c.live (.ofCompiled t.root) := by
    rw [Containment.tree, Containment.live, LiveTree.ofCompiled, LiveTree.ofCompiled, Tree.map_map,
      Tree.map_map]
    rfl
  have twins : e.Twins (fun t t' => t' = c.live t) e' := ⟨_, .some begins, rfl⟩
  obtain ⟨reports, executor, shared⟩ := c.marches.performAll twins s calls
  have told := (follows_performAll e s calls).told _ rfl
  have told' := (follows_performAll e' s calls).told _ rfl
  rw [c.marches.passes_eq twins, begins, c.ticks_live] at told'
  refine ⟨reports, ?_, shared, told, told', fun tick mem => ?_⟩
  · obtain ⟨tree', related, same⟩ := executor
    have alike : tree' = run.executor.tree.map c.live := by
      generalize run.executor.tree = tree at related
      cases related with
      | none => rfl
      | some related => exact congrArg some related
    rw [← alike]
    exact same
  · obtain ⟨-, logs, world, lines⟩ :=
      evaluate_live c tick.time tick.tree (Containment.quieter_refl tick.world)
    show Interleaves _ (evaluate tick.time (c.live tick.tree) tick.world).2.logs _
    rw [world]
    exact lines

/-- The containment of all handlers. -/
def Containment.all : Containment where
  instead n := match n.behavior with
    | .handler h => some h.contained
    | _ => none
  contains {n h h'} is instead := by
    simp only [is] at instead
    obtain rfl := Option.some.inj instead
    exact h.contained_contains

/-- A selector that goes on to its last child after two faults. -/
def faultyTree : CompiledTree :=
  let compiled (id : String) (kind : NodeKind) (behavior : Behavior) : CompiledNode :=
    { id := id, typeId := id, kind := kind, config := .ofList [("message", .string "at last")],
      bindings := .empty, behavior := behavior }
  let leaf (id : String) (h : Handler) : Tree CompiledNode :=
    .node (compiled id .action (.handler h)) []
  ⟨.node (compiled "root" .root .root) [.node (compiled "choose" .composite (.composite .selector))
    [leaf "idle" (.static "lazy" .idle), leaf "set" .setVariable, leaf "log" .log]], []⟩

/-- An answer of idle and an error because a slot is missing. Each leaves one log line, and nothing
else tells the runs apart. -/
theorem errors_are_contained_faulty :
    let calls : List (Call Number) := [.start, .tick 1]
    let e : Executor Number := .new faultyTree {} 0
    let e' : Executor Number := .new (Containment.all.tree faultyTree) {} 0
    let faults : List LogLine :=
      [⟨1, "idle", .error, "Node 'idle' failed: handler 'lazy' returned idle"⟩,
        ⟨1, "set", .error, "Node 'set' requires the property 'key'"⟩]
    let line : LogLine := ⟨1, "log", .info, "at last"⟩
    (e.performAll {} calls).reports.map (fun r => (r.statuses, r.logs)) =
        [([("idle", .failure), ("set", .failure), ("log", .success), ("choose", .success),
          ("root", .success)], faults ++ [line])] ∧
      (e'.performAll {} calls).reports.map (·.logs) = [[line]] ∧
      (ticks (.ofCompiled faultyTree.root) (e.passes {} calls)).map Containment.all.faultsOf =
        [faults] ∧
      List.Forall₂ (fun r r' => r' = { r with logs := r'.logs }) (e.performAll {} calls).reports
        (e'.performAll {} calls).reports := by
  intro calls e e' faults line
  obtain ⟨reports, -⟩ := errors_are_contained Containment.all faultyTree {} 0 {} calls
  exact ⟨by decide +kernel, by decide +kernel, by decide +kernel, reports⟩

end BehaviorTree
