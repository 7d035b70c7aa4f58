import BehaviorTree.Proofs.Execution.Visits

/-!
# What happens to a node in a run

A run makes passes over the tree of an executor: it resets the tree, or a tick evaluates it in some
world. These passes are all that becomes of the tree (`Executor.follows_performAll`). In each of
them one thing happens to the node at a path: it is left alone, it is cleared by a reset or by a
timeout above it, or it is evaluated (`Pass.happens`), and what one such event keeps, a run keeps
(`events_induction`).

A node that is evaluated again and again until it no longer runs has a history: `pending` are its
evaluations since it last ended or was cleared.
-/

namespace BehaviorTree

/-! ## Events -/

/-- A pass over a tree. -/
inductive Pass (T : Type) where
  | reset
  /-- An evaluation of the whole tree in a world. -/
  | tick (time : TickTime T) (w : World)

/-- An evaluation of a node. -/
structure Evaluation (T : Type) where
  time : TickTime T
  /-- The world in which it began. -/
  world : World
  /-- The children that were evaluated, by their places, and the statuses that they gave. -/
  children : List (Nat × Status)
  status : Status

/-- What happens to a node in a pass. -/
inductive Event (T : Type) where
  | left
  /-- It is back at the beginning of a run. -/
  | cleared
  | evaluated (e : Evaluation T)

variable {T : Type}

/-- What the children gave in an evaluation, and its own status. -/
def Event.results? : Event T → Option (List (Nat × Status) × Status)
  | evaluated e => some (e.children, e.status)
  | _ => none

/-- The status that is reported of a node, if it takes part. -/
def Event.status? : Event T → Option Status
  | left => none
  | cleared => some .idle
  | evaluated e => some e.status

/-- What a trace of a subtree says about its root. -/
def Event.ofTrace (time : TickTime T) (trace : Trace) : Event T :=
  match trace.own with
  | [] => .left
  | .cutShort :: _ => .cleared
  | .evaluated w status :: _ => .evaluated ⟨time, w, trace.results, status⟩

theorem Event.status?_ofTrace (time : TickTime T) (trace : Trace) :
    (ofTrace time trace).status? = trace.own.head?.map Part.status := by
  rw [ofTrace]
  split <;> simp_all [status?, Part.status]

/-! ## Evaluations that are pending -/

/-- The evaluations that a node is in the middle of, after one more event. -/
def Event.after (earlier : List (Evaluation T)) : Event T → List (Evaluation T)
  | left => earlier
  | cleared => []
  | evaluated e => if e.status = .running then earlier ++ [e] else []

/-- The evaluations of a node since it last ended or was cleared. -/
def pending (events : List (Event T)) : List (Evaluation T) := events.foldl Event.after []

@[simp]
theorem pending_append_singleton (events : List (Event T)) (event : Event T) :
    pending (events ++ [event]) = event.after (pending events) := by
  rw [pending, List.foldl_append]
  rfl

/-- What is pending has happened. -/
theorem evaluated_mem_of_mem_pending {events : List (Event T)} {e : Evaluation T}
    (mem : e ∈ pending events) : .evaluated e ∈ events := by
  induction events using List.reverseRecOn with
  | nil => cases mem
  | append_singleton events event ih =>
    rw [pending_append_singleton] at mem
    cases event with
    | left => exact List.mem_append_left _ (ih mem)
    | cleared => cases mem
    | evaluated now =>
      rw [Event.after] at mem
      split_ifs at mem
      · rcases List.mem_append.1 mem with mem | mem
        · exact List.mem_append_left _ (ih mem)
        · rw [List.mem_singleton.1 mem]
          exact List.mem_append_right _ List.mem_cons_self
      · cases mem

/-- What all evaluations together have given. -/
def resultsOf (evaluations : List (Evaluation T)) : List (Nat × Status) :=
  evaluations.flatMap (·.children)

theorem resultsOf_append (earlier : List (Evaluation T)) (e : Evaluation T) :
    resultsOf (earlier ++ [e]) = resultsOf earlier ++ e.children := by
  rw [resultsOf, List.flatMap_append, List.flatMap_singleton]
  rfl

variable [Clock T]

/-! ## Passes over a tree -/

namespace Pass

def apply : Pass T → LiveTree T → LiveTree T
  | reset, t => t.reset
  | tick time w, t => (evaluate time t w).1

/-- The time of a pass. A reset takes the time back to the beginning. -/
def time : Pass T → TickTime T
  | reset => ⟨Clock.zero, Clock.zero, 0⟩
  | tick time _ => time

/-- The nodes that take part in a pass. -/
def trace : Pass T → LiveTree T → Trace
  | reset, t => cuts t
  | tick time w, t => visits time t w

/-- What happens in a pass to the node at a path. -/
def event (pass : Pass T) (path : List Nat) (t : LiveTree T) : Event T :=
  .ofTrace pass.time ((pass.trace t).inside path)

/-- What a tick reports: its number, the time and the statuses. -/
def shown : Pass T → LiveTree T → Option (Nat × T × List (String × Status))
  | reset, _ => none
  | tick time w, t => some (time.tick, time.now, (evaluate time t w).2.visited)

def isTick : Pass T → Bool
  | reset => false
  | tick _ _ => true

end Pass

/-- The tree after passes. -/
def replay (t : LiveTree T) (passes : List (Pass T)) : LiveTree T :=
  passes.foldl (fun t pass => pass.apply t) t

/-- What happens to the node at a path in passes over a tree. -/
def events (path : List Nat) : LiveTree T → List (Pass T) → List (Event T)
  | _, [] => []
  | t, pass :: later => pass.event path t :: events path (pass.apply t) later

/-- A tick of a tree in a world. -/
structure Tick (T : Type) where
  tree : LiveTree T
  time : TickTime T
  world : World

/-- The tree and the world after a tick. -/
def Tick.outcome (tick : Tick T) : LiveTree T × World := evaluate tick.time tick.tree tick.world

/-- The ticks among passes over a tree. -/
def ticks : LiveTree T → List (Pass T) → List (Tick T)
  | _, [] => []
  | t, .reset :: later => ticks t.reset later
  | t, .tick time w :: later => ⟨t, time, w⟩ :: ticks (evaluate time t w).1 later

/-- What the ticks among passes report. -/
def reported : LiveTree T → List (Pass T) → List (Nat × T × List (String × Status))
  | _, [] => []
  | t, pass :: later => (pass.shown t).toList ++ reported (pass.apply t) later

section Append

variable (path : List Nat) (t : LiveTree T) (passes later : List (Pass T)) (pass : Pass T)

theorem replay_append : replay t (passes ++ later) = replay (replay t passes) later :=
  List.foldl_append

theorem events_append :
    events path t (passes ++ later) =
      events path t passes ++ events path (replay t passes) later := by
  induction passes generalizing t with
  | nil => rfl
  | cons pass passes ih => exact congrArg _ (ih (pass.apply t))

theorem take_events (i : Nat) : (events path t passes).take i = events path t (passes.take i) := by
  induction passes generalizing t i with
  | nil => cases i <;> rfl
  | cons pass passes ih =>
    cases i with
    | zero => rfl
    | succ i => exact congrArg _ (ih (pass.apply t) i)

theorem getElem?_events (i : Nat) : (events path t passes)[i]? =
    passes[i]?.map fun pass => pass.event path (replay t (passes.take i)) := by
  induction passes generalizing t i with
  | nil => rfl
  | cons pass passes ih =>
    cases i with
    | zero => rfl
    | succ i => exact ih (pass.apply t) i

theorem ticks_append :
    ticks t (passes ++ later) = ticks t passes ++ ticks (replay t passes) later := by
  induction passes generalizing t with
  | nil => rfl
  | cons pass passes ih =>
    cases pass with
    | reset => exact ih t.reset
    | tick time w => exact congrArg _ (ih (evaluate time t w).1)

theorem reported_eq : reported t passes = (ticks t passes).map fun tick =>
    (tick.time.tick, tick.time.now, tick.outcome.2.visited) := by
  induction passes generalizing t with
  | nil => rfl
  | cons pass passes ih =>
    cases pass with
    | reset => exact ih t.reset
    | tick time w => exact congrArg _ (ih (evaluate time t w).1)

end Append

/-! ## One node -/

/-- The evaluation of a tree in a world. -/
def Evaluation.of (time : TickTime T) (s : LiveTree T) (w : World) : Evaluation T :=
  ⟨time, w, (visits time s w).results, (evaluate time s w).1.status⟩

/-- A decorator without a child fails. -/
theorem evaluate_of_bare {kind : DecoratorKind} {n : CompiledNode}
    (is : n.behavior = .decorator kind) (time : TickTime T) (state : NodeState T) (w : World) :
    evaluate time (.node ⟨n, state⟩ []) w = finish n state .failure [] w ∧
      visits time (.node ⟨n, state⟩ []) w = [([], .evaluated w .failure)] := by
  have evaluated : evaluate time (.node ⟨n, state⟩ []) w = finish n state .failure [] w :=
    (evaluate.eq_def ..).trans (by simp only [is])
  refine ⟨evaluated, (visits.eq_def ..).trans ?_⟩
  simp only [is, evaluated, List.nil_append]
  rfl

/-- A root has the status of its child. -/
theorem evaluate_of_root {n : CompiledNode} (is : n.behavior = .root) (time : TickTime T)
    (state : NodeState T) (child : LiveTree T) (rest : List (LiveTree T)) (w : World) :
    let after := evaluate time child w
    evaluate time (.node ⟨n, state⟩ (child :: rest)) w =
      finish n state after.1.status (after.1 :: rest) after.2 :=
  (evaluate.eq_def ..).trans (by simp only [is])

/-- A leaf has the status that its handler leaves. -/
theorem evaluate_of_handler {n : CompiledNode} {h : Handler} (is : n.behavior = .handler h)
    (time : TickTime T) (state : NodeState T) (children : List (LiveTree T)) (w : World) :
    let after := evaluateLeaf time n h state w
    evaluate time (.node ⟨n, state⟩ children) w =
      finish n after.1 after.1.status children after.2 :=
  (evaluate.eq_def ..).trans (by simp only [is])

/-- A decorator that refuses fails and leaves its child alone. -/
theorem evaluate_of_refuse {kind : DecoratorKind} {n : CompiledNode} {state : NodeState T}
    {time : TickTime T} {w : World} (is : n.behavior = .decorator kind)
    (entry : enterDecorator time kind n state w = .refuse) (child : LiveTree T)
    (rest : List (LiveTree T)) :
    evaluate time (.node ⟨n, state⟩ (child :: rest)) w =
        finish n state .failure (child :: rest) w ∧
      visits time (.node ⟨n, state⟩ (child :: rest)) w = [([], .evaluated w .failure)] := by
  have evaluated : evaluate time (.node ⟨n, state⟩ (child :: rest)) w =
      finish n state .failure (child :: rest) w :=
    (evaluate.eq_def ..).trans (by simp only [is, entry])
  refine ⟨evaluated, (visits.eq_def ..).trans ?_⟩
  simp only [is, entry, evaluated, List.nil_append]
  rfl

/-- A decorator that cuts its child short fails. -/
theorem evaluate_of_cutShort {kind : DecoratorKind} {n : CompiledNode}
    {state state' : NodeState T} {time : TickTime T} {w : World}
    (is : n.behavior = .decorator kind)
    (entry : enterDecorator time kind n state w = .cutShort state') (child : LiveTree T)
    (rest : List (LiveTree T)) :
    evaluate time (.node ⟨n, state⟩ (child :: rest)) w =
        finish n state' .failure (child.reset :: rest) (w.abort child).2 ∧
      visits time (.node ⟨n, state⟩ (child :: rest)) w =
        (cuts child).below 0 ++ [([], .evaluated w .failure)] := by
  have evaluated : evaluate time (.node ⟨n, state⟩ (child :: rest)) w =
      finish n state' .failure (child.reset :: rest) (w.abort child).2 :=
    (evaluate.eq_def ..).trans (by simp only [is, entry]; rfl)
  refine ⟨evaluated, (visits.eq_def ..).trans ?_⟩
  simp only [is, entry, evaluated]
  rfl

/-- A decorator that lets its child be evaluated makes its own status of what the child gives. -/
theorem evaluate_of_proceed {kind : DecoratorKind} {n : CompiledNode} {state state' : NodeState T}
    {limit : Number} {time : TickTime T} {w : World} (is : n.behavior = .decorator kind)
    (entry : enterDecorator time kind n state w = .proceed state' limit) (child : LiveTree T)
    (rest : List (LiveTree T)) :
    let after := evaluate time child w
    let left := leaveDecorator time kind limit state' after.1.status
    evaluate time (.node ⟨n, state⟩ (child :: rest)) w =
        finish n left.2 left.1 (after.1 :: rest) after.2 ∧
      Evaluation.of time (.node ⟨n, state⟩ (child :: rest)) w =
        ⟨time, w, [(0, after.1.status)], left.1⟩ := by
  intro after left
  have evaluated : evaluate time (.node ⟨n, state⟩ (child :: rest)) w =
      finish n left.2 left.1 (after.1 :: rest) after.2 :=
    (evaluate.eq_def ..).trans (by simp only [is, entry, after, left])
  have traced : visits time (.node ⟨n, state⟩ (child :: rest)) w =
      (visits time child w).below 0 ++ [([], .evaluated w
        (evaluate time (.node ⟨n, state⟩ (child :: rest)) w).1.status)] :=
    (visits.eq_def ..).trans (by simp only [is, entry])
  refine ⟨evaluated, ?_⟩
  rw [Evaluation.of, traced, Trace.results_append, results_visits, evaluated]
  rfl

/-- What may happen to a subtree. -/
inductive Happens (s : LiveTree T) : Event T → LiveTree T → Prop
  | left : Happens s .left s
  | cleared : Happens s .cleared s.reset
  | evaluated (time : TickTime T) (w : World) :
    Happens s (.evaluated (.of time s w)) (evaluate time s w).1

variable {t s : LiveTree T} {path : List Nat}

theorem Fate.happens {time : TickTime T} {trace : Trace} {s' : LiveTree T}
    (fate : Fate time s trace s') : Happens s (.ofTrace time trace) s' := by
  cases fate with
  | left => exact .left
  | cutShort =>
    rw [Event.ofTrace, own_cuts]
    exact .cleared
  | evaluated w =>
    rw [Event.ofTrace, own_visits]
    exact .evaluated time w

/-- In a pass over a tree each of its subtrees has a fate. -/
theorem Pass.fate_at (pass : Pass T) (at_ : t.at? path = some s) :
    ∃ s', (pass.apply t).at? path = some s' ∧
      Fate pass.time s ((pass.trace t).inside path) s' := by
  have fate : Fate pass.time t (pass.trace t) (pass.apply t) := by
    cases pass with
    | reset => exact .cutShort
    | tick time w => exact .evaluated w
  exact fate.at at_

/-- So one thing happens to it. -/
theorem Pass.happens (pass : Pass T) (at_ : t.at? path = some s) :
    ∃ s', (pass.apply t).at? path = some s' ∧ Happens s (pass.event path t) s' := by
  obtain ⟨s', at', fate⟩ := pass.fate_at at_
  exact ⟨s', at', fate.happens⟩

/-- A subtree that is evaluated in a pass is evaluated as if it were a tree by itself. -/
theorem Pass.evaluated_at {pass : Pass T} {e : Evaluation T} (at_ : t.at? path = some s)
    (happens : pass.event path t = .evaluated e) :
    ∃ w, e = .of pass.time s w ∧ (pass.trace t).inside path = visits pass.time s w ∧
      (pass.apply t).at? path = some (evaluate pass.time s w).1 := by
  obtain ⟨s', at', fate⟩ := pass.fate_at at_
  have event (trace : Trace) (is : (pass.trace t).inside path = trace) :
      Event.ofTrace pass.time trace = .evaluated e := is ▸ happens
  generalize traced : (pass.trace t).inside path = trace at fate
  cases fate with
  | left => cases event _ traced
  | cutShort =>
    have cleared := event _ traced
    rw [Event.ofTrace, own_cuts] at cleared
    cases cleared
  | evaluated w =>
    have evaluated := event _ traced
    rw [Event.ofTrace, own_visits] at evaluated
    exact ⟨w, (Event.evaluated.inj evaluated).symm, rfl, at'⟩

/-- What holds at first and is kept by whatever happens holds after passes. -/
theorem events_induction {P : List (Event T) → LiveTree T → Prop} (at_ : t.at? path = some s)
    (start : P [] s)
    (step : ∀ {events s event s'}, P events s → Happens s event s' → P (events ++ [event]) s')
    (passes : List (Pass T)) :
    ∃ s', (replay t passes).at? path = some s' ∧ P (events path t passes) s' := by
  induction passes using List.reverseRecOn with
  | nil => exact ⟨s, at_, start⟩
  | append_singleton passes pass ih =>
    obtain ⟨s', at', holds⟩ := ih
    obtain ⟨s'', at'', happens⟩ := pass.happens at'
    refine ⟨s'', ?_, ?_⟩
    · rw [replay_append]
      exact at''
    · rw [events_append]
      exact step holds happens

/-- Nothing that happens changes what was compiled. -/
theorem Happens.compiled {event : Event T} {s' : LiveTree T} (happens : Happens s event s') :
    s'.compiled = s.compiled := by
  cases happens with
  | left => rfl
  | cleared => exact LiveTree.compiled_reset s
  | evaluated time w => exact compiled_evaluate time s w

theorem at?_ofCompiled {t node : Tree CompiledNode} (at_ : t.at? path = some node) :
    (LiveTree.ofCompiled t : LiveTree T).at? path = some (LiveTree.ofCompiled node) := by
  rw [LiveTree.ofCompiled, Tree.at?_map, at_]
  rfl

/-- Passes change nothing but the states of the nodes. -/
theorem Pass.compiled_apply (pass : Pass T) (t : LiveTree T) :
    (pass.apply t).compiled = t.compiled := by
  cases pass with
  | reset => exact LiveTree.compiled_reset t
  | tick time w => exact compiled_evaluate time t w

theorem compiled_replay (t : LiveTree T) (passes : List (Pass T)) :
    (replay t passes).compiled = t.compiled := by
  induction passes generalizing t with
  | nil => rfl
  | cons pass passes ih => exact (ih (pass.apply t)).trans (pass.compiled_apply t)

/-- What a tick reports of a node under its id is what happens to it. -/
theorem lookup_shown (distinct : (t.compiled.preorder.map (·.id)).Nodup) (time : TickTime T)
    {w : World} (fresh : w.visited = []) (at_ : t.at? path = some s) :
    (evaluate time t w).2.visited.lookup s.label.node.id =
      ((Pass.tick time w).event path t).status? := by
  have listed := visited_evaluate time t w
  have ids : (t.preorder.map (·.node.id)).Nodup := by
    rwa [LiveTree.compiled, Tree.preorder_map, List.map_map] at distinct
  rw [listed, fresh, List.nil_append, Trace.lookup_report ids at_, Pass.event,
    Event.status?_ofTrace]
  rfl

/-- What the ticks among passes report of a node under its id is what happens to it in them. -/
theorem lookup_reported {id : String} {passes : List (Pass T)}
    (distinct : (t.compiled.preorder.map (·.id)).Nodup)
    (fresh : ∀ time w, .tick time w ∈ passes → w.visited = []) (at_ : t.at? path = some s)
    (is : s.label.node.id = id) :
    (reported t passes).map (·.2.2.lookup id) =
      ((passes.zip (events path t passes)).filter (·.1.isTick)).map (·.2.status?) := by
  induction passes generalizing t s with
  | nil => rfl
  | cons pass later ih =>
    obtain ⟨s', at', happens⟩ := pass.happens at_
    have same : s'.label.node = s.label.node := by
      rw [← LiveTree.label_compiled, happens.compiled, LiveTree.label_compiled]
    have distinct' : ((pass.apply t).compiled.preorder.map (·.id)).Nodup :=
      (pass.compiled_apply t).symm ▸ distinct
    have others := ih distinct' (fun time w mem => fresh time w (List.mem_cons_of_mem _ mem)) at'
      (same ▸ is)
    cases pass with
    | reset => exact others
    | tick time w =>
      have here := lookup_shown distinct time (fresh time w List.mem_cons_self) at_
      rw [is] at here
      exact congrArg₂ List.cons here others

/-- A law of the evaluations of a node, given those that are pending before each: it follows from an
invariant of the node and of these that a new tree has, and that every evaluation keeps. -/
theorem evaluated_induction {P : List (Evaluation T) → LiveTree T → Prop}
    {Q : List (Evaluation T) → Evaluation T → Prop} {t node : Tree CompiledNode}
    (at_ : t.at? path = some node) (start : P [] (LiveTree.ofCompiled node))
    (evaluated : ∀ {earlier live}, live.compiled = node → P earlier live → ∀ time w,
      let e := Evaluation.of time live w
      Q earlier e ∧ P ((Event.evaluated e).after earlier) (evaluate time live w).1)
    (passes : List (Pass T)) (i : Nat) (e : Evaluation T)
    (happens : (events path (LiveTree.ofCompiled t) passes)[i]? = some (.evaluated e)) :
    Q (pending ((events path (LiveTree.ofCompiled t) passes).take i)) e := by
  rw [getElem?_events] at happens
  obtain ⟨pass, -, happens⟩ := Option.map_eq_some_iff.1 happens
  obtain ⟨live, at', same, holds⟩ := events_induction
    (P := fun events live => live.compiled = node ∧ P (pending events) live) (at?_ofCompiled at_)
    ⟨LiveTree.compiled_ofCompiled node, start⟩
    (fun {events live event live'} ⟨same, holds⟩ happens => by
      refine ⟨happens.compiled.trans same, ?_⟩
      rw [pending_append_singleton]
      cases happens with
      | left => exact holds
      | cleared => rwa [LiveTree.reset_eq, same]
      | evaluated time w => exact (evaluated same holds time w).2) (passes.take i)
  obtain ⟨live', -, now⟩ := pass.happens at'
  rw [happens] at now
  rw [take_events]
  cases now with
  | evaluated time w => exact (evaluated same holds time w).1

/-! ## Runs -/

namespace Executor

variable {e : Executor T} {s : SharedBlackboard}

/-- The pass of a tick, on the blackboard on which the writes that waited are done. -/
def pass (e : Executor T) (delta : T) (s : SharedBlackboard) : Pass T :=
  .tick ⟨delta, Clock.add e.elapsed delta, e.tickCount + 1⟩
    { board := s.board.applyQueue.2, outputs := e.outputs, random := e.random }

/-- The passes of the ticks of an update. -/
def duePasses : Nat → Executor T → SharedBlackboard → List (Pass T)
  | 0, _, _ => []
  | count + 1, e, s =>
    match e.tree with
    | none => []
    | some tree =>
      if Clock.reaches e.accumulator e.interval then
        let (_, after, s') := e.paid.tickTree tree e.interval s
        e.paid.pass e.interval s :: duePasses count after s'
      else []

/-- The passes that a call makes over the tree. -/
def callPasses (e : Executor T) (s : SharedBlackboard) (c : Call T) : List (Pass T) :=
  match e.call s c with
  | .error _ => []
  | .ok _ =>
    match c with
    | .start | .stop => [.reset]
    | .step =>
      (if e.state = .idle ∧ e.session.isNone then [.reset] else []) ++
        [(e.stepping s).pass (e.stepping s).interval s]
    | .tick delta => [e.pass delta s]
    | .update frameDelta =>
      if e.state = .running then duePasses e.config.maxTicksPerUpdate (e.addFrame frameDelta) s
      else []
    | _ => []

/-- The passes that calls make, one after the other. -/
def passes (e : Executor T) (s : SharedBlackboard) : List (Call T) → List (Pass T)
  | [] => []
  | c :: calls =>
    e.callPasses s c ++ passes (e.perform s c).executor (e.perform s c).shared calls

/-- The time of each tick among passes follows from the time before. -/
def Timed : T → List (Pass T) → Prop
  | _, [] => True
  | _, .reset :: later => Timed Clock.zero later
  | now, .tick time _ :: later => time.now = Clock.add now time.delta ∧ Timed time.now later

/-- The time after passes. -/
def timeAfter (now : T) : List (Pass T) → T
  | [] => now
  | pass :: later => timeAfter pass.time.now later

/-- What a report tells of a tick. -/
structure Reported (config : ExecutorConfig) (tick : Tick T) (r : TickReport T) : Prop where
  number : r.tick = tick.time.tick
  elapsed : r.elapsed = tick.time.now
  statuses : r.statuses = tick.outcome.2.visited
  logs : r.logs = tick.outcome.2.logs.take config.maxLogLines
  blackboard : r.blackboard = tick.outcome.2.board.snapshot

/-- Passes are all that becomes of the tree of an executor. -/
structure Follows (e : Executor T) (passes : List (Pass T)) (o : Outcome T) : Prop where
  config : o.executor.config = e.config
  tree : ∀ live, o.executor.tree = some live → ∃ t, e.tree = some t ∧ live = replay t passes
  told : ∀ t, e.tree = some t → List.Forall₂ (Reported e.config) (ticks t passes) o.reports
  timed : Timed e.elapsed passes
  fresh : ∀ time w, .tick time w ∈ passes → w.visited = []
  elapsed : o.executor.elapsed = timeAfter e.elapsed passes
  destroyed : e.tree = none → passes = [] ∧ o.reports = []

theorem timed_append {now : T} {passes later : List (Pass T)} :
    Timed now (passes ++ later) ↔ Timed now passes ∧ Timed (timeAfter now passes) later := by
  induction passes generalizing now with
  | nil => exact (iff_of_eq (true_and _)).symm
  | cons pass passes ih =>
    cases pass with
    | reset => exact ih
    | tick time w => exact (and_congr_right fun _ => ih).trans and_assoc.symm

theorem timeAfter_append (now : T) (passes later : List (Pass T)) :
    timeAfter now (passes ++ later) = timeAfter (timeAfter now passes) later := by
  induction passes generalizing now with
  | nil => rfl
  | cons pass passes ih => exact ih _

namespace Follows

variable {first others : List (Pass T)} {o₁ o₂ : Outcome T}

/-- Nothing becomes of the tree. -/
theorem still {o : Outcome T} (config : o.executor.config = e.config) (reports : o.reports = [])
    (elapsed : o.executor.elapsed = e.elapsed)
    (tree : ∀ live, o.executor.tree = some live → e.tree = some live) : e.Follows [] o where
  config := config
  tree live alive := ⟨live, tree live alive, rfl⟩
  told t _ := by rw [reports]; exact .nil
  timed := trivial
  fresh _ _ mem := nomatch mem
  elapsed := elapsed
  destroyed _ := ⟨rfl, reports⟩

theorem reset (alive : e.tree.isSome) {o : Outcome T} (config : o.executor.config = e.config)
    (reports : o.reports = []) (elapsed : o.executor.elapsed = Clock.zero)
    (tree : o.executor.tree = e.tree.map LiveTree.reset) : e.Follows [.reset] o where
  config := config
  tree live alive' := by
    obtain ⟨t, was, rfl⟩ := Option.map_eq_some_iff.1 (tree ▸ alive')
    exact ⟨t, was, rfl⟩
  told t _ := by rw [reports]; exact .nil
  timed := trivial
  fresh _ _ mem := nomatch List.mem_singleton.1 mem
  elapsed := elapsed
  destroyed dead := by rw [dead] at alive; cases alive

theorem tick {t : LiveTree T} (alive : e.tree = some t) (delta : T) (s : SharedBlackboard) :
    e.Follows [e.pass delta s] (.ofTick (e.tickTree t delta s)) where
  config := rfl
  tree live alive' := ⟨t, alive, (Option.some.inj alive').symm⟩
  told t' alive' := by
    obtain rfl := Option.some.inj (alive.symm.trans alive')
    exact .cons ⟨rfl, rfl, rfl, rfl, rfl⟩ .nil
  timed := ⟨rfl, trivial⟩
  fresh time w mem := by
    obtain ⟨-, rfl⟩ := Pass.tick.inj (List.mem_singleton.1 mem)
    rfl
  elapsed := rfl
  destroyed dead := nomatch alive.symm.trans dead

/-- Only the settings, the tree and the time matter. -/
theorem of_eq {e' : Executor T} {passes : List (Pass T)} {o : Outcome T}
    (follows : e'.Follows passes o) (config : e.config = e'.config) (tree : e.tree = e'.tree)
    (elapsed : e.elapsed = e'.elapsed) : e.Follows passes o where
  config := follows.config.trans config.symm
  tree := tree ▸ follows.tree
  told := config ▸ tree ▸ follows.told
  timed := elapsed ▸ follows.timed
  fresh := follows.fresh
  elapsed := elapsed ▸ follows.elapsed
  destroyed := tree ▸ follows.destroyed

theorem followedBy (one : e.Follows first o₁) (two : o₁.executor.Follows others o₂) :
    e.Follows (first ++ others) (o₁.followedBy o₂) where
  config := two.config.trans one.config
  tree live alive := by
    obtain ⟨t₁, alive₁, rfl⟩ := two.tree live alive
    obtain ⟨t, alive₀, rfl⟩ := one.tree t₁ alive₁
    exact ⟨t, alive₀, (replay_append ..).symm⟩
  told t alive := by
    rw [ticks_append]
    refine List.rel_append (one.told t alive) ?_
    cases alive₁ : o₁.executor.tree with
    | none =>
      obtain ⟨rfl, silent⟩ := two.destroyed alive₁
      rw [silent]
      exact .nil
    | some t₁ =>
      obtain ⟨t', alive', rfl⟩ := one.tree t₁ alive₁
      obtain rfl := Option.some.inj (alive.symm.trans alive')
      exact one.config ▸ two.told _ alive₁
  timed := timed_append.2 ⟨one.timed, one.elapsed ▸ two.timed⟩
  fresh time w mem := (List.mem_append.1 mem).elim (one.fresh time w) (two.fresh time w)
  elapsed := by rw [timeAfter_append, ← one.elapsed]; exact two.elapsed
  destroyed dead := by
    obtain ⟨rfl, silent⟩ := one.destroyed dead
    have dead₁ : o₁.executor.tree = none := by
      rw [Option.eq_none_iff_forall_ne_some]
      intro t₁ alive₁
      obtain ⟨t, alive, -⟩ := one.tree t₁ alive₁
      exact nomatch alive.symm.trans dead
    obtain ⟨rfl, silent'⟩ := two.destroyed dead₁
    refine ⟨rfl, ?_⟩
    show o₁.reports ++ o₂.reports = []
    rw [silent, silent']
    rfl

/-- What the reports show is what the ticks do. -/
theorem reports {passes : List (Pass T)} {o : Outcome T} (follows : e.Follows passes o)
    (t : LiveTree T) (alive : e.tree = some t) :
    o.reports.map (fun r => (r.tick, r.elapsed, r.statuses)) = reported t passes := by
  rw [reported_eq, ← List.forall₂_eq_eq_eq, List.forall₂_map_left_iff, List.forall₂_map_right_iff]
  refine (follows.told t alive).flip.imp fun r tick told => ?_
  rw [told.number, told.elapsed, told.statuses]

end Follows

theorem duePasses_due {tree : LiveTree T} (alive : e.tree = some tree)
    (due : Clock.reaches e.accumulator e.interval = true) (count : Nat) (s : SharedBlackboard) :
    let first := Outcome.ofTick (e.paid.tickTree tree e.interval s)
    duePasses (count + 1) e s =
      e.paid.pass e.interval s :: duePasses count first.executor first.shared := by
  simp only [duePasses, alive, due, if_true]
  rfl

theorem duePasses_early (early : e.tree = none ∨ Clock.reaches e.accumulator e.interval = false)
    (count : Nat) (s : SharedBlackboard) : duePasses count e s = [] := by
  cases count with
  | zero => rfl
  | succ count =>
    unfold duePasses
    rcases early with dead | early
    · rw [dead]
    · split
      · rfl
      · rw [if_neg (by simp [early])]

/-- What calls do to the tree of an executor, to its time and to what was published: they leave it or
give it up, reset it, or perform ticks. -/
inductive Makes : Executor T → List (Pass T) → Outcome T → Prop
  | still {e : Executor T} {o : Outcome T} (config : o.executor.config = e.config)
    (reports : o.reports = []) (elapsed : o.executor.elapsed = e.elapsed)
    (left : o.executor.tree = none ∨
      o.executor.tree = e.tree ∧ o.executor.outputs = e.outputs) : Makes e [] o
  | reset {e : Executor T} {o : Outcome T} (alive : e.tree.isSome)
    (config : o.executor.config = e.config) (reports : o.reports = [])
    (elapsed : o.executor.elapsed = Clock.zero)
    (tree : o.executor.tree = e.tree.map LiveTree.reset)
    (outputs : o.executor.outputs = .empty) : Makes e [.reset] o
  | tick {e : Executor T} {t : LiveTree T} (alive : e.tree = some t) (delta : T)
    (s : SharedBlackboard) : Makes e [e.pass delta s] (.ofTick (e.tickTree t delta s))
  /-- Frame time that is collected or spent does not matter. -/
  | of_eq {e e' : Executor T} {passes : List (Pass T)} {o : Outcome T} (makes : Makes e' passes o)
    (config : e.config = e'.config) (tree : e.tree = e'.tree) (elapsed : e.elapsed = e'.elapsed)
    (outputs : e.outputs = e'.outputs) : Makes e passes o
  | followedBy {e : Executor T} {first others : List (Pass T)} {o₁ o₂ : Outcome T}
    (one : Makes e first o₁) (two : Makes o₁.executor others o₂) :
    Makes e (first ++ others) (o₁.followedBy o₂)

theorem Makes.follows {passes : List (Pass T)} {o : Outcome T} (makes : Makes e passes o) :
    e.Follows passes o := by
  induction makes with
  | still config reports elapsed left =>
    refine .still config reports elapsed fun live alive => ?_
    rcases left with dead | ⟨same, -⟩
    · cases dead.symm.trans alive
    · exact same.symm.trans alive
  | reset alive config reports elapsed tree outputs =>
    exact .reset alive config reports elapsed tree
  | tick alive delta s => exact .tick alive delta s
  | of_eq makes config tree elapsed outputs ih => exact ih.of_eq config tree elapsed
  | followedBy one two ih₁ ih₂ => exact ih₁.followedBy ih₂

theorem makes_tickWhileDue (count : Nat) (e : Executor T) (s : SharedBlackboard) :
    Makes e (duePasses count e s) (.ofTicks (tickWhileDue count e s)) := by
  induction count generalizing e s with
  | zero => exact .still rfl rfl rfl (.inr ⟨rfl, rfl⟩)
  | succ count ih =>
    rcases e.due_or_early with ⟨tree, alive, due⟩ | early
    · have first : Makes e [e.paid.pass e.interval s]
          (.ofTick (e.paid.tickTree tree e.interval s)) :=
        (Makes.tick (e := e.paid) alive e.interval s).of_eq rfl rfl rfl rfl
      rw [tickWhileDue_due alive due, duePasses_due alive due]
      exact first.followedBy (ih _ _)
    · rw [tickWhileDue_early early, duePasses_early early]
      exact .still rfl rfl rfl (.inr ⟨rfl, rfl⟩)

theorem makes_perform (e : Executor T) (s : SharedBlackboard) (c : Call T) :
    Makes e (e.callPasses s c) (e.perform s c) := by
  unfold callPasses
  rcases e.perform_cases s c with ⟨⟨error, refused⟩, same⟩ | ⟨⟨o, accepted⟩, does⟩
  · rw [refused, same]
    exact .still rfl rfl rfl (.inr ⟨rfl, rfl⟩)
  · rw [accepted]
    generalize e.perform s c = o at does
    cases does with
    | start alive idle =>
      refine .reset alive ?_ rfl rfl ?_ rfl <;>
        · dsimp only
          split <;> rfl
    | stop alive => exact .reset alive rfl rfl rfl rfl rfl
    | @step tree still alive =>
      have ticked := Makes.tick alive (e.stepping s).interval s
      by_cases opens : e.state = .idle ∧ e.session.isNone
      · have opened : e.stepping s = (e.openSession s).reset := if_pos opens
        have was : e.tree.isSome := by
          rw [opened] at alive
          exact Option.isSome_map.symm.trans (Option.isSome_of_eq_some alive)
        have first : Makes e [.reset] ⟨[], e.stepping s, s⟩ := by
          rw [opened]
          exact .reset was rfl rfl rfl rfl rfl
        rw [if_pos opens]
        exact first.followedBy ticked
      · have same : e.stepping s = e := if_neg opens
        rw [if_neg opens]
        rw [same] at ticked ⊢
        exact ticked
    | tick running alive => exact .tick alive _ s
    | @update frameDelta alive running checked =>
      simp only [running, if_true]
      exact (makes_tickWhileDue _ (e.addFrame frameDelta) s).of_eq rfl rfl rfl rfl
    | wait alive still =>
      simp only [still, if_false]
      exact .still rfl rfl rfl (.inr ⟨rfl, rfl⟩)
    | destroy => exact .still rfl rfl rfl (.inl rfl)
    | _ => exact .still rfl rfl rfl (.inr ⟨rfl, rfl⟩)

/-- A run does nothing but this to the tree, in the passes that it makes. -/
theorem makes_performAll (e : Executor T) (s : SharedBlackboard) (calls : List (Call T)) :
    Makes e (e.passes s calls) (e.performAll s calls) := by
  induction calls generalizing e s with
  | nil => exact .still rfl rfl rfl (.inr ⟨rfl, rfl⟩)
  | cons c calls ih => exact (makes_perform e s c).followedBy (ih _ _)

/-- A run makes its passes over the tree that it began with, and nothing else becomes of it. -/
theorem follows_performAll (e : Executor T) (s : SharedBlackboard) (calls : List (Call T)) :
    e.Follows (e.passes s calls) (e.performAll s calls) :=
  (makes_performAll e s calls).follows

/-- What happens to the node at a path in a run of a compiled tree. -/
def history (t : CompiledTree) (config : ExecutorConfig) (entropy : Nat) (s : SharedBlackboard)
    (calls : List (Call T)) (path : List Nat) : List (Event T) :=
  events path (.ofCompiled t.root) ((new t config entropy : Executor T).passes s calls)

/-- Where the ids of a tree are distinct, the history of a node is what the reports of a run show of
it, tick by tick: nothing where it is left alone, idle where it is cleared, and otherwise the status
that it takes. -/
theorem reports_show_history {t : CompiledTree} (distinct : t.ids.Nodup) {path : List Nat}
    {node : Tree CompiledNode} (at_ : t.root.at? path = some node) (config : ExecutorConfig)
    (entropy : Nat) (s : SharedBlackboard) (calls : List (Call T)) :
    let e : Executor T := new t config entropy
    (e.performAll s calls).reports.map (·.status? node.label.id) =
      (((e.passes s calls).zip (history t config entropy s calls path)).filter (·.1.isTick)).map
        (·.2.status?) := by
  intro e
  have follows := follows_performAll e s calls
  have label : (LiveTree.ofCompiled node : LiveTree T).label.node.id = node.label.id := by
    rw [← LiveTree.label_compiled, LiveTree.compiled_ofCompiled]
  have ids : ((LiveTree.ofCompiled t.root : LiveTree T).compiled.preorder.map (·.id)).Nodup := by
    rwa [LiveTree.compiled_ofCompiled]
  have shown := lookup_reported ids follows.fresh (at?_ofCompiled at_) label
  rw [← follows.reports _ rfl, List.map_map] at shown
  exact shown

end Executor

end BehaviorTree
