import BehaviorTree.Proofs.Execution.Attendance

/-!
# Time limits

A timeout is evaluated in every tick in which its child runs, and the time that it keeps is that of
the ticks since its child began to run (`Waiting`, `waiting_replay`). In the first tick in which
this time has come up to the limit the child is cut short, and no node is touched but those of the
child (`CutsShort`, `timeout_law`).
-/

namespace BehaviorTree

variable {T : Type}

/-- The status of the node at a path. -/
def LiveTree.statusAt? (t : LiveTree T) (path : List Nat) : Option Status :=
  (t.at? path).map LiveTree.status

/-- Whether a node ends or is cleared. -/
def Event.Ends : Event T → Prop
  | left => False
  | cleared => True
  | evaluated e => e.status ≠ .running

instance (event : Event T) : Decidable event.Ends :=
  match event with
  | .left => inferInstanceAs (Decidable False)
  | .cleared => inferInstanceAs (Decidable True)
  | .evaluated e => inferInstanceAs (Decidable (e.status ≠ .running))

variable [Clock T]

open Executor (Timed timeAfter)

/-! ## Timeouts -/

section Timeouts

variable {time : TickTime T} {n : CompiledNode} {state : NodeState T} {w : World}

/-- Too late: the child of a timeout is cut short. -/
theorem evaluate_of_late (is : n.behavior = .decorator .timeout) (running : state.running = true)
    (late : Clock.reaches (Clock.add state.runningTime time.delta)
      (Clock.ofNumber (w.number n "duration" 1)) = true)
    (child : LiveTree T) (rest : List (LiveTree T)) :
    evaluate time (.node ⟨n, state⟩ (child :: rest)) w =
        finish n { state with running := false, runningTime := Clock.zero } .failure
          (child.reset :: rest) (w.abort child).2 ∧
      visits time (.node ⟨n, state⟩ (child :: rest)) w =
        (cuts child).below 0 ++ [([], .evaluated w .failure)] := by
  have entry : enterDecorator time .timeout n state w =
      .cutShort { state with running := false, runningTime := Clock.zero } := by
    simp only [enterDecorator, running, late, if_true]
  exact evaluate_of_cutShort is entry child rest

/-- In time: the child of a timeout is evaluated. While it runs, the timeout counts on. -/
theorem evaluate_of_early (is : n.behavior = .decorator .timeout) (running : state.running = true)
    (early : Clock.reaches (Clock.add state.runningTime time.delta)
      (Clock.ofNumber (w.number n "duration" 1)) = false)
    (child : LiveTree T) (rest : List (LiveTree T)) :
    Evaluation.of time (.node ⟨n, state⟩ (child :: rest)) w =
        ⟨time, w, [(0, (evaluate time child w).1.status)], (evaluate time child w).1.status⟩ ∧
      ((evaluate time child w).1.status = .running →
        evaluate time (.node ⟨n, state⟩ (child :: rest)) w =
          finish n { state with runningTime := Clock.add state.runningTime time.delta } .running
            ((evaluate time child w).1 :: rest) (evaluate time child w).2) := by
  have entry : enterDecorator time .timeout n state w =
      .proceed { state with runningTime := Clock.add state.runningTime time.delta }
        (w.number n "duration" 1) := by
    simp only [enterDecorator, running, early, if_true, if_false, Bool.false_eq_true]
  obtain ⟨evaluated, is_⟩ := evaluate_of_proceed is entry child rest
  refine ⟨is_.trans ?_, fun runs => evaluated.trans ?_⟩
  · simp only [leaveDecorator]
    split <;> rfl
  · simp only [leaveDecorator, runs, if_true, running]

end Timeouts

/-- A timeout of which the child has been running for some time. -/
structure Waiting (n : CompiledNode) (total : T) (live : LiveTree T) : Prop where
  node : live.label.node = n
  status : live.status = .running
  running : live.label.state.running = true
  total : live.label.state.runningTime = total
  fed : live.children ≠ []

namespace Waiting

variable {n : CompiledNode} {total : T} {live : LiveTree T}

omit [Clock T] in
theorem cases (waiting : Waiting n total live) :
    ∃ state child rest, live = .node ⟨n, state⟩ (child :: rest) ∧ state.running = true ∧
      state.runningTime = total := by
  obtain ⟨⟨n', state⟩, children⟩ := live
  obtain ⟨rfl, -, running, rfl, fed⟩ := waiting
  cases children with
  | nil => exact absurd rfl fed
  | cons child rest => exact ⟨state, child, rest, rfl, running, rfl⟩

/-- It goes on waiting while it runs. -/
theorem goesOn (waiting : Waiting n total live) (is : n.behavior = .decorator .timeout)
    (time : TickTime T) (w : World) (runs : (evaluate time live w).1.status = .running) :
    Waiting n (Clock.add total time.delta) (evaluate time live w).1 := by
  obtain ⟨state, child, rest, rfl, running, rfl⟩ := waiting.cases
  cases reached : Clock.reaches (Clock.add state.runningTime time.delta)
      (Clock.ofNumber (w.number n "duration" 1)) with
  | true =>
    obtain ⟨evaluated, -⟩ := evaluate_of_late is running reached child rest
    rw [evaluated] at runs
    cases runs
  | false =>
    obtain ⟨is_, evaluated⟩ := evaluate_of_early is running reached child rest
    have status := congrArg Evaluation.status is_
    rw [evaluated (status.symm.trans runs)]
    exact ⟨rfl, rfl, running, rfl, List.cons_ne_nil _ _⟩

end Waiting

/-- A timeout counts only while its child runs. -/
def CountsRunning (live : LiveTree T) : Prop :=
  live.label.state.running = true → live.statusAt? [0] = some .running

section Begins

variable {live live' : LiveTree T}

theorem CountsRunning.goesOn (counts : CountsRunning live)
    (is : live.label.node.behavior = .decorator .timeout) (time : TickTime T) (w : World) :
    CountsRunning (evaluate time live w).1 := by
  obtain ⟨⟨n, state⟩, children⟩ := live
  change n.behavior = .decorator .timeout at is
  obtain ⟨state', status, children', w', trace, did, evaluated, -⟩ := acts time n state children w
  rw [evaluated]
  cases did with
  | bareDecorator => exact counts
  | refused => exact counts
  | cutShort is entry =>
    obtain ⟨-, rfl⟩ := enterDecorator_cutShort entry
    intro running
    cases running
  | proceeded is' entry =>
    obtain rfl := Behavior.decorator.inj (is'.symm.trans is)
    simp only [CountsRunning, finish, leaveDecorator]
    split
    · rename_i runs
      exact fun _ => congrArg some runs
    · intro running
      cases running
  | _ => simp_all only [reduceCtorEq]

/-- Once its child has begun to run, a timeout waits. -/
theorem Waiting.begins (is : live.label.node.behavior = .decorator .timeout)
    (counts : CountsRunning live) (before : live.statusAt? [0] ≠ some .running) {event : Event T}
    (happens : Happens live event live') (after : live'.statusAt? [0] = some .running) :
    Waiting live.label.node Clock.zero live' := by
  obtain ⟨⟨n, state⟩, children⟩ := live
  change n.behavior = .decorator .timeout at is
  have rests : state.running = false := Bool.eq_false_iff.2 fun runs => before (counts runs)
  cases happens with
  | left => exact absurd after before
  | cleared =>
    rcases children with - | ⟨⟨m, below⟩, rest⟩ <;> cases after
  | evaluated time w =>
    cases children with
    | nil =>
      rw [(evaluate_of_bare is time state w).1] at after
      cases after
    | cons child rest =>
      have entry : enterDecorator time .timeout n state w =
          .proceed state (w.number n "duration" 1) := by
        simp only [enterDecorator, rests, if_false, Bool.false_eq_true]
      obtain ⟨evaluated, -⟩ := evaluate_of_proceed is entry child rest
      rw [evaluated] at after ⊢
      have runs : (evaluate time child w).1.status = .running := Option.some.inj after
      simp only [leaveDecorator, runs, if_true, rests, if_false, Bool.false_eq_true, finish]
      exact ⟨rfl, rfl, rfl, rfl, List.cons_ne_nil _ _⟩

/-- After passes, a timeout counts only while its child runs. -/
theorem countsRunning_replay {t node : Tree CompiledNode} {path : List Nat}
    (at_ : t.at? path = some node) (is : node.label.behavior = .decorator .timeout)
    (passes : List (Pass T)) :
    ∃ live, (replay (LiveTree.ofCompiled t) passes).at? path = some live ∧
      live.label.node = node.label ∧ CountsRunning live := by
  have initial (t : Tree CompiledNode) : CountsRunning (LiveTree.ofCompiled t : LiveTree T) := by
    cases t
    nofun
  obtain ⟨live, at', same, counts⟩ := events_induction
    (P := fun _ live => live.compiled = node ∧ CountsRunning live) (at?_ofCompiled at_)
    ⟨LiveTree.compiled_ofCompiled node, initial node⟩
    (fun {_ live _ live'} ⟨same, counts⟩ happens => by
      refine ⟨happens.compiled.trans same, ?_⟩
      cases happens with
      | left => exact counts
      | cleared =>
        rw [LiveTree.reset_eq]
        exact initial _
      | evaluated time w =>
        rw [← same, LiveTree.label_compiled] at is
        exact counts.goesOn is time w) passes
  exact ⟨live, at', by rw [← same, LiveTree.label_compiled], counts⟩

end Begins

/-! ## The law -/

/-- In a pass over a tree, a timeout fails and cuts its child short. -/
structure CutsShort (pass : Pass T) (t : LiveTree T) (path : List Nat) (n : CompiledNode)
    (state : NodeState T) (child : LiveTree T) (rest : List (LiveTree T)) (e : Evaluation T) :
    Prop where
  status : e.status = .failure
  /-- No child is evaluated, and neither is a node below it. -/
  children : e.children = []
  cleared : ∀ below s, child.at? below = some s → pass.event (path ++ 0 :: below) t = .cleared
  /-- The nodes of the child are back at the beginning of a run. Of the others below the timeout
  none is touched, and the timeout itself no longer counts. -/
  after : (pass.apply t).at? path = some (.node
    ⟨n, { state with status := .failure, running := false, runningTime := Clock.zero }⟩
    (child.reset :: rest))
  /-- Nothing else changes but the list of what is reported. -/
  world : evaluate pass.time (.node ⟨n, state⟩ (child :: rest)) e.world =
    (.node ⟨n, { state with status := .failure, running := false, runningTime := Clock.zero }⟩
        (child.reset :: rest),
      { e.world with visited := e.world.visited ++
          (child.preorder.map fun m => (m.node.id, .idle)) ++ [(n.id, .failure)] })
  /-- All nodes of the child are reported as idle, and then the timeout. -/
  reported : ∀ tick now statuses, pass.shown t = some (tick, now, statuses) →
    (child.preorder.map fun m => (m.node.id, .idle)) ++ [(n.id, .failure)] <:+: statuses

/-- The pass in which the time of a timeout is up. -/
theorem cutsShort_of_late {n : CompiledNode} {state : NodeState T} {child : LiveTree T}
    {rest : List (LiveTree T)} {t : LiveTree T} {path : List Nat} {time : TickTime T} {w w' : World}
    (is : n.behavior = .decorator .timeout) (running : state.running = true)
    (at_ : t.at? path = some (.node ⟨n, state⟩ (child :: rest)))
    (traced : (visits time t w).inside path =
      visits time (.node ⟨n, state⟩ (child :: rest)) w')
    (after : (evaluate time t w).1.at? path =
      some (evaluate time (.node ⟨n, state⟩ (child :: rest)) w').1)
    (late : Clock.reaches (Clock.add state.runningTime time.delta)
      (Clock.ofNumber (w'.number n "duration" 1)) = true) :
    CutsShort (.tick time w) t path n state child rest
      (.of time (.node ⟨n, state⟩ (child :: rest)) w') := by
  obtain ⟨evaluated, visited⟩ := evaluate_of_late is running late child rest
  have results : (visits time (.node ⟨n, state⟩ (child :: rest)) w').results = [] := by
    rw [visited, Trace.results_append, results_cuts]
    rfl
  have listed : (child.preorder.map fun m => (m.node.id, .idle)) ++ [(n.id, .failure)] <:+:
      (visits time t w).report t := by
    have block := Fate.report_infix (.evaluated w : Fate time t _ _) at_
    rw [traced, visited, Trace.report_append, Trace.report_below rfl, report_cuts] at block
    exact block
  refine ⟨?_, results, fun below s found => ?_, ?_, ?_, fun tick now statuses shown => ?_⟩
  · rw [Evaluation.of, evaluated]
    rfl
  · rw [Pass.event, Pass.trace, Trace.inside_append, traced, visited, Trace.inside,
      Trace.child_append, Trace.child_below, Trace.child_self, List.append_nil, inside_cuts found,
      Event.ofTrace, own_cuts]
  · rw [evaluated] at after
    exact after
  · rw [show (Pass.tick time w).time = time from rfl]
    exact evaluated
  · obtain ⟨-, -, rfl⟩ := Prod.mk.inj (Option.some.inj shown)
    have all := visited_evaluate time t w
    rw [all]
    exact listed.trans (List.suffix_append _ _).isInfix

/-- The time of ticks together. -/
def totalTime (passes : List (Pass ℚ)) : ℚ := (passes.map (·.time.delta)).sum

/-- A timeout waits as long as it neither ends nor is cleared, and is evaluated in every tick. -/
theorem waiting_replay {n : CompiledNode} {now total : ℚ} {t live : LiveTree ℚ}
    {path : List Nat} {passes : List (Pass ℚ)} (is : n.behavior = .decorator .timeout)
    (sound : LiveTree.Sound now t) (future : Clock.atMost Clock.zero now) (timed : Timed now passes)
    (forward : ∀ pass ∈ passes, Clock.atMost Clock.zero pass.time.delta)
    (lasts : ∀ event ∈ events path t passes, ¬ event.Ends) (at_ : t.at? path = some live)
    (waiting : Waiting n total live) :
    (∃ live', (replay t passes).at? path = some live' ∧
      Waiting n (total + totalTime passes) live') ∧
    ∀ event ∈ events path t passes, ∃ e, event = .evaluated e := by
  induction passes generalizing now t live total with
  | nil =>
    refine ⟨⟨live, at_, ?_⟩, fun event mem => nomatch mem⟩
    rwa [totalTime, List.map_nil, List.sum_nil, add_zero]
  | cons pass passes ih =>
    obtain ⟨first, others⟩ := List.forall_mem_cons.1 forward
    obtain ⟨goesOn, later⟩ := List.forall_mem_cons.1 lasts
    obtain ⟨here, behind⟩ : Timed now [pass] ∧ Timed (timeAfter now [pass]) passes :=
      Executor.timed_append.1 timed
    obtain ⟨sound', future'⟩ := sound_replay sound future here (List.forall_mem_singleton.2 first)
    have noticed := Pass.event_ne_left sound future here first at_ waiting.status
    obtain ⟨live', at', happens⟩ := pass.happens at_
    have waits : Waiting n (total + pass.time.delta) live' ∧
        ∃ e, pass.event path t = .evaluated e := by
      have sameTime {e} (is : pass.event path t = .evaluated e) : e.time = pass.time :=
        Event.time_of_ofTrace is
      generalize pass.event path t = event at happens noticed goesOn sameTime
      cases happens with
      | left => exact absurd rfl noticed
      | cleared => exact absurd trivial goesOn
      | evaluated time w =>
        rw [← sameTime rfl]
        exact ⟨waiting.goesOn is time w (Classical.not_not.1 goesOn), _, rfl⟩
    obtain ⟨⟨last, at_last, waits_last⟩, all⟩ := ih sound' future' behind others later at' waits.1
    refine ⟨⟨last, at_last, ?_⟩, List.forall_mem_cons.2 ⟨waits.2, all⟩⟩
    rwa [totalTime, List.map_cons, List.sum_cons, ← add_assoc]

/-- One more pass over a timeout that waits, which may also be cleared in it. -/
theorem Waiting.pass {n : CompiledNode} {now total : ℚ} {t live : LiveTree ℚ} {path : List Nat}
    {pass : Pass ℚ} (is : n.behavior = .decorator .timeout) (sound : LiveTree.Sound now t)
    (future : Clock.atMost Clock.zero now) (timed : Timed now [pass])
    (forward : Clock.atMost Clock.zero pass.time.delta) (at_ : t.at? path = some live)
    (waiting : Waiting n total live) :
    pass.event path t = .cleared ∨ ∃ e state child rest, pass.event path t = .evaluated e ∧
      live = .node ⟨n, state⟩ (child :: rest) ∧
      let limit := (e.world.number n "duration" 1).toRat
      (limit ≤ total + pass.time.delta + Clock.tolerance →
        CutsShort pass t path n state child rest e) ∧
      (total + pass.time.delta + Clock.tolerance < limit → e.children = [(0, e.status)]) := by
  have noticed := Pass.event_ne_left sound future timed forward at_ waiting.status
  cases pass with
  | reset => exact .inl (by rw [Pass.event, Pass.trace, inside_cuts at_, Event.ofTrace, own_cuts])
  | tick time w =>
    obtain ⟨live', at', fate⟩ := fate_at time w at_
    obtain ⟨state, child, rest, rfl, running, rfl⟩ := waiting.cases
    have event (trace : Trace) (is : (visits time t w).inside path = trace) :
        (Pass.tick time w).event path t = .ofTrace time trace := congrArg (Event.ofTrace time) is
    generalize traced : (visits time t w).inside path = trace at fate
    cases fate with
    | left => exact absurd (event _ traced) noticed
    | cutShort =>
      refine .inl ?_
      rw [event _ traced, Event.ofTrace, own_cuts]
    | evaluated w' =>
      refine .inr ⟨.of time (.node ⟨n, state⟩ (child :: rest)) w', state, child, rest, ?_, rfl,
        fun late => ?_, fun early => ?_⟩
      · rw [event _ traced, Event.ofTrace, own_visits]
        rfl
      · exact cutsShort_of_late is running at_ traced at' (Clock.reaches_iff.2 late)
      · have inTime : Clock.reaches (Clock.add state.runningTime time.delta)
            (Clock.ofNumber (w'.number n "duration" 1)) = false :=
          Bool.eq_false_iff.2 fun late => not_le_of_gt early (Clock.reaches_iff.1 late)
        obtain ⟨is_, -⟩ := evaluate_of_early is running inTime child rest
        rw [is_]

/-- On the exact clock, in runs without negative durations: from the tick on in which its child has
begun to run, a timeout is evaluated in every tick until it ends or is cleared. Where the ticks
since together have come up to the limit it fails and cuts its child short, and otherwise
it evaluates the child and passes on what it gives. -/
theorem timeout_law {t : CompiledTree} {path : List Nat} {node : Tree CompiledNode}
    (at_ : t.root.at? path = some node) (is : node.label.behavior = .decorator .timeout)
    (config : ExecutorConfig) (entropy : Nat) (s : SharedBlackboard)
    (calls : List (Executor.Call ℚ)) {before since : List (Pass ℚ)} {first now : Pass ℚ}
    (run : before ++ [first] ++ since ++ [now] <+:
      (Executor.new t config entropy : Executor ℚ).passes s calls)
    (forward : ∀ pass ∈ before ++ [first] ++ since ++ [now], 0 ≤ pass.time.delta) :
    let waited := replay (LiveTree.ofCompiled t.root) before
    let begun := replay waited [first]
    let tree := replay begun since
    waited.statusAt? (path ++ [0]) ≠ some .running → begun.statusAt? (path ++ [0]) = some .running →
      (∀ event ∈ events path begun since, ¬ event.Ends) →
      (∀ event ∈ events path begun since, ∃ e, event = .evaluated e) ∧
        (now.event path tree = .cleared ∨ ∃ e state child rest, now.event path tree = .evaluated e ∧
          tree.at? path = some (.node ⟨node.label, state⟩ (child :: rest)) ∧
          let limit := (e.world.number node.label "duration" 1).toRat
          let elapsed := totalTime (since ++ [now])
          (limit ≤ elapsed + Clock.tolerance →
            CutsShort now tree path node.label state child rest e) ∧
          (elapsed + Clock.tolerance < limit → e.children = [(0, e.status)])) := by
  intro waited begun tree still runs lasts
  have timed := (Executor.follows_performAll (.new t config entropy) s calls).timed
  obtain ⟨later, passes_eq⟩ := run
  rw [← passes_eq] at timed
  obtain ⟨timed, -⟩ := Executor.timed_append.1 timed
  obtain ⟨timed, last⟩ := Executor.timed_append.1 timed
  obtain ⟨timed, between⟩ := Executor.timed_append.1 timed
  have forward (pass : Pass ℚ) (mem : pass ∈ before ++ [first] ++ since ++ [now]) :
      Clock.atMost Clock.zero pass.time.delta := decide_eq_true (forward pass mem)
  obtain ⟨forward, forward_now⟩ := List.forall_mem_append.1 forward
  obtain ⟨forward, forward_since⟩ := List.forall_mem_append.1 forward
  obtain ⟨sound, future⟩ := sound_replay (LiveTree.sound_ofCompiled _ t.root)
    LawfulClock.zero_atMost_zero timed forward
  obtain ⟨sound', future'⟩ := sound_replay sound future between forward_since
  rw [replay_append] at sound sound'
  obtain ⟨live, at_live, label, counts⟩ := countsRunning_replay at_ is before
  have status {t live : LiveTree ℚ} (at_ : t.at? path = some live) :
      t.statusAt? (path ++ [0]) = live.statusAt? [0] := by
    rw [LiveTree.statusAt?, Tree.at?_append, at_]
    rfl
  obtain ⟨live', at_live', happens⟩ := first.happens at_live
  have waits : Waiting node.label 0 live' := by
    rw [← label] at is ⊢
    exact .begins is counts (status at_live ▸ still) happens (status at_live' ▸ runs)
  obtain ⟨⟨live'', at_live'', waits'⟩, evaluated⟩ :=
    waiting_replay is sound future between forward_since lasts at_live' waits
  refine ⟨evaluated, ?_⟩
  rw [Executor.timeAfter_append] at last
  have decided := waits'.pass is sound' future' last (forward_now now List.mem_cons_self) at_live''
  rcases decided with cleared | ⟨e, state, child, rest, happens, rfl, late, early⟩
  · exact .inl cleared
  have elapsed : totalTime (since ++ [now]) = 0 + totalTime since + now.time.delta := by
    simp [totalTime]
  rw [elapsed]
  exact .inr ⟨e, state, child, rest, happens, at_live'', late, early⟩

/-- A sequence with a child that never ends, below a timeout of two seconds. -/
def limitedTree : CompiledTree :=
  let compiled (id : String) (kind : NodeKind) (behavior : Behavior) : CompiledNode :=
    { id := id, typeId := id, kind := kind, config := .ofList [("duration", .number 2)],
      bindings := .empty, behavior := behavior }
  let leaf (id : String) (status : Status) : Tree CompiledNode :=
    .node (compiled id .action (.handler (.static id status))) []
  ⟨.node (compiled "root" .root .root) [.node (compiled "limit" .decorator (.decorator .timeout))
    [.node (compiled "sequence" .composite (.composite .sequence))
      [leaf "done" .success, leaf "wait" .running]]], []⟩

theorem timeout_law_two_seconds :
    let passes := (Executor.new limitedTree {} 0 : Executor ℚ).passes {}
      [.start, .tick 1, .tick (1 / 2), .tick (3 / 2)]
    ∃ before first second third, passes = [before, first, second, third] ∧
      passes.map (·.time.delta) = [0, 1, 1 / 2, 3 / 2] ∧
      let tree := replay (LiveTree.ofCompiled limitedTree.root) [before, first, second]
      tree.statusAt? [0, 0] = some .running ∧ ∃ e n state child rest,
        third.event [0] tree = .evaluated e ∧ CutsShort third tree [0] n state child rest e := by
  intro passes
  let start : LiveTree ℚ := LiveTree.ofCompiled limitedTree.root
  have deltas : passes.map (·.time.delta) = [0, 1, 1 / 2, 3 / 2] := by decide +kernel
  have still : (replay start (passes.take 1)).statusAt? [0, 0] ≠ some .running := by decide +kernel
  have begins : (replay start (passes.take 2)).statusAt? [0, 0] = some .running := by
    decide +kernel
  have runs : (replay start (passes.take 3)).statusAt? [0, 0] = some .running := by decide +kernel
  have lasts : ∀ event ∈ events [0] (replay start (passes.take 2)) ((passes.drop 2).take 1),
      ¬ event.Ends := by
    decide +kernel
  have ends : (passes.drop 3).map (fun pass =>
      (pass.event [0] (replay start (passes.take 3))).results?) = [some ([], .failure)] := by
    decide +kernel
  have four : passes.length = 4 := by rw [← List.length_map, deltas]; rfl
  obtain ⟨before, first, second, third, all⟩ :
      ∃ before first second third, passes = [before, first, second, third] := by
    match passes, four with
    | [before, first, second, third], _ => exact ⟨before, first, second, third, rfl⟩
  refine ⟨before, first, second, third, all, deltas, ?_⟩
  rw [all] at deltas still begins runs lasts ends
  refine ⟨runs, ?_⟩
  have forward : ∀ pass ∈ [before, first, second, third], 0 ≤ pass.time.delta := by
    rw [← List.forall_mem_map (P := (0 ≤ ·)), deltas]
    decide +kernel
  have run : [before] ++ [first] ++ [second] ++ [third] <+: passes := by
    rw [all]
    exact List.prefix_refl _
  have at_ : limitedTree.root.at? [0] = some _ := rfl
  obtain ⟨-, cleared | ⟨e, state, child, rest, happens, -, late, -⟩⟩ :=
    timeout_law at_ rfl {} 0 {} _ run forward still begins lasts
  · have none := congrArg Event.results? cleared
    cases none.symm.trans (List.cons.inj ends).1
  have elapsed : totalTime ([second] ++ [third]) = [1 / 2, 3 / 2].sum :=
    congrArg (fun times => (times.drop 2).sum) deltas
  refine ⟨e, _, state, child, rest, happens, late ?_⟩
  rw [elapsed]
  show (2 : Number).toRat ≤ _
  decide +kernel

end BehaviorTree
