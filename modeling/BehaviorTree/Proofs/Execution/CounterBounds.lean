import BehaviorTree.Proofs.Execution.Counting

/-!
# How far counters go

A repeat and a retry add one to their counter whenever their child gives a status that they count
(`Executor.raises`). So in every run a counter is at most the number of ticks, and at most a count
that is enough for the decorator to end on every evaluation (`counters_bounded`). Nothing else holds
it back: a repeat that goes on forever takes it past 32 bits in `2 ^ 32` ticks
(`counter_past_32_bits`).
-/

namespace BehaviorTree

/-- Whether a decorator counts a status of its child. A retry takes idle for a failure. -/
def DecoratorKind.counts : DecoratorKind → Status → Bool
  | .repeat, .success | .retry, .failure | .retry, .idle => true
  | _, _ => false

variable {T : Type} [Clock T]

/-- What a pass raises the counter of the decorator at a path to, if its child gives it something to
count. -/
def Pass.raise? (pass : Pass T) (kind : DecoratorKind) (path : List Nat) (t : LiveTree T) :
    Option Nat :=
  match pass.event path t, t.at? path with
  | .evaluated e, some live =>
    if e.children.any (kind.counts ·.2) then some (live.label.state.counter + 1) else none
  | _, _ => none

/-- What passes raise the counter of a decorator to, one after the other. -/
def raises (kind : DecoratorKind) (path : List Nat) : LiveTree T → List (Pass T) → List Nat
  | _, [] => []
  | t, pass :: later => (pass.raise? kind path t).toList ++ raises kind path (pass.apply t) later

/-- What a run of a compiled tree raises the counter of a decorator to, one after the other. -/
def Executor.raises (t : CompiledTree) (config : ExecutorConfig) (entropy : Nat)
    (s : SharedBlackboard) (calls : List (Call T)) (kind : DecoratorKind) (path : List Nat) :
    List Nat :=
  BehaviorTree.raises kind path (.ofCompiled t.root)
    ((new t config entropy : Executor T).passes s calls)

/-! ## One evaluation -/

/-- The limit that a decorator that counts reads when it is evaluated. -/
def DecoratorKind.limit (kind : DecoratorKind) (n : CompiledNode) (w : World) : Number :=
  match kind with
  | .retry => (w.number n "attempts" 3).maximum 1
  | _ => w.number n "count" 1

section Evaluation

variable {kind : DecoratorKind} {n : CompiledNode} {state : NodeState T} {w : World}
  {time : TickTime T} {limit : Number} {status : Status}

theorem enter_of_counting (counting : kind = .repeat ∨ kind = .retry) :
    enterDecorator time kind n state w = .proceed state (kind.limit n w) := by
  rcases counting with rfl | rfl <;> rfl

/-- What a decorator that counts makes of its counter. -/
theorem counter_of_leave (counting : kind = .repeat ∨ kind = .retry) :
    (leaveDecorator time kind limit state status).2.counter =
      if status = .running then state.counter
      else if kind.counts status ∧ ¬ kind.enough limit (state.counter + 1) then state.counter + 1
      else 0 := by
  rcases counting with rfl | rfl <;> cases status <;>
    simp only [leaveDecorator, DecoratorKind.counts, DecoratorKind.enough] <;> split <;> simp_all

/-- An evaluation raises the counter by one at most, and not to a count that is enough. -/
theorem counter_of_evaluate (is : n.behavior = .decorator kind)
    (counting : kind = .repeat ∨ kind = .retry) (state : NodeState T)
    (children : List (LiveTree T)) (time : TickTime T) (w : World) :
    let after := (evaluate time (.node ⟨n, state⟩ children) w).1.label.state.counter
    after ≤ state.counter + 1 ∧
      ∀ most, kind.enough (kind.limit n w) most → state.counter < most → after < most := by
  intro after
  cases children with
  | nil =>
    have same : after = state.counter := by
      simp only [after, (evaluate_of_bare is time state w).1]
      rfl
    rw [same]
    exact ⟨Nat.le_succ _, fun _ _ below => below⟩
  | cons child rest =>
    have left : after = (leaveDecorator time kind (kind.limit n w) state
        (evaluate time child w).1.status).2.counter := by
      simp only [after, (evaluate_of_proceed is (enter_of_counting counting) child rest).1]
      rfl
    rw [left, counter_of_leave counting]
    refine ⟨by split_ifs <;> omega, fun most enough below => ?_⟩
    split_ifs with runs more
    · exact below
    · refine Nat.lt_of_le_of_ne below fun full => more.2 ?_
      have full : state.counter + 1 = most := full
      rwa [full]
    · exact Nat.zero_lt_of_lt below

end Evaluation

/-! ## Passes -/

section Passes

variable {kind : DecoratorKind} {n : CompiledNode} {path : List Nat} {t live : LiveTree T}
  {pass : Pass T} {m : Nat}

/-- A counter is raised by one, in an evaluation. -/
theorem Pass.of_raise? (raised : pass.raise? kind path t = some m) :
    ∃ e live, pass.event path t = .evaluated e ∧ t.at? path = some live ∧
      m = live.label.state.counter + 1 := by
  rw [raise?] at raised
  split at raised
  · rename_i e live happens at_
    split_ifs at raised
    exact ⟨e, live, happens, at_, (Option.some.inj raised).symm⟩
  · cases raised

theorem mem_raises {passes : List (Pass T)} :
    m ∈ raises kind path t passes ↔
      ∃ i, ∃ pass : Pass T, passes[i]? = some pass ∧
        pass.raise? kind path (replay t (passes.take i)) = some m := by
  induction passes generalizing t with
  | nil => simp [raises]
  | cons pass later ih =>
    rw [raises, List.mem_append, ih, Option.mem_toList]
    constructor
    · rintro (here | ⟨i, other, at_i, raised⟩)
      · exact ⟨0, pass, rfl, here⟩
      · exact ⟨i + 1, other, at_i, raised⟩
    · rintro ⟨_ | i, other, at_i, raised⟩
      · obtain rfl := Option.some.inj at_i
        exact .inl raised
      · exact .inr ⟨i, other, at_i, raised⟩

theorem raises_append (kind : DecoratorKind) (path : List Nat) (t : LiveTree T)
    (passes later : List (Pass T)) :
    raises kind path t (passes ++ later) =
      raises kind path t passes ++ raises kind path (replay t passes) later := by
  induction passes generalizing t with
  | nil => rfl
  | cons pass passes ih => simp only [List.cons_append, raises, ih, List.append_assoc]; rfl

theorem Executor.passes_append (e : Executor T) (s : SharedBlackboard)
    (calls later : List (Call T)) :
    e.passes s (calls ++ later) =
      let first := e.performAll s calls
      e.passes s calls ++ first.executor.passes first.shared later := by
  induction calls generalizing e s with
  | nil => rfl
  | cons c calls ih => simp only [List.cons_append, passes, ih, List.append_assoc]; rfl

/-- A reset evaluates nothing. -/
theorem Pass.event_reset (at_ : t.at? path = some live) :
    (Pass.reset : Pass T).event path t = .cleared := by
  rw [event, trace, inside_cuts at_, Event.ofTrace, own_cuts]

/-- What the counter of a decorator that counts has come to after passes. -/
structure CounterBound (kind : DecoratorKind) (n : CompiledNode) (ticks : Nat)
    (events : List (Event T)) (live : LiveTree T) : Prop where
  node : live.label.node = n
  le_ticks : live.label.state.counter ≤ ticks
  below : ∀ most, 0 < most → (∀ e, .evaluated e ∈ events → kind.enough (kind.limit n e.world) most) →
    live.label.state.counter < most

/-- One pass adds one to the counter at most. -/
theorem CounterBound.goOn {count : Nat} {events : List (Event T)}
    (is : n.behavior = .decorator kind) (counting : kind = .repeat ∨ kind = .retry)
    (bound : CounterBound kind n count events live) (at_ : t.at? path = some live) (pass : Pass T) :
    ∃ live', (pass.apply t).at? path = some live' ∧
      CounterBound kind n (count + (ticks t [pass]).length) (events ++ [pass.event path t])
        live' := by
  obtain ⟨live', at', happens⟩ := pass.happens at_
  refine ⟨live', at', ?_⟩
  have cleared : CounterBound kind n (count + (ticks t [pass]).length)
      (events ++ [pass.event path t]) live.reset := by
    obtain ⟨⟨n', state⟩, children⟩ := live
    exact ⟨bound.node, Nat.zero_le _, fun most positive _ => positive⟩
  have left : CounterBound kind n (count + (ticks t [pass]).length)
      (events ++ [pass.event path t]) live :=
    ⟨bound.node, Nat.le_add_right_of_le bound.le_ticks, fun most positive enough =>
      bound.below most positive fun e mem => enough e (List.mem_append_left _ mem)⟩
  generalize happened : pass.event path t = event at happens left cleared ⊢
  cases happens with
  | left => exact left
  | cleared => exact cleared
  | evaluated time w =>
    cases pass with
    | reset => cases (Pass.event_reset at_).symm.trans happened
    | tick time' w' =>
      obtain ⟨⟨n', state⟩, children⟩ := live
      obtain rfl : n' = n := bound.node
      obtain ⟨le, below⟩ := counter_of_evaluate is counting state children time w
      refine ⟨?_, le.trans (Nat.succ_le_succ bound.le_ticks), fun most positive enough => ?_⟩
      · rw [← LiveTree.label_compiled, compiled_evaluate, LiveTree.label_compiled]
        rfl
      · have now : kind.enough (kind.limit n' w) most :=
          enough (.of time _ w) (List.mem_append_right _ List.mem_cons_self)
        exact below most now <| bound.below most positive fun e mem =>
          enough e (List.mem_append_left _ mem)

/-- So in passes over a new tree the counter is bounded. -/
theorem counterBound_replay {node : Tree CompiledNode} {root : Tree CompiledNode}
    (at_ : root.at? path = some node) (is : node.label.behavior = .decorator kind)
    (counting : kind = .repeat ∨ kind = .retry) (passes : List (Pass T)) :
    let t : LiveTree T := .ofCompiled root
    ∃ live, (replay t passes).at? path = some live ∧
      CounterBound kind node.label (ticks t passes).length (events path t passes) live := by
  intro t
  -- From the end, since the bound after a pass comes from the one before it.
  induction passes using List.reverseRecOn with
  | nil =>
    refine ⟨_, at?_ofCompiled at_, ?_⟩
    obtain ⟨n, children⟩ := node
    exact ⟨rfl, Nat.zero_le _, fun most positive _ => positive⟩
  | append_singleton passes pass ih =>
    obtain ⟨live, at_, bound⟩ := ih
    obtain ⟨live', at', bound'⟩ := bound.goOn is counting at_ pass
    refine ⟨live', ?_, ?_⟩
    · rw [replay_append]
      exact at'
    · rw [ticks_append, List.length_append, events_append]
      exact bound'

end Passes

/-- How far counters go: in every run of every compiled tree, a repeat or retry raises its counter to
the number of ticks at most, and to no more than a count that is enough to end on every evaluation
of it. -/
theorem counters_bounded {t : CompiledTree} {path : List Nat} {node : Tree CompiledNode}
    (at_ : t.root.at? path = some node) {kind : DecoratorKind}
    (is : node.label.behavior = .decorator kind) (counting : kind = .repeat ∨ kind = .retry)
    (config : ExecutorConfig) (entropy : Nat) (s : SharedBlackboard)
    (calls : List (Executor.Call T)) :
    let e : Executor T := .new t config entropy
    ∀ m ∈ Executor.raises t config entropy s calls kind path,
      m ≤ (e.performAll s calls).reports.length ∧
      ∀ most, 0 < most → (∀ e, .evaluated e ∈ Executor.history t config entropy s calls path →
        kind.enough (kind.limit node.label e.world) most) → m ≤ most := by
  intro e m mem
  obtain ⟨i, pass, at_i, raised⟩ := mem_raises.1 mem
  obtain ⟨evaluation, live, happens, at_live, rfl⟩ := pass.of_raise? raised
  obtain ⟨_, at_live', bound⟩ := counterBound_replay (T := T) at_ is counting
    ((e.passes s calls).take i)
  obtain rfl := Option.some.inj (at_live.symm.trans at_live')
  refine ⟨?_, fun most positive enough => ?_⟩
  · have told := (Executor.follows_performAll e s calls).told _ rfl
    obtain ⟨inside, rfl⟩ := List.getElem?_eq_some_iff.1 at_i
    rw [← told.length_eq, ← List.take_append_drop i (e.passes s calls), ticks_append,
      List.drop_eq_getElem_cons inside, List.length_append]
    refine Nat.add_le_add bound.le_ticks ?_
    cases is : (e.passes s calls)[i] with
    | reset =>
      rw [is, Pass.event_reset at_live] at happens
      cases happens
    | tick time w => exact Nat.succ_le_succ (Nat.zero_le _)
  · refine bound.below most positive fun e mem => enough e ?_
    rw [← take_events] at mem
    exact List.mem_of_mem_take mem

/-! ## A repeat that goes on forever -/

namespace Repeating

def top : CompiledNode := ⟨⟨"root", "root", .root, .empty, .empty⟩, .root⟩

def loop (count : Number) : CompiledNode :=
  ⟨⟨"loop", "repeat", .decorator, .ofList [("count", .number count)], .empty⟩,
    .decorator .repeat⟩

def body : CompiledNode :=
  ⟨⟨"body", TypeId.succeed, .action, .empty, .empty⟩, .handler (.static TypeId.succeed .success)⟩

/-- A root above a repeat of a leaf that succeeds. -/
def tree (count : Number) : CompiledTree := ⟨.node top [.node (loop count) [.node body []]], []⟩

/-- The repeat in the middle of a run. -/
def liveLoop (count : Number) (state leaf : NodeState T) : LiveTree T :=
  .node ⟨loop count, state⟩ [.node ⟨body, leaf⟩ []]

/-- The tree in the middle of a run. -/
def liveTree (count : Number) (state inner leaf : NodeState T) : LiveTree T :=
  .node ⟨top, state⟩ [liveLoop count inner leaf]

end Repeating

/-- A repeat of two ends on every second tick. -/
theorem counters_bounded_twice :
    let calls : List (Executor.Call Number) := [.start, .tick 1, .tick 1, .tick 1, .stop, .step]
    let raises := Executor.raises (Repeating.tree 2) {} 0 {} calls .repeat [0]
    raises = [1, 2, 1, 1] ∧ ∀ m ∈ raises, m ≤ 2 := by
  intro calls raises
  refine ⟨by decide +kernel, fun m mem => ?_⟩
  refine (counters_bounded rfl rfl (.inl rfl) {} 0 {} calls m mem).2 2 (by decide) fun e _ => ?_
  show DecoratorKind.enough .repeat 2 2 = true
  decide +kernel

namespace Repeating

variable {count : Number}

/-- A count below one is never reached. -/
theorem evaluate_loop (below : Number.atMost 1 count = false) (state leaf : NodeState T)
    (time : TickTime T) (w : World) :
    ∃ state' leaf', (evaluate time (liveLoop count state leaf) w).1 = liveLoop count state' leaf' ∧
      state'.counter = state.counter + 1 ∧
      Evaluation.of time (liveLoop count state leaf) w = ⟨time, w, [(0, .success)], .running⟩ := by
  have success : (evaluate time (.node ⟨body, leaf⟩ []) w).1.status = .success := by
    rw [evaluate_of_handler rfl]
    rfl
  have entry : enterDecorator time .repeat (loop count) state w = .proceed state _ :=
    enter_of_counting (.inl rfl)
  obtain ⟨evaluated, gives⟩ := evaluate_of_proceed rfl entry (.node ⟨body, leaf⟩ []) []
  have goesOn : leaveDecorator time .repeat (DecoratorKind.limit .repeat (loop count) w) state
      .success = (.running, { state with counter := state.counter + 1 }) := by
    show leaveDecorator time .repeat count state .success = _
    simp only [leaveDecorator, below, Bool.false_and, Bool.false_eq_true, if_false]
  have leaf_after : ∃ leaf', (evaluate time (.node ⟨body, leaf⟩ []) w).1 = .node ⟨body, leaf'⟩ [] := by
    rw [evaluate_of_handler rfl]
    exact ⟨_, rfl⟩
  obtain ⟨leaf', same⟩ := leaf_after
  rw [success, goesOn] at evaluated gives
  refine ⟨{ state with counter := state.counter + 1, status := .running }, leaf', ?_, rfl, gives⟩
  rw [liveLoop, evaluated, same]
  rfl

/-- Nor is the tree ever done, and each tick counts. -/
theorem apply_tick (below : Number.atMost 1 count = false) (state inner leaf : NodeState T)
    (time : TickTime T) (w : World) :
    ∃ state' inner' leaf', (evaluate time (liveTree count state inner leaf) w).1 =
        liveTree count state' inner' leaf' ∧
      inner'.counter = inner.counter + 1 ∧
      (Pass.tick time w).raise? .repeat [0] (liveTree count state inner leaf) =
        some (inner.counter + 1) := by
  obtain ⟨inner', leaf', after, counter, gives⟩ := evaluate_loop below inner leaf time w
  have event : (Pass.tick time w).event [0] (liveTree count state inner leaf) =
      .evaluated ⟨time, w, [(0, .success)], .running⟩ := by
    have traced : (visits time (liveTree count state inner leaf) w).inside [0] =
        visits time (liveLoop count inner leaf) w := by
      rw [liveTree, show visits time (.node ⟨top, state⟩ [liveLoop count inner leaf]) w = _ from
        visits.eq_def ..]
      simp only [top, Trace.inside, Trace.child_append, Trace.child_below, Trace.child_self,
        List.append_nil]
    rw [Pass.event, Pass.trace, traced, Event.ofTrace, own_visits, ← gives]
    rfl
  refine ⟨{ state with status := inner'.status }, inner', leaf', ?_, counter, ?_⟩
  · rw [liveTree, evaluate_of_root rfl, after]
    rfl
  · rw [Pass.raise?, event]
    rfl

/-- A run of ticks of one length. -/
def calls (delta : T) (ticks : Nat) : List (Executor.Call T) :=
  .start :: List.replicate ticks (.tick delta)

/-- After a number of ticks the counter stands at it. -/
structure At (count : Number) (ticks : Nat) (o : Executor.Outcome T) : Prop where
  running : o.executor.state = .running
  tree : ∃ state inner leaf, o.executor.tree = some (liveTree count state inner leaf) ∧
    inner.counter = ticks
  reports : o.reports.length = ticks

omit [Clock T] in
theorem calls_succ (delta : T) (ticks : Nat) :
    calls delta (ticks + 1) = calls delta ticks ++ [.tick delta] := by
  rw [calls, List.replicate_succ']
  rfl

theorem at_calls (below : Number.atMost 1 count = false) (delta : T) (ticks : Nat) :
    At count ticks
      ((Executor.new (tree count) {} 0 : Executor T).performAll {} (calls delta ticks)) := by
  induction ticks with
  | zero => exact ⟨rfl, ⟨_, _, _, rfl, rfl⟩, rfl⟩
  | succ ticks ih =>
    rw [calls_succ, Executor.performAll_append]
    generalize (Executor.new (tree count) {} 0 : Executor T).performAll {} (calls delta ticks) = o
      at ih ⊢
    obtain ⟨running, ⟨state, inner, leaf, alive, rfl⟩, reports⟩ := ih
    have accepted : o.executor.call o.shared (.tick delta) = _ :=
      Executor.call_eq_ok.2 (.tick running alive)
    have ticked := Executor.perform_of_accepted accepted
    obtain ⟨state', inner', leaf', after, counter, -⟩ :=
      apply_tick below state inner leaf ⟨delta, Clock.add o.executor.elapsed delta, _⟩ _
    simp only [Executor.performAll, ticked]
    refine ⟨running, ⟨state', inner', leaf', congrArg some after, counter⟩, ?_⟩
    show (o.reports ++ [_]).length = _
    rw [List.length_append, reports]
    rfl

/-- In each tick the repeat counts one more. -/
theorem mem_raises_calls (below : Number.atMost 1 count = false) (delta : T) {ticks : Nat}
    (positive : 0 < ticks) :
    ticks ∈ Executor.raises (tree count) {} 0 {} (calls delta ticks) .repeat [0] := by
  obtain ⟨ticks, rfl⟩ := Nat.exists_eq_add_one_of_ne_zero positive.ne'
  let e : Executor T := .new (tree count) {} 0
  let o := e.performAll {} (calls delta ticks)
  obtain ⟨running, ⟨state, inner, leaf, alive, counter⟩, -⟩ := at_calls below delta ticks
  obtain ⟨_, is, here⟩ := (Executor.follows_performAll e {} (calls delta ticks)).tree _ alive
  obtain rfl := Option.some.inj is
  have accepted : o.executor.call o.shared (.tick delta) = _ :=
    Executor.call_eq_ok.2 (.tick running alive)
  have last : o.executor.callPasses o.shared (.tick delta) = [o.executor.pass delta o.shared] := by
    rw [Executor.callPasses, accepted]
  have raised (time : TickTime T) (w : World) :
      (Pass.tick time w).raise? .repeat [0] (liveTree count state inner leaf) =
        some (inner.counter + 1) := by
    obtain ⟨_, _, _, -, -, raised⟩ := apply_tick below state inner leaf time w
    exact raised
  rw [Executor.raises, calls_succ, Executor.passes_append, raises_append]
  refine List.mem_append_right _ ?_
  show _ ∈ raises .repeat [0] (replay _ (e.passes {} (calls delta ticks)))
    (o.executor.callPasses o.shared (.tick delta) ++ [])
  rw [← here, last, List.append_nil, raises, Executor.pass, raised, counter]
  exact List.mem_cons_self

end Repeating

/-- A repeat that goes on forever takes its counter past 32 bits in as many ticks. -/
theorem counter_past_32_bits :
    let calls := Repeating.calls (1 : Number) (2 ^ 32)
    let e : Executor Number := .new (Repeating.tree 0) {} 0
    (e.performAll {} calls).reports.length = 2 ^ 32 ∧
      ∃ m ∈ Executor.raises (Repeating.tree 0) {} 0 {} calls .repeat [0], UInt32.size ≤ m := by
  have below : Number.atMost 1 0 = false := by decide +kernel
  exact ⟨(Repeating.at_calls below 1 (2 ^ 32)).reports, 2 ^ 32,
    Repeating.mem_raises_calls below 1 (by decide), by decide⟩

end BehaviorTree
