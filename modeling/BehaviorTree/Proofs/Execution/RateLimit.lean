import BehaviorTree.Proofs.Execution.TimeLimit

/-!
# Rate limits

When the child of a cooldown comes to an end, a gate closes until a deadline. Nothing but a later
end moves the deadline, and only clearing the cooldown takes it away, so it is told by the ends of
the child since then (`ends`, `gate_replay`). On a clock that goes forward the deadlines of all of
them but the last one have passed (`paced_replay`). So ends of the child keep the distance that was
read at the first one, and an evaluation that comes too early leaves the child alone (`CooldownLaw`,
`cooldown_law`).
-/

namespace BehaviorTree

variable {T : Type}

/-! ## Ends of a child -/

/-- Whether a child came to an end in an evaluation. -/
def Evaluation.Resolves (e : Evaluation T) : Prop :=
  ∃ result ∈ e.children, result.2.isResolved = true

instance (e : Evaluation T) : Decidable e.Resolves :=
  inferInstanceAs (Decidable (∃ result ∈ e.children, result.2.isResolved = true))

/-- The evaluations in which a child came to an end, after one more event. -/
def Event.endsAfter (earlier : List (Evaluation T)) : Event T → List (Evaluation T)
  | left => earlier
  | cleared => []
  | evaluated e => if e.Resolves then earlier ++ [e] else earlier

/-- The evaluations in which a child came to an end since the node was last cleared. -/
def ends (events : List (Event T)) : List (Evaluation T) := events.foldl Event.endsAfter []

@[simp]
theorem ends_append_singleton (events : List (Event T)) (event : Event T) :
    ends (events ++ [event]) = event.endsAfter (ends events) := by
  rw [ends, List.foldl_append]
  rfl

/-- What is in a list with one more thing at its end, and is followed only by things of some
kind. -/
theorem exists_concat_eq_append_cons {α : Type} {P : α → Prop} {list : List α} {last x : α} :
    (∃ earlier later, list ++ [last] = earlier ++ x :: later ∧ ∀ y ∈ later, P y) ↔
      last = x ∨ P last ∧ ∃ earlier later, list = earlier ++ x :: later ∧ ∀ y ∈ later, P y := by
  constructor
  · rintro ⟨earlier, later, all, kind⟩
    rcases List.eq_nil_or_concat later with rfl | ⟨later, y, rfl⟩
    · exact .inl (List.cons.inj (List.append_inj' all rfl).2).1
    · rw [List.concat_eq_append] at all kind
      rw [← List.cons_append, ← List.append_assoc] at all
      obtain ⟨rfl, one⟩ := List.append_inj' all rfl
      obtain rfl := (List.cons.inj one).1
      obtain ⟨others, here⟩ := List.forall_mem_append.1 kind
      exact .inr ⟨here _ List.mem_cons_self, earlier, later, rfl, others⟩
  · rintro (rfl | ⟨here, earlier, later, rfl, others⟩)
    · exact ⟨list, [], rfl, nofun⟩
    · refine ⟨earlier, later ++ [last], by simp, ?_⟩
      exact List.forall_mem_append.2 ⟨others, List.forall_mem_singleton.2 here⟩

/-- An end counts until the node is cleared. -/
theorem mem_ends_iff {events : List (Event T)} {e : Evaluation T} :
    e ∈ ends events ↔ e.Resolves ∧ ∃ earlier later, events = earlier ++ .evaluated e :: later ∧
      ∀ event ∈ later, event ≠ .cleared := by
  induction events using List.reverseRecOn with
  | nil =>
    refine ⟨nofun, fun ⟨_, earlier, later, all, _⟩ => ?_⟩
    exact absurd all.symm (List.append_ne_nil_of_right_ne_nil _ (List.cons_ne_nil _ _))
  | append_singleton events event ih =>
    rw [ends_append_singleton, exists_concat_eq_append_cons]
    cases event with
    | left => simp [Event.endsAfter, ih]
    | cleared => simp [Event.endsAfter]
    | evaluated now =>
      rw [Event.endsAfter]
      split_ifs with resolves
      · rw [List.mem_append, ih, List.mem_singleton]
        aesop
      · rw [ih]
        aesop

variable [Clock T]

/-- When a cooldown lets its child run again after an evaluation in which the child came to an
end. The duration is read when the evaluation begins. -/
def Evaluation.deadline (n : CompiledNode) (e : Evaluation T) : T :=
  Clock.add e.time.now (Clock.ofNumber (e.world.number n "duration" 1))

/-- The deadline until which a gate stays closed. -/
def gate (n : CompiledNode) (ends : List (Evaluation T)) : Option T :=
  ends.getLast?.map (·.deadline n)

theorem gate_append_singleton (n : CompiledNode) (ends : List (Evaluation T)) (e : Evaluation T) :
    gate n (ends ++ [e]) = some (e.deadline n) := by
  rw [gate, List.getLast?_append]
  rfl

/-! ## One evaluation -/

section Cooldowns

variable {time : TickTime T} {n : CompiledNode} {state : NodeState T} {w : World}

/-- While the gate of a cooldown is closed, it fails and its child is left alone. -/
theorem evaluate_of_closed (is : n.behavior = .decorator .cooldown) {readyAt : T}
    (set : state.readyAt = some readyAt) (before : Clock.isBefore time.now readyAt = true)
    (children : List (LiveTree T)) :
    evaluate time (.node ⟨n, state⟩ children) w = finish n state .failure children w ∧
      visits time (.node ⟨n, state⟩ children) w = [([], .evaluated w .failure)] := by
  cases children with
  | nil => exact evaluate_of_bare is time state w
  | cons child rest =>
    have entry : enterDecorator time .cooldown n state w = .refuse := by
      simp only [enterDecorator, set, before, if_true]
    exact evaluate_of_refuse is entry child rest

/-- While it is open, the child is evaluated, and closes the gate if it comes to an end. -/
theorem evaluate_of_open (is : n.behavior = .decorator .cooldown) (open_ : state.Open time.now)
    (child : LiveTree T) (rest : List (LiveTree T)) :
    let status := (evaluate time child w).1.status
    let e := Evaluation.of time (.node ⟨n, state⟩ (child :: rest)) w
    e = ⟨time, w, [(0, status)], status⟩ ∧
      (evaluate time (.node ⟨n, state⟩ (child :: rest)) w).1.label.state.readyAt =
        if e.Resolves then some (e.deadline n) else state.readyAt := by
  intro status e
  have entry : enterDecorator time .cooldown n state w =
      .proceed state (w.number n "duration" 1) := by
    simp only [enterDecorator]
    split
    · rename_i readyAt set
      rw [open_ readyAt set, if_neg Bool.false_ne_true]
    · rfl
  obtain ⟨evaluated, is_⟩ := evaluate_of_proceed is entry child rest
  have gives (child : Status) :
      leaveDecorator time .cooldown (w.number n "duration" 1) state child =
        (child, if child.isResolved then
          { state with
            readyAt := some (Clock.add time.now (Clock.ofNumber (w.number n "duration" 1))) }
          else state) := by
    simp only [leaveDecorator]
    split <;> rfl
  have result : e = ⟨time, w, [(0, status)], status⟩ := by
    rw [gives] at is_
    exact is_
  refine ⟨result, ?_⟩
  rw [evaluated, gives, result]
  simp only [Evaluation.Resolves, List.exists_mem_cons_iff, List.not_mem_nil, false_and,
    exists_false, or_false, finish, Tree.label]
  split <;> rfl

/-- Either the gate of a cooldown is closed or it is open. -/
theorem NodeState.closed_or_open (state : NodeState T) (now : T) :
    (∃ readyAt, state.readyAt = some readyAt ∧ Clock.isBefore now readyAt = true) ∨
      state.Open now := by
  by_cases open_ : state.Open now
  · exact .inr open_
  · simp only [NodeState.Open, not_forall, Bool.not_eq_false] at open_
    obtain ⟨readyAt, set, before⟩ := open_
    exact .inl ⟨readyAt, set, before⟩

/-- What happens to a cooldown moves its gate to the deadline of the last end of its child. -/
theorem Happens.gate {live live' : LiveTree T} {event : Event T} {earlier : List (Evaluation T)}
    (happens : Happens live event live') (is : live.label.node.behavior = .decorator .cooldown)
    (set : live.label.state.readyAt = BehaviorTree.gate live.label.node earlier) :
    live'.label.state.readyAt = BehaviorTree.gate live.label.node (event.endsAfter earlier) := by
  obtain ⟨⟨n, state⟩, children⟩ := live
  change n.behavior = .decorator .cooldown at is
  change state.readyAt = BehaviorTree.gate n earlier at set
  show live'.label.state.readyAt = BehaviorTree.gate n (event.endsAfter earlier)
  cases happens with
  | left => exact set
  | cleared => rfl
  | evaluated time w =>
    have idle {e : Evaluation T} (none : e.children = []) : ¬ e.Resolves := by
      simp [Evaluation.Resolves, none]
    cases children with
    | nil =>
      obtain ⟨evaluated, traced⟩ := evaluate_of_bare is time state w
      rw [evaluated, Event.endsAfter, if_neg (idle _)]
      · exact set
      · rw [Evaluation.of, traced]
        rfl
    | cons child rest =>
      rcases state.closed_or_open time.now with ⟨readyAt, was, before⟩ | open_
      · obtain ⟨evaluated, traced⟩ := evaluate_of_closed (w := w) is was before (child :: rest)
        rw [evaluated, Event.endsAfter, if_neg (idle _)]
        · exact set
        · rw [Evaluation.of, traced]
          rfl
      · obtain ⟨-, readyAt⟩ := evaluate_of_open (w := w) is open_ child rest
        rw [readyAt, Event.endsAfter]
        split
        · exact (gate_append_singleton ..).symm
        · exact set

end Cooldowns

/-! ## Runs -/

/-- After passes, the gate of a cooldown is closed until the deadline of the last end of its
child. -/
theorem gate_replay {t node : Tree CompiledNode} {path : List Nat} (at_ : t.at? path = some node)
    (is : node.label.behavior = .decorator .cooldown) (passes : List (Pass T)) :
    ∃ live : LiveTree T, (replay (LiveTree.ofCompiled t) passes).at? path = some live ∧
      live.compiled = node ∧ live.label.state.readyAt =
        gate node.label (ends (events path (LiveTree.ofCompiled t) passes)) := by
  refine events_induction (P := fun events live => live.compiled = node ∧
    live.label.state.readyAt = gate node.label (ends events)) (at?_ofCompiled at_) ?_ ?_ passes
  · refine ⟨LiveTree.compiled_ofCompiled node, ?_⟩
    obtain ⟨n, children⟩ := node
    rfl
  · intro events live event live' ⟨same, set⟩ happens
    have label : live.label.node = node.label := by rw [← same, LiveTree.label_compiled]
    rw [← label] at is set ⊢
    refine ⟨happens.compiled.trans same, ?_⟩
    rw [ends_append_singleton]
    exact happens.gate is set

open Executor (Timed timeAfter)

/-- On the exact clock, a gate is open when the deadline of the last end has come. -/
theorem open_iff {n : CompiledNode} {state : NodeState ℚ} {earlier : List (Evaluation ℚ)} {now : ℚ}
    (set : state.readyAt = gate n earlier) :
    state.Open now ↔ ∀ last ∈ earlier.getLast?, last.deadline n ≤ now + Clock.tolerance := by
  simp only [NodeState.Open, set, gate, Option.map_eq_some_iff, Option.mem_def]
  constructor
  · intro open_ last mem
    have late := open_ _ ⟨last, mem, rfl⟩
    exact not_lt.1 fun before => Bool.eq_false_iff.1 late (Clock.isBefore_iff.2 before)
  · rintro due readyAt ⟨last, mem, rfl⟩
    exact Bool.eq_false_iff.2 fun before =>
      not_lt_of_ge (due last mem) (Clock.isBefore_iff.1 before)

/-- Time goes forward, unless a pass clears the node. -/
theorem Pass.cleared_or_later {pass : Pass ℚ} {t live : LiveTree ℚ} {path : List Nat} {now : ℚ}
    (at_ : t.at? path = some live) (timed : Timed now [pass]) (forward : 0 ≤ pass.time.delta) :
    pass.event path t = .cleared ∨ now ≤ pass.time.now := by
  cases pass with
  | reset => exact .inl (by rw [Pass.event, Pass.trace, inside_cuts at_, Event.ofTrace, own_cuts])
  | tick time w =>
    refine .inr ?_
    show now ≤ time.now
    rw [timed.1]
    exact le_add_of_nonneg_right forward

/-- If all deadlines but the last one have passed and the last one now does, all have. -/
theorem deadlines_passed {n : CompiledNode} {earlier : List (Evaluation ℚ)} {now later : ℚ}
    (paced : ∀ e ∈ earlier.dropLast, e.deadline n ≤ now + Clock.tolerance) (le : now ≤ later)
    (due : ∀ last ∈ earlier.getLast?, last.deadline n ≤ later + Clock.tolerance) :
    ∀ e ∈ earlier, e.deadline n ≤ later + Clock.tolerance := by
  intro e mem
  obtain ⟨last, is_last⟩ : ∃ last, earlier.getLast? = some last :=
    ⟨_, List.getLast?_eq_some_getLast (List.ne_nil_of_mem mem)⟩
  rw [← List.dropLast_append_getLast? last is_last] at mem
  rcases List.mem_append.1 mem with before | here
  · exact (paced e before).trans (by gcongr)
  · rw [List.mem_singleton.1 here]
    exact due last is_last

/-- A child that comes to an end was evaluated, so the gate was open. -/
theorem open_of_resolves {n : CompiledNode} {state : NodeState T} {children : List (LiveTree T)}
    {time : TickTime T} {w : World} (is : n.behavior = .decorator .cooldown)
    (ends : (Evaluation.of time (.node ⟨n, state⟩ children) w).Resolves) : state.Open time.now := by
  rcases state.closed_or_open time.now with ⟨readyAt, set, before⟩ | open_
  · obtain ⟨result, mem, -⟩ := ends
    obtain ⟨-, traced⟩ := evaluate_of_closed (w := w) is set before children
    rw [Evaluation.of, traced] at mem
    cases mem
  · exact open_

/-- After passes that go forward in time, the deadlines of all ends but the last one have passed. -/
theorem paced_replay {t node : Tree CompiledNode} {path : List Nat} (at_ : t.at? path = some node)
    (is : node.label.behavior = .decorator .cooldown) {passes : List (Pass ℚ)}
    (timed : Timed 0 passes) (forward : ∀ pass ∈ passes, 0 ≤ pass.time.delta) :
    ∀ e ∈ (ends (events path (LiveTree.ofCompiled t) passes)).dropLast,
      e.deadline node.label ≤ timeAfter 0 passes + Clock.tolerance := by
  induction passes using List.reverseRecOn with
  | nil => exact fun e mem => nomatch mem
  | append_singleton passes pass ih =>
    obtain ⟨timed, now⟩ := Executor.timed_append.1 timed
    obtain ⟨before, forward⟩ := List.forall_mem_append.1 forward
    have paced := ih timed before
    obtain ⟨⟨⟨n, state⟩, children⟩, at_live, rfl, set⟩ := gate_replay at_ is passes
    obtain ⟨live', -, happens⟩ := pass.happens at_live
    rw [events_append, Executor.timeAfter_append]
    show ∀ e ∈ (ends (_ ++ [pass.event path _])).dropLast, _
    rw [ends_append_singleton]
    rcases Pass.cleared_or_later at_live now (forward pass List.mem_cons_self) with clears | later
    · rw [clears]
      exact fun e mem => nomatch mem
    · generalize event_eq : pass.event path _ = event at happens
      have held : ∀ e ∈ (ends (events path (LiveTree.ofCompiled t) passes)).dropLast,
          e.deadline n ≤ pass.time.now + Clock.tolerance :=
        fun e mem => (paced e mem).trans (by gcongr)
      cases happens with
      | left => exact held
      | cleared => exact fun e mem => nomatch mem
      | evaluated time w =>
        have same : time = pass.time := Event.time_of_ofTrace event_eq
        rw [Event.endsAfter]
        split_ifs with resolves
        · rw [List.dropLast_concat]
          have open_ : state.Open pass.time.now := same ▸ open_of_resolves is resolves
          exact deadlines_passed paced later ((open_iff set).1 open_)
        · exact held

/-! ## The law -/

/-- In a pass over a tree, a cooldown fails and leaves its child alone. -/
structure Refuses (pass : Pass T) (t : LiveTree T) (path : List Nat) (n : CompiledNode)
    (state : NodeState T) (below : List (LiveTree T)) (e : Evaluation T) : Prop where
  status : e.status = .failure
  children : e.children = []
  /-- No node below the cooldown takes part. -/
  left : ∀ i more, pass.event (path ++ i :: more) t = .left
  /-- All of them keep their statuses and states, and the cooldown its state. -/
  kept : (pass.apply t).at? path = some (.node ⟨n, { state with status := .failure }⟩ below)

/-- An evaluation of a cooldown to which some things have happened before. -/
structure CooldownLaw (pass : Pass ℚ) (t : LiveTree ℚ) (path : List Nat) (n : CompiledNode)
    (state : NodeState ℚ) (children : List (LiveTree ℚ)) (happened : List (Event ℚ))
    (e : Evaluation ℚ) : Prop where
  /-- Ends of the child between which the cooldown is not cleared are as far apart as the duration
  that was read at the first one, give or take the tolerance. -/
  spaced : e.Resolves → ∀ earlier first later, happened = earlier ++ .evaluated first :: later →
    first.Resolves → (∀ event ∈ later, event ≠ .cleared) →
      (first.world.number n "duration" 1).toRat - Clock.tolerance ≤ e.time.now - first.time.now
  /-- What comes before the deadline of the last end is refused. -/
  closed : ∀ last ∈ (ends happened).getLast?,
    e.time.now + Clock.tolerance < last.time.now + (last.world.number n "duration" 1).toRat →
      Refuses pass t path n state children e
  /-- Otherwise the child is evaluated. -/
  opened : children ≠ [] → (∀ last ∈ (ends happened).getLast?,
    last.time.now + (last.world.number n "duration" 1).toRat ≤ e.time.now + Clock.tolerance) →
      e.children = [(0, e.status)]
  /-- A child that runs is evaluated in any case. -/
  attended : t.statusAt? (path ++ [0]) = some .running → e.children = [(0, e.status)]

/-- The gate of a cooldown that is evaluated. -/
theorem refuses_of_closed {pass : Pass T} {t : LiveTree T} {path : List Nat} {n : CompiledNode}
    {state : NodeState T} {children : List (LiveTree T)} {e : Evaluation T}
    (is : n.behavior = .decorator .cooldown) (at_ : t.at? path = some (.node ⟨n, state⟩ children))
    (happens : pass.event path t = .evaluated e) {readyAt : T} (set : state.readyAt = some readyAt)
    (before : Clock.isBefore e.time.now readyAt = true) :
    Refuses pass t path n state children e := by
  obtain ⟨w, rfl, traced, after⟩ := Pass.evaluated_at at_ happens
  change Clock.isBefore pass.time.now readyAt = true at before
  obtain ⟨evaluated, visited⟩ := evaluate_of_closed (w := w) is set before children
  refine ⟨?_, ?_, fun i more => ?_, ?_⟩
  · rw [Evaluation.of, evaluated]
    rfl
  · rw [Evaluation.of, visited]
    rfl
  · rw [Pass.event, Trace.inside_append, traced, visited, Trace.inside, Trace.child_self,
      Trace.inside_nil]
    rfl
  · rw [after, evaluated]
    rfl

/-- The law follows from where the gate stands, if the deadlines of all ends but the last one have
passed and no child is left alone that runs. -/
theorem CooldownLaw.of_gate {pass : Pass ℚ} {t : LiveTree ℚ} {path : List Nat} {n : CompiledNode}
    {state : NodeState ℚ} {children : List (LiveTree ℚ)} {happened : List (Event ℚ)}
    {e : Evaluation ℚ} {now : ℚ} (is : n.behavior = .decorator .cooldown)
    (at_ : t.at? path = some (.node ⟨n, state⟩ children))
    (happens : pass.event path t = .evaluated e) (set : state.readyAt = gate n (ends happened))
    (paced : ∀ before ∈ (ends happened).dropLast, before.deadline n ≤ now + Clock.tolerance)
    (later : now ≤ pass.time.now)
    (noticed : t.statusAt? (path ++ [0]) = some .running → pass.event (path ++ [0]) t ≠ .left) :
    CooldownLaw pass t path n state children happened e := by
  have closes : ∀ readyAt, state.readyAt = some readyAt →
      Clock.isBefore e.time.now readyAt = true → Refuses pass t path n state children e :=
    fun readyAt set before => refuses_of_closed is at_ happens set before
  obtain ⟨w, rfl, -, -⟩ := Pass.evaluated_at at_ happens
  have opens (fed : children ≠ []) (open_ : state.Open pass.time.now) :
      let e := Evaluation.of pass.time (.node ⟨n, state⟩ children) w
      e.children = [(0, e.status)] := by
    obtain ⟨child, rest, rfl⟩ := List.exists_cons_of_ne_nil fed
    obtain ⟨evaluated, -⟩ := evaluate_of_open (w := w) is open_ child rest
    rw [evaluated]
  refine ⟨fun resolves earlier first between all ended kept => ?_, fun last mem early => ?_,
    fun fed due => ?_, fun runs => ?_⟩
  · have due := (open_iff set).1 (open_of_resolves is resolves)
    have passed : first.time.now + (first.world.number n "duration" 1).toRat ≤
        pass.time.now + Clock.tolerance :=
      deadlines_passed paced later due first (mem_ends_iff.2 ⟨ended, earlier, between, all, kept⟩)
    rw [show (Evaluation.of pass.time (.node ⟨n, state⟩ children) w).time = pass.time from rfl]
    linarith
  · refine closes (last.deadline n) ?_ (Clock.isBefore_iff.2 early)
    rw [set, gate, mem]
    rfl
  · exact opens fed ((open_iff set).2 due)
  · have fed : children ≠ [] := by
      rintro rfl
      rw [LiveTree.statusAt?, Tree.at?_append, at_] at runs
      cases runs
    rcases state.closed_or_open pass.time.now with ⟨readyAt, set, before⟩ | open_
    · exact absurd ((closes readyAt set before).left 0 []) (noticed runs)
    · exact opens fed open_

/-- On the exact clock, in runs without negative durations: ends of the child of a cooldown are as
far apart as the duration that is read at the earlier one, an evaluation before that time is refused
and touches no node below, and a child that runs is never refused. -/
theorem cooldown_law {t : CompiledTree} {path : List Nat} {node : Tree CompiledNode}
    (at_ : t.root.at? path = some node) (is : node.label.behavior = .decorator .cooldown)
    (config : ExecutorConfig) (entropy : Nat) (s : SharedBlackboard)
    (calls : List (Executor.Call ℚ)) {before : List (Pass ℚ)} {now : Pass ℚ}
    (run : before ++ [now] <+: (Executor.new t config entropy : Executor ℚ).passes s calls)
    (forward : ∀ pass ∈ before ++ [now], 0 ≤ pass.time.delta) :
    let start := LiveTree.ofCompiled t.root
    let tree := replay start before
    ∀ e, now.event path tree = .evaluated e → ∃ state children,
      tree.at? path = some (.node ⟨node.label, state⟩ children) ∧
        CooldownLaw now tree path node.label state children (events path start before) e := by
  intro start tree e happens
  have timed := (Executor.follows_performAll (.new t config entropy) s calls).timed
  obtain ⟨later, passes_eq⟩ := run
  rw [← passes_eq] at timed
  obtain ⟨timed, -⟩ := Executor.timed_append.1 timed
  obtain ⟨timed, last⟩ := Executor.timed_append.1 timed
  obtain ⟨forward, forward_now⟩ := List.forall_mem_append.1 forward
  have forward_now := forward_now now List.mem_cons_self
  have paced := paced_replay at_ is timed forward
  have atMost (pass : Pass ℚ) (mem : pass ∈ before) : Clock.atMost Clock.zero pass.time.delta :=
    decide_eq_true (forward pass mem)
  obtain ⟨sound, future⟩ := sound_replay (LiveTree.sound_ofCompiled _ t.root)
    LawfulClock.zero_atMost_zero timed atMost
  obtain ⟨⟨⟨n, state⟩, children⟩, at_live, rfl, set⟩ := gate_replay at_ is before
  refine ⟨state, children, at_live, .of_gate is at_live happens set paced ?_ fun runs => ?_⟩
  · rcases Pass.cleared_or_later at_live last forward_now with cleared | later
    · cases happens.symm.trans cleared
    · exact later
  · obtain ⟨child, at_child, running⟩ := Option.map_eq_some_iff.1 runs
    exact Pass.event_ne_left sound future last (decide_eq_true forward_now) at_child running

/-- A node that waits for two seconds, below a cooldown of two seconds. -/
def cooledTree : CompiledTree :=
  let compiled (id : String) (kind : NodeKind) (behavior : Behavior) : CompiledNode :=
    { id := id, typeId := id, kind := kind, config := .ofList [("duration", .number 2)],
      bindings := .empty, behavior := behavior }
  ⟨.node (compiled "root" .root .root) [.node (compiled "cool" .decorator (.decorator .cooldown))
    [.node (compiled "wait" .action (.handler .wait)) []]], []⟩

/-- It succeeds after two seconds, is left alone in the third, and then waits again. -/
theorem cooldown_law_two_seconds :
    let passes := (Executor.new cooledTree {} 0 : Executor ℚ).passes {}
      (.start :: .replicate 5 (.tick 1))
    let start := LiveTree.ofCompiled cooledTree.root
    (events [0] start passes).map Event.results? = [none, some ([(0, .running)], .running),
      some ([(0, .success)], .success), some ([], .failure), some ([(0, .running)], .running),
      some ([(0, .success)], .success)] ∧
    ∃ before now e node state children, before ++ [now] = passes ∧
      now.event [0] (replay start before) = .evaluated e ∧ e.Resolves ∧
      (ends (events [0] start before)).map (·.time.now) = [2] ∧
      CooldownLaw now (replay start before) [0] node state children (events [0] start before)
        e := by
  intro passes start
  have shown : (events [0] start passes).map Event.results? = [none,
      some ([(0, .running)], .running), some ([(0, .success)], .success), some ([], .failure),
      some ([(0, .running)], .running), some ([(0, .success)], .success)] := by
    decide +kernel
  have ended : (ends (events [0] start passes.dropLast)).map (·.time.now) = [2] := by
    decide +kernel
  have deltas : passes.map (·.time.delta) = [0, 1, 1, 1, 1, 1] := by decide +kernel
  have some_ : passes ≠ [] := by
    rintro none
    rw [none] at deltas
    cases deltas
  have all := List.dropLast_append_getLast some_
  have forward : ∀ pass ∈ passes.dropLast ++ [passes.getLast some_], 0 ≤ pass.time.delta := by
    rw [all, ← List.forall_mem_map (P := (0 ≤ ·)), deltas]
    decide +kernel
  obtain ⟨e, happens, results⟩ : ∃ e, (passes.getLast some_).event [0]
      (replay start passes.dropLast) = .evaluated e ∧ e.children = [(0, .success)] := by
    have last := congrArg List.getLast? shown
    rw [← all, events_append, List.map_append] at last
    have last := Option.some.inj (List.getLast?_concat.symm.trans last)
    generalize (passes.getLast some_).event [0] (replay start passes.dropLast) = event at last
    cases event with
    | evaluated e => exact ⟨e, rfl, (Prod.mk.inj (Option.some.inj last)).1⟩
    | _ => cases last
  have run : passes.dropLast ++ [passes.getLast some_] <+: passes := by
    rw [all]
  have at_ : cooledTree.root.at? [0] = some _ := rfl
  obtain ⟨state, children, -, law⟩ := cooldown_law at_ rfl {} 0 {} _ run forward e happens
  refine ⟨shown, _, _, e, _, state, children, all, happens, ?_, ended, law⟩
  exact ⟨(0, .success), by rw [results]; exact List.mem_cons_self, rfl⟩

end BehaviorTree
