import BehaviorTree.Proofs.Execution.Soundness

/-!
# A tick keeps the invariant

Each kind of node is treated by itself: what it keeps and what status it takes, given the new
status of the child it evaluated. The recursion over the tree then only puts these together.
-/

namespace BehaviorTree

variable {T : Type} {time : TickTime T} {n : CompiledNode} {state : NodeState T}
  {child : LiveTree T} {children rest : List (LiveTree T)}

/-! ## What is kept -/

/-- What a decorator keeps: it runs if its child does, it rests if it does not run, and a child
that runs does not change the gate. -/
structure LeftSound (kind : DecoratorKind) (state : NodeState T) (child : Status)
    (left : Status × NodeState T) : Prop where
  fits : left.2.Fits (.decorator kind)
  rests : left.1 ≠ .running → left.2.AtRest
  carried : child = .running → left.1 = .running
  gate : child = .running → left.2.readyAt = state.readyAt

namespace LeftSound

variable {kind : DecoratorKind} {child status : Status}

/-- The state is kept while the child runs. -/
theorem carriedOn (fits : state.Fits (.decorator kind)) :
    LeftSound kind state .running (.running, state) :=
  ⟨fits, fun settled => absurd rfl settled, fun _ => rfl, fun _ => rfl⟩

/-- A state at rest may be kept in any case. -/
theorem untouched (rests : state.AtRest) (carried : child = .running → status = .running) :
    LeftSound kind state child (status, state) :=
  ⟨rests.fits _, fun _ => rests, carried, fun _ => rfl⟩

/-- A counter begins anew when the decorator ends. -/
theorem cleared (counts : kind = .repeat ∨ kind = .retry) (fits : state.Fits (.decorator kind))
    (settled : child ≠ .running) :
    LeftSound kind state child (status, { state with counter := 0 }) := by
  have rests : NodeState.AtRest { state with counter := 0 } := by
    refine ⟨fits.cursor_eq_zero (by simp), rfl, fits.running_eq_false ?_ (by simp)⟩
    rcases counts with rfl | rfl <;> simp
  exact ⟨rests.fits _, fun _ => rests, fun runs => absurd runs settled,
    fun runs => absurd runs settled⟩

/-- A counter goes on while the decorator runs. -/
theorem counted (counts : kind = .repeat ∨ kind = .retry) (fits : state.Fits (.decorator kind))
    (settled : child ≠ .running) (count : Nat) :
    LeftSound kind state child (.running, { state with counter := count }) :=
  ⟨⟨fits.cursor, fun _ => by rcases counts with rfl | rfl <;> simp, fits.running⟩,
    fun settled => absurd rfl settled, fun _ => rfl, fun runs => absurd runs settled⟩

end LeftSound

namespace Resumes

variable {status : Status} {cursor place : Nat}

/-- A composite that ended resumes nowhere. -/
theorem ended (settled : status ≠ .running) (none : ∀ child ∈ children, child.status ≠ .running) :
    Resumes status 0 place children where
  only := .of_none_running none _ _
  active runs := absurd runs settled
  settled _ := ⟨rfl, none⟩

/-- A composite stops at a child that runs. -/
theorem here (runs : child.status = .running) (none : ∀ child ∈ rest, child.status ≠ .running) :
    Resumes .running place place (child :: rest) where
  only := RunsOnlyAt.cons_iff.2 ⟨fun _ => rfl, .of_none_running none _ _⟩
  active _ := ⟨0, child, rfl, runs, rfl⟩
  settled settled := absurd rfl settled

/-- A child that does not run may stand before the others. -/
theorem later (resumes : Resumes status cursor (place + 1) rest)
    (settled : child.status ≠ .running) : Resumes status cursor place (child :: rest) where
  only := RunsOnlyAt.cons_iff.2 ⟨fun runs => absurd runs settled, resumes.only⟩
  active runs := by
    obtain ⟨i, other, at_i, otherRuns, place_eq⟩ := resumes.active runs
    exact ⟨i + 1, other, at_i, otherRuns, by omega⟩
  settled ends := by
    obtain ⟨cursor, none⟩ := resumes.settled ends
    refine ⟨cursor, fun other mem => ?_⟩
    rcases List.mem_cons.1 mem with rfl | mem
    · exact settled
    · exact none other mem

end Resumes

variable [Clock T]

/-! ## Leaves and roots -/

/-- What a leaf keeps of its state, and what it notes about running. -/
theorem evaluateLeaf_state (time : TickTime T) (n : CompiledNode) (h : Handler)
    (state : NodeState T) (w : World) :
    (evaluateLeaf time n h state w).1.cursor = state.cursor ∧
      (evaluateLeaf time n h state w).1.counter = state.counter ∧
      (evaluateLeaf time n h state w).1.running =
        ((evaluateLeaf time n h state w).1.status == .running) := by
  simp only [evaluateLeaf, and_self]

namespace NodeSound

/-- Below a leaf no child runs. -/
theorem none_below_leaf (sound : NodeSound time.now ⟨n, state⟩ children)
    (leaf : n.behavior = .condition ∨ ∃ h, n.behavior = .handler h) :
    ∀ child ∈ children, child.status ≠ .running := by
  intro child mem runs
  obtain ⟨-, condition, handler⟩ := sound.carried child mem runs
  rcases leaf with is | ⟨h, is⟩
  · exact condition is
  · exact handler h is

/-- A condition keeps nothing. -/
theorem condition (sound : NodeSound time.now ⟨n, state⟩ children)
    (behavior : n.behavior = .condition) {status : Status} (settled : status ≠ .running) :
    NodeSound time.now ⟨n, { state with status := status }⟩ children := by
  have rests := sound.fits.atRest (by simp [behavior, Behavior.keepsNothing])
  exact .of_atRest (rests.withStatus status) settled (sound.none_below_leaf (.inl behavior))

/-- A handler keeps whether it is running. -/
theorem handler (sound : NodeSound time.now ⟨n, state⟩ children) {h : Handler}
    (behavior : n.behavior = .handler h) (w : World) :
    NodeSound time.now ⟨n, (evaluateLeaf time n h state w).1⟩ children := by
  obtain ⟨cursor, counter, running⟩ := evaluateLeaf_state time n h state w
  rw [sound.fits.cursor_eq_zero (by simp [behavior])] at cursor
  rw [sound.fits.counter_eq_zero (by simp [behavior]) (by simp [behavior])] at counter
  have none := sound.none_below_leaf (.inr ⟨h, behavior⟩)
  exact {
    fits := ⟨fun moved => absurd cursor moved, fun counted => absurd counter counted,
      fun _ => .inr ⟨h, behavior⟩⟩
    rests := fun settled => ⟨cursor, counter, by simpa [running] using settled⟩
    only := .of_none_running none _ _
    carried := fun child mem runs => absurd runs (none child mem)
    active := fun kind is => by simp [behavior] at is
    fed := fun kind is => by simp [behavior] at is
    gate := fun is => by simp [behavior] at is }

/-- A root without a child is idle. -/
theorem bare_root (sound : NodeSound time.now ⟨n, state⟩ []) (behavior : n.behavior = .root) :
    NodeSound time.now ⟨n, { state with status := .idle }⟩ [] := by
  have rests := sound.fits.atRest (by simp [behavior, Behavior.keepsNothing])
  exact .of_atRest (rests.withStatus .idle) (by simp) (by simp)

/-! ## Nodes with one child -/

/-- All children but the first are left alone by a node that is no composite. -/
theorem none_behind (sound : NodeSound time.now ⟨n, state⟩ (child :: rest))
    (single : ∀ kind, n.behavior ≠ .composite kind) :
    ∀ child ∈ rest, child.status ≠ .running := by
  have only := sound.only
  rw [sound.fits.cursor_eq_zero single] at only
  exact only.none_behind

/-- A node that evaluates its first child alone is sound if it runs when the child does, rests
when it does not run, and has its gate open for a child that does. -/
theorem of_single {now : T} {state : NodeState T}
    (single : n.behavior = .root ∨ ∃ kind, n.behavior = .decorator kind)
    (fits : state.Fits n.behavior) (rests : state.status ≠ .running → state.AtRest)
    (carried : child.status = .running → state.status = .running)
    (gate : n.behavior = .decorator .cooldown → child.status = .running → state.Open now)
    (none : ∀ child ∈ rest, child.status ≠ .running) :
    NodeSound now ⟨n, state⟩ (child :: rest) where
  fits := fits
  rests := rests
  only := by
    have cursor : state.cursor = 0 := fits.cursor_eq_zero (by
      rcases single with is | ⟨kind, is⟩ <;> simp [is])
    rw [cursor]
    exact RunsOnlyAt.cons_iff.2 ⟨fun _ => rfl, .of_none_running none _ _⟩
  carried := by
    intro other mem runs
    rcases List.mem_cons.1 mem with rfl | mem
    · exact ⟨carried runs, by rcases single with is | ⟨kind, is⟩ <;> simp [is]⟩
    · exact absurd runs (none other mem)
  active := by
    intro kind composite
    rcases single with is | ⟨kind, is⟩ <;> simp [is] at composite
  fed _ _ _ := by simp
  gate := by
    intro cooldown other mem runs
    rcases List.mem_cons.1 mem with rfl | mem
    · exact gate cooldown runs
    · exact absurd runs (none other mem)

/-- A root passes on the status of its child. -/
theorem root (sound : NodeSound time.now ⟨n, state⟩ (child :: rest))
    (behavior : n.behavior = .root) (child' : LiveTree T) :
    NodeSound time.now ⟨n, { state with status := child'.status }⟩ (child' :: rest) := by
  have rests := (sound.fits.atRest (by simp [behavior, Behavior.keepsNothing])).withStatus child'.status
  exact of_single (.inl behavior) (rests.fits _) (fun _ => rests) id (by simp [behavior])
    (sound.none_behind (by simp [behavior]))

/-- A decorator without a child fails. -/
theorem bare_decorator (sound : NodeSound time.now ⟨n, state⟩ []) {kind : DecoratorKind}
    (behavior : n.behavior = .decorator kind) :
    NodeSound time.now ⟨n, { state with status := .failure }⟩ [] := by
  have rests := sound.rests fun runs => sound.fed kind behavior runs rfl
  exact .of_atRest (rests.withStatus .failure) (by simp) (by simp)

end NodeSound

/-! ## Decorators -/

/-- A decorator refuses only while its gate is closed. -/
theorem enterDecorator_refuse {kind : DecoratorKind} {w : World}
    (entry : enterDecorator time kind n state w = .refuse) :
    kind = .cooldown ∧ ¬ state.Open time.now := by
  cases kind <;> simp only [enterDecorator] at entry
  case cooldown =>
    refine ⟨rfl, fun open_ => ?_⟩
    split at entry
    · rename_i readyAt at_
      simp [open_ readyAt at_] at entry
    · cases entry
  case timeout => split at entry <;> (try split at entry) <;> cases entry
  all_goals cases entry

/-- A decorator that cuts its child short is a timeout, and no longer runs. -/
theorem enterDecorator_cutShort {kind : DecoratorKind} {w : World} {state' : NodeState T}
    (entry : enterDecorator time kind n state w = .cutShort state') :
    kind = .timeout ∧ state' = { state with running := false, runningTime := Clock.zero } := by
  cases kind <;> simp only [enterDecorator] at entry
  case timeout =>
    split at entry
    · split at entry
      · exact ⟨rfl, (Entry.cutShort.inj entry).symm⟩
      · cases entry
    · cases entry
  case cooldown => split at entry <;> (try split at entry) <;> cases entry
  all_goals cases entry

/-- A decorator whose child is evaluated has changed at most how long that child has been
running, and its gate is open. -/
theorem enterDecorator_proceed {kind : DecoratorKind} {w : World} {state' : NodeState T}
    {limit : Number} (entry : enterDecorator time kind n state w = .proceed state' limit) :
    (∃ runningTime, state' = { state with runningTime := runningTime }) ∧
      (kind = .cooldown → state.Open time.now) := by
  cases kind <;> simp only [enterDecorator] at entry
  case timeout =>
    refine ⟨?_, fun is => by simp at is⟩
    split at entry
    · split at entry
      · cases entry
      · exact ⟨_, (Entry.proceed.inj entry).1.symm⟩
    · exact ⟨_, (Entry.proceed.inj entry).1.symm⟩
  case cooldown =>
    split at entry
    · rename_i readyAt at_
      split at entry
      · cases entry
      · rename_i notBefore
        refine ⟨⟨_, (Entry.proceed.inj entry).1.symm⟩, fun _ other at_other => ?_⟩
        obtain rfl : readyAt = other := Option.some.inj (at_.symm.trans at_other)
        exact Bool.eq_false_iff.2 notBefore
    · rename_i free
      refine ⟨⟨_, (Entry.proceed.inj entry).1.symm⟩, fun _ other at_other => ?_⟩
      exact absurd (free.symm.trans at_other) (by simp)
  all_goals exact ⟨⟨_, (Entry.proceed.inj entry).1.symm⟩, fun is => by simp at is⟩

theorem leaveDecorator_sound (time : TickTime T) (kind : DecoratorKind) (limit : Number)
    (fits : state.Fits (.decorator kind)) (child : Status) :
    LeftSound kind state child (leaveDecorator time kind limit state child) := by
  cases kind
  case inverter =>
    have rests := fits.atRest (by decide)
    cases child <;> exact .untouched rests (by simp)
  case alwaysSucceed => exact .untouched (fits.atRest (by decide)) fun runs => if_pos runs
  case alwaysFail => exact .untouched (fits.atRest (by decide)) fun runs => if_pos runs
  case «repeat» =>
    cases child with
    | running => exact .carriedOn fits
    | success =>
      simp only [leaveDecorator]
      split
      · exact .cleared (.inl rfl) fits (by simp)
      · exact .counted (.inl rfl) fits (by simp) _
    | failure => exact .cleared (.inl rfl) fits (by simp)
    | idle => exact .cleared (.inl rfl) fits (by simp)
  case retry =>
    cases child with
    | running => exact .carriedOn fits
    | success => exact .cleared (.inr rfl) fits (by simp)
    | failure =>
      simp only [leaveDecorator]
      split
      · exact .cleared (.inr rfl) fits (by simp)
      · exact .counted (.inr rfl) fits (by simp) _
    | idle =>
      simp only [leaveDecorator]
      split
      · exact .cleared (.inr rfl) fits (by simp)
      · exact .counted (.inr rfl) fits (by simp) _
  case cooldown =>
    have rests := fits.atRest (by decide)
    simp only [leaveDecorator]
    split
    · rename_i resolved
      refine ⟨⟨fits.cursor, fits.counter, fits.running⟩,
        fun _ => ⟨rests.cursor, rests.counter, rests.running⟩, id, ?_⟩
      rintro rfl
      exact absurd resolved (by decide)
    · exact .untouched rests id
  case timeout =>
    have cursor := fits.cursor_eq_zero (by simp)
    have counter := fits.counter_eq_zero (by simp) (by simp)
    simp only [leaveDecorator]
    split
    · rename_i runs
      refine ⟨?_, fun settled => absurd runs settled, id, fun _ => ?_⟩
      · split
        · exact fits
        · exact ⟨fits.cursor, fits.counter, fun _ => .inl rfl⟩
      · split <;> rfl
    · rename_i settled
      exact ⟨⟨fits.cursor, fits.counter, fun _ => .inl rfl⟩, fun _ => ⟨cursor, counter, rfl⟩, id,
        fun runs => absurd runs settled⟩

namespace NodeSound

variable {kind : DecoratorKind} {w : World} {state' : NodeState T} {limit : Number}

/-- A decorator that refuses has no running child to leave behind. -/
theorem refuse (sound : NodeSound time.now ⟨n, state⟩ (child :: rest))
    (behavior : n.behavior = .decorator kind)
    (entry : enterDecorator time kind n state w = .refuse) :
    NodeSound time.now ⟨n, { state with status := .failure }⟩ (child :: rest) := by
  obtain ⟨rfl, closed⟩ := enterDecorator_refuse entry
  have none : ∀ other ∈ child :: rest, other.status ≠ .running :=
    fun other mem runs => closed (sound.gate behavior other mem runs)
  have rests := sound.fits.atRest (by simp [behavior, Behavior.keepsNothing])
  exact .of_atRest (rests.withStatus .failure) (by simp) none

/-- A decorator that cuts its child short leaves it idle. -/
theorem cutShort (sound : NodeSound time.now ⟨n, state⟩ (child :: rest))
    (behavior : n.behavior = .decorator kind)
    (entry : enterDecorator time kind n state w = .cutShort state') :
    NodeSound time.now ⟨n, { state' with status := .failure }⟩ (child.reset :: rest) := by
  obtain ⟨rfl, rfl⟩ := enterDecorator_cutShort entry
  have rests : NodeState.AtRest { state with running := false, status := .failure } :=
    ⟨sound.fits.cursor_eq_zero (by simp [behavior]),
      sound.fits.counter_eq_zero (by simp [behavior]) (by simp [behavior]), rfl⟩
  refine .of_atRest ⟨rests.cursor, rests.counter, rfl⟩ (by simp) fun other mem => ?_
  rcases List.mem_cons.1 mem with rfl | mem
  · obtain ⟨label, below⟩ := child
    simp [LiveTree.status, LiveTree.reset, Tree.map, Tree.label, NodeState.initial]
  · exact sound.none_behind (by simp [behavior]) other mem

/-- A decorator makes what it keeps of the status of the child it evaluated. -/
theorem proceed (sound : NodeSound time.now ⟨n, state⟩ (child :: rest))
    (behavior : n.behavior = .decorator kind)
    (entry : enterDecorator time kind n state w = .proceed state' limit) (child' : LiveTree T) :
    NodeSound time.now ⟨n, { (leaveDecorator time kind limit state' child'.status).2 with
      status := (leaveDecorator time kind limit state' child'.status).1 }⟩ (child' :: rest) := by
  obtain ⟨⟨runningTime, rfl⟩, open_⟩ := enterDecorator_proceed entry
  have before : NodeState.Fits { state with runningTime := runningTime } (.decorator kind) := by
    rw [← behavior]
    exact ⟨sound.fits.cursor, sound.fits.counter, sound.fits.running⟩
  have left := leaveDecorator_sound time kind limit before child'.status
  refine of_single (.inr ⟨kind, behavior⟩) ?_ (fun settled => (left.rests settled).withStatus _)
    left.carried ?_ (sound.none_behind (by simp [behavior]))
  · rw [behavior]
    exact left.fits.withStatus _
  · intro cooldown runs readyAt at_
    have is : kind = .cooldown := by simpa [behavior] using cooldown
    exact open_ is readyAt ((left.gate runs).symm.trans at_)

end NodeSound

/-! ## Composites -/

/-- A composite keeps where to resume while it runs. -/
theorem NodeSound.composite {kind : CompositeKind} {status : Status} {cursor : Nat}
    {children' : List (LiveTree T)} (sound : NodeSound time.now ⟨n, state⟩ children)
    (behavior : n.behavior = .composite kind) (resumes : Resumes status cursor 0 children') :
    NodeSound time.now ⟨n, { state with cursor := cursor, status := status }⟩ children' where
  fits := ⟨fun _ => ⟨kind, behavior⟩, sound.fits.counter, sound.fits.running⟩
  rests settled := ⟨(resumes.settled settled).1,
    sound.fits.counter_eq_zero (by simp [behavior]) (by simp [behavior]),
    sound.fits.running_eq_false (by simp [behavior]) (by simp [behavior])⟩
  only := resumes.only
  carried := by
    intro child mem runs
    refine ⟨?_, by simp [behavior], by simp [behavior]⟩
    apply Classical.byContradiction
    intro settled
    exact (resumes.settled settled).2 child mem runs
  active := by
    intro _ _ runs
    obtain ⟨i, child, at_i, childRuns, place⟩ := resumes.active runs
    obtain rfl : i = cursor := by omega
    exact ⟨child, at_i, childRuns⟩
  fed _ is := by simp [behavior] at is
  gate is := by simp [behavior] at is

theorem CompositeKind.goesOnAfter_ne_running (kind : CompositeKind) :
    kind.goesOnAfter ≠ .running := by
  cases kind <;> decide

theorem CompositeKind.settlesOn_ne_running (kind : CompositeKind) :
    kind.settlesOn ≠ .running := by
  cases kind <;> decide

theorem evaluateCondition_ne_running (tick : Nat) (n : CompiledNode) (w : World) :
    (evaluateCondition tick n w).1 ≠ .running := by
  have ofBool (b : Bool) : Status.ofBool b ≠ .running := by cases b <;> decide
  simp only [evaluateCondition]
  split
  · split
    · simp
    · split
      · exact ofBool _
      · simp
  · simp

/-! ## The recursion -/

mutual

/-- Evaluating a tree keeps the invariant, whatever the handlers do. -/
theorem evaluate_sound (time : TickTime T) (t : LiveTree T) (w : World)
    (sound : LiveTree.Sound time.now t) :
    LiveTree.Sound time.now (evaluate time t w).1 := by
  match t, sound with
  | .node ⟨n, state⟩ children, .node here below =>
    match behavior : n.behavior, children with
    | .root, [] =>
      unfold evaluate
      simp only [behavior, finish]
      exact .node (here.bare_root behavior) below
    | .root, child :: rest =>
      unfold evaluate
      simp only [behavior, finish]
      obtain ⟨first, others⟩ := List.forall_mem_cons.1 below
      have evaluated := evaluate_sound time child w first
      exact .node (here.root behavior _) (List.forall_mem_cons.2 ⟨evaluated, others⟩)
    | .composite kind, children =>
      unfold evaluate
      simp only [behavior, finish]
      obtain ⟨below, resumes⟩ :=
        evaluateFrom_sound time kind state.cursor 0 children w below here.only
      exact .node (here.composite behavior resumes) below
    | .decorator kind, [] =>
      unfold evaluate
      simp only [behavior, finish]
      exact .node (here.bare_decorator behavior) below
    | .decorator kind, child :: rest =>
      unfold evaluate
      simp only [behavior, finish]
      obtain ⟨first, others⟩ := List.forall_mem_cons.1 below
      match entry : enterDecorator time kind n state w with
      | .refuse => exact .node (here.refuse behavior entry) below
      | .cutShort state' =>
        have aborted := LiveTree.sound_reset time.now child
        exact .node (here.cutShort behavior entry) (List.forall_mem_cons.2 ⟨aborted, others⟩)
      | .proceed state' limit =>
        have evaluated := evaluate_sound time child w first
        exact .node (here.proceed behavior entry _) (List.forall_mem_cons.2 ⟨evaluated, others⟩)
    | .condition, children =>
      unfold evaluate
      simp only [behavior, finish]
      exact .node (here.condition behavior (evaluateCondition_ne_running _ _ _)) below
    | .handler h, children =>
      unfold evaluate
      simp only [behavior, finish]
      exact .node (here.handler behavior w) below

/-- Evaluating the children of a composite keeps their invariants, and the composite resumes at
the child that is left running. -/
theorem evaluateFrom_sound (time : TickTime T) (kind : CompositeKind) (cursor place : Nat)
    (children : List (LiveTree T)) (w : World)
    (below : ∀ child ∈ children, LiveTree.Sound time.now child)
    (only : RunsOnlyAt cursor place children) :
    (∀ child ∈ (evaluateFrom time kind cursor place children w).2.2.1,
      LiveTree.Sound time.now child) ∧
    Resumes (evaluateFrom time kind cursor place children w).1
      (evaluateFrom time kind cursor place children w).2.1 place
      (evaluateFrom time kind cursor place children w).2.2.1 := by
  match children with
  | [] =>
    simp only [evaluateFrom]
    exact ⟨below, .ended kind.goesOnAfter_ne_running (by simp)⟩
  | child :: rest =>
    obtain ⟨here, behind⟩ := RunsOnlyAt.cons_iff.1 only
    obtain ⟨first, others⟩ := List.forall_mem_cons.1 below
    have remaining := fun w => evaluateFrom_sound time kind cursor (place + 1) rest w others behind
    simp only [evaluateFrom]
    split
    · rename_i before
      obtain ⟨sound, resumes⟩ := remaining w
      have settled : child.status ≠ .running := fun runs => by
        have reached := here runs
        omega
      exact ⟨List.forall_mem_cons.2 ⟨first, sound⟩, resumes.later settled⟩
    · rename_i reached
      have evaluated := evaluate_sound time child w first
      have none := behind.none_running (by omega)
      split
      · rename_i runs
        exact ⟨List.forall_mem_cons.2 ⟨evaluated, others⟩, .here runs none⟩
      · rename_i resolved
        split
        · exact ⟨List.forall_mem_cons.2 ⟨evaluated, others⟩,
            .ended kind.settlesOn_ne_running (List.forall_mem_cons.2 ⟨resolved, none⟩)⟩
        · obtain ⟨sound, resumes⟩ := remaining (evaluate time child w).2
          exact ⟨List.forall_mem_cons.2 ⟨evaluated, sound⟩, resumes.later resolved⟩

end

end BehaviorTree
