import BehaviorTree.Proofs.Execution.Runs
import Mathlib.Data.List.Forall2

/-!
# Trees in lockstep

Executors whose trees and reports compare tick by tick do so in every run, and cannot be told apart
by anything else: not by the calls that they accept, nor by outputs, changes of type and the
blackboard (`Marches.performAll`).

Two trees are in lockstep if ticks in the same world change this world in the same way, and leave
the trees in lockstep (`Lockstep`). Of what their executors report only the statuses may differ
(`Lockstep.performAll`).
-/

namespace BehaviorTree

variable {T : Type}

/-! ## What may differ -/

/-- Two reports that differ at most in the statuses. -/
def TickReport.Twins (V : List (String × Status) → List (String × Status) → Prop)
    (r r' : TickReport T) : Prop :=
  ∃ statuses, V r.statuses statuses ∧ r' = { r with statuses := statuses }

namespace Executor

variable {R : LiveTree T → LiveTree T → Prop} {P : TickReport T → TickReport T → Prop}
  {e e' : Executor T}

/-- Two executors that differ at most in their trees. -/
def Twins (R : LiveTree T → LiveTree T → Prop) (e e' : Executor T) : Prop :=
  ∃ tree', Option.Rel R e.tree tree' ∧ e' = { e with tree := tree' }

/-- Two outcomes that differ at most in the trees and in what was reported. -/
structure Outcome.Twins (R : LiveTree T → LiveTree T → Prop)
    (P : TickReport T → TickReport T → Prop) (o o' : Outcome T) : Prop where
  reports : List.Forall₂ P o.reports o'.reports
  executor : o.executor.Twins R o'.executor
  shared : o'.shared = o.shared

theorem Outcome.Twins.followedBy {first first' others others' : Outcome T}
    (twins : first.Twins R P first') (later : others.Twins R P others') :
    (first.followedBy others).Twins R P (first'.followedBy others') :=
  ⟨List.rel_append twins.reports later.reports, later.executor, later.shared⟩

/-- Either both executors were destroyed or neither was. -/
theorem Twins.tree_cases (twins : e.Twins R e') :
    (e.tree = none ∧ e'.tree = none) ∨ ∃ t t', e.tree = some t ∧ e'.tree = some t' ∧ R t t' := by
  obtain ⟨tree', related, rfl⟩ := twins
  cases alive : e.tree with
  | none =>
    rw [alive] at related
    cases related
    exact .inl ⟨rfl, rfl⟩
  | some t =>
    rw [alive] at related
    cases related with
    | some related => exact .inr ⟨t, _, rfl, rfl, related⟩

theorem Twins.exists_tree {t : LiveTree T} (twins : e.Twins R e') (alive : e.tree = some t) :
    ∃ t', e'.tree = some t' ∧ R t t' := by
  rcases twins.tree_cases with ⟨dead, -⟩ | ⟨t₁, t', alive₁, alive', related⟩
  · exact nomatch alive.symm.trans dead
  · obtain rfl := Option.some.inj (alive.symm.trans alive₁)
    exact ⟨t', alive', related⟩

theorem Twins.isSome (twins : e.Twins R e') (alive : e.tree.isSome) : e'.tree.isSome := by
  obtain ⟨t, alive⟩ := Option.isSome_iff_exists.1 alive
  obtain ⟨t', alive', -⟩ := twins.exists_tree alive
  exact Option.isSome_of_eq_some alive'

theorem Twins.symm (twins : e.Twins R e') : e'.Twins (flip R) e := by
  refine ⟨e.tree, ?_, ?_⟩
  · rcases twins.tree_cases with ⟨dead, dead'⟩ | ⟨t, t', alive, alive', related⟩
    · rw [dead, dead']
      exact .none
    · rw [alive, alive']
      exact .some related
  · obtain ⟨tree', -, rfl⟩ := twins
    rfl

theorem Outcome.Twins.symm {o o' : Outcome T} (twins : o.Twins R P o') :
    o'.Twins (flip R) (flip P) o :=
  ⟨twins.reports.flip, twins.executor.symm, twins.shared.symm⟩

end Executor

/-! ## Runs -/

variable [Clock T]

/-- Executors do alike, given how their trees and their reports compare. -/
structure Marches (R : LiveTree T → LiveTree T → Prop) (P : TickReport T → TickReport T → Prop) :
    Prop where
  reset : ∀ {t t' : LiveTree T}, R t t' → R t.reset t'.reset
  tick : ∀ {e e' : Executor T}, e.Twins R e' → ∀ {t t' : LiveTree T}, R t t' → ∀ delta s,
    (Executor.Outcome.ofTick (e.tickTree t delta s)).Twins R P (.ofTick (e'.tickTree t' delta s))

namespace Marches

open Executor

variable {R : LiveTree T → LiveTree T → Prop} {P : TickReport T → TickReport T → Prop}
  {e e' : Executor T} {s : SharedBlackboard} {c : Call T} {o o' : Outcome T}

theorem flip (marches : Marches R P) : Marches (flip R) (flip P) where
  reset related := marches.reset related
  tick twins _ _ related delta s := (marches.tick twins.symm related delta s).symm

theorem reset_twins (marches : Marches R P) (twins : e.Twins R e') :
    e.reset.Twins R e'.reset := by
  refine ⟨e'.tree.map LiveTree.reset, ?_, ?_⟩
  · show Option.Rel R (e.tree.map LiveTree.reset) _
    rcases twins.tree_cases with ⟨dead, dead'⟩ | ⟨t, t', alive, alive', related⟩
    · rw [dead, dead']
      exact .none
    · rw [alive, alive']
      exact .some (marches.reset related)
  · obtain ⟨tree', -, rfl⟩ := twins
    rfl

/-- A tick is due for both twins or for neither. -/
theorem due_twins (marches : Marches R P) (twins : e.Twins R e') (s : SharedBlackboard) :
    (∃ t t', e.tree = some t ∧ e'.tree = some t' ∧
        Clock.reaches e.accumulator e.interval = true ∧
        Clock.reaches e'.accumulator e'.interval = true ∧
        (Outcome.ofTick (e.paid.tickTree t e.interval s)).Twins R P
          (.ofTick (e'.paid.tickTree t' e'.interval s))) ∨
      (e.tree = none ∨ Clock.reaches e.accumulator e.interval = false) ∧
        (e'.tree = none ∨ Clock.reaches e'.accumulator e'.interval = false) := by
  have same : e'.interval = e.interval ∧ e'.accumulator = e.accumulator := by
    obtain ⟨_, -, rfl⟩ := twins
    exact ⟨rfl, rfl⟩
  rw [same.1, same.2]
  rcases e.due_or_early with ⟨t, alive, due⟩ | early
  · obtain ⟨t', alive', related⟩ := twins.exists_tree alive
    have paid : e.paid.Twins R e'.paid := by
      obtain ⟨tree', related, rfl⟩ := twins
      exact ⟨tree', related, rfl⟩
    exact .inl ⟨t, t', alive, alive', due, due, marches.tick paid related e.interval s⟩
  · refine .inr ⟨early, early.imp_left fun dead => ?_⟩
    rcases twins.tree_cases with ⟨-, dead'⟩ | ⟨t, -, alive, -⟩
    · exact dead'
    · exact nomatch dead.symm.trans alive

theorem tickWhileDue_twins (marches : Marches R P) (twins : e.Twins R e') (count : Nat)
    (s : SharedBlackboard) :
    (Outcome.ofTicks (tickWhileDue count e s)).Twins R P (.ofTicks (tickWhileDue count e' s)) := by
  induction count generalizing e e' s with
  | zero => exact ⟨.nil, twins, rfl⟩
  | succ count ih =>
    rcases marches.due_twins twins s with
      ⟨t, t', alive, alive', due, due', first⟩ | ⟨early, early'⟩
    · rw [tickWhileDue_due alive due, tickWhileDue_due alive' due']
      refine first.followedBy ?_
      rw [first.shared]
      exact ih first.executor _
    · rw [tickWhileDue_early early, tickWhileDue_early early']
      exact ⟨.nil, twins, rfl⟩

theorem stepping_twins (marches : Marches R P) (twins : e.Twins R e') (s : SharedBlackboard) :
    (e.stepping s).Twins R (e'.stepping s) := by
  have opened : (e.openSession s).Twins R (e'.openSession s) := by
    obtain ⟨tree', related, rfl⟩ := twins
    exact ⟨tree', related, rfl⟩
  have same : e'.state = e.state ∧ e'.session = e.session := by
    obtain ⟨_, -, rfl⟩ := twins
    exact ⟨rfl, rfl⟩
  rw [stepping, stepping, same.1, same.2]
  split
  · exact marches.reset_twins opened
  · exact twins

/-- Twins do the same when the same is asked of them. -/
theorem does_twins (marches : Marches R P) (does : e.Does s c o) (twins : e.Twins R e') :
    ∃ o', e'.Does s c o' ∧ o.Twins R P o' := by
  cases does with
  | @step t still alive =>
    have stepping := marches.stepping_twins twins s
    obtain ⟨t', alive', related⟩ := stepping.exists_tree alive
    have ticked := marches.tick stepping related (e.stepping s).interval s
    have interval : (e'.stepping s).interval = (e.stepping s).interval := by
      obtain ⟨_, -, eq⟩ := stepping
      rw [eq]
      rfl
    have still' : e'.state ≠ .running := by
      obtain ⟨_, -, rfl⟩ := twins
      exact still
    refine ⟨_, .step still' alive', ?_⟩
    rw [interval]
    exact ticked
  | @tick delta t running alive =>
    obtain ⟨t', alive', related⟩ := twins.exists_tree alive
    have ticked := marches.tick twins related delta s
    obtain ⟨_, -, rfl⟩ := twins
    exact ⟨_, .tick running alive', ticked⟩
  | @update frameDelta alive running checked =>
    have fed : (e.addFrame frameDelta).Twins R (e'.addFrame frameDelta) := by
      obtain ⟨tree', related, rfl⟩ := twins
      exact ⟨tree', related, rfl⟩
    have ticked := marches.tickWhileDue_twins fed e.config.maxTicksPerUpdate s
    have alive' := twins.isSome alive
    obtain ⟨_, -, rfl⟩ := twins
    exact ⟨_, .update alive' running checked, ticked⟩
  | start alive idle =>
    have opened : (if e.session.isNone then e.openSession s else e).Twins R
        (if e'.session.isNone then e'.openSession s else e') := by
      obtain ⟨tree', related, rfl⟩ := twins
      dsimp only
      split <;> exact ⟨tree', related, rfl⟩
    obtain ⟨tree', related, eq⟩ := marches.reset_twins opened
    have alive' := twins.isSome alive
    have idle' : e'.state = .idle := by
      obtain ⟨_, -, rfl⟩ := twins
      exact idle
    refine ⟨_, .start alive' idle', .nil, ⟨tree', related, ?_⟩, rfl⟩
    rw [eq]
  | stop alive =>
    obtain ⟨tree', related, eq⟩ := marches.reset_twins twins
    have alive' := twins.isSome alive
    refine ⟨_, .stop alive', .nil, ⟨tree', related, ?_⟩, ?_⟩
    · rw [eq]
    · obtain ⟨_, -, rfl⟩ := twins
      rfl
  | pause alive running =>
    have alive' := twins.isSome alive
    obtain ⟨tree', related, rfl⟩ := twins
    exact ⟨_, .pause alive' running, .nil, ⟨tree', related, rfl⟩, rfl⟩
  | resume alive paused =>
    have alive' := twins.isSome alive
    obtain ⟨tree', related, rfl⟩ := twins
    exact ⟨_, .resume alive' paused, .nil, ⟨tree', related, rfl⟩, rfl⟩
  | wait alive still =>
    have alive' := twins.isSome alive
    obtain ⟨tree', related, rfl⟩ := twins
    exact ⟨_, .wait alive' still, .nil, ⟨tree', related, rfl⟩, rfl⟩
  | takeTypeChanges =>
    obtain ⟨tree', related, rfl⟩ := twins
    exact ⟨_, .takeTypeChanges, .nil, ⟨tree', related, rfl⟩, rfl⟩
  | destroy =>
    obtain ⟨tree', -, rfl⟩ := twins
    exact ⟨_, .destroy, .nil, ⟨none, .none, rfl⟩, rfl⟩
  | transact change => exact ⟨_, .transact change, .nil, twins, rfl⟩
  | direct change => exact ⟨_, .direct change, .nil, twins, rfl⟩

/-- Twins accept the same calls. -/
theorem call_twins (marches : Marches R P) (twins : e.Twins R e') (s : SharedBlackboard)
    (c : Call T) :
    (∃ o o', e.call s c = .ok o ∧ e'.call s c = .ok o' ∧ o.Twins R P o') ∨
      ∃ error error', e.call s c = .error error ∧ e'.call s c = .error error' := by
  cases made : e.call s c with
  | ok o =>
    obtain ⟨o', does, alike⟩ := marches.does_twins (call_eq_ok.1 made) twins
    exact .inl ⟨o, o', rfl, call_eq_ok.2 does, alike⟩
  | error error =>
    cases made' : e'.call s c with
    | error error' => exact .inr ⟨error, error', rfl, rfl⟩
    | ok o' =>
      -- What the twin accepts, this executor accepts as well.
      obtain ⟨o, does, -⟩ := marches.flip.does_twins (call_eq_ok.1 made') twins.symm
      exact nomatch made.symm.trans (call_eq_ok.2 does)

theorem perform_twins (marches : Marches R P) (twins : e.Twins R e') (s : SharedBlackboard)
    (c : Call T) : (e.perform s c).Twins R P (e'.perform s c) := by
  rcases marches.call_twins twins s c with ⟨o, o', made, made', alike⟩ | ⟨_, _, made, made'⟩
  · rw [perform_of_accepted made, perform_of_accepted made']
    exact alike
  · rw [perform_of_refused made, perform_of_refused made']
    exact ⟨.nil, twins, rfl⟩

/-- Twins stay twins through any calls. -/
theorem performAll (marches : Marches R P) (twins : e.Twins R e') (s : SharedBlackboard)
    (calls : List (Call T)) : (e.performAll s calls).Twins R P (e'.performAll s calls) := by
  induction calls generalizing e e' s with
  | nil => exact ⟨.nil, twins, rfl⟩
  | cons c calls ih =>
    have first := marches.perform_twins twins s c
    refine first.followedBy ?_
    rw [first.shared]
    exact ih first.executor _

end Marches

/-! ## Lockstep -/

/-- Trees that change the world in the same way, and how their reports compare. -/
structure Lockstep (R : LiveTree T → LiveTree T → Prop)
    (V : List (String × Status) → List (String × Status) → Prop) : Prop where
  reset : ∀ {t t' : LiveTree T}, R t t' → R t.reset t'.reset
  evaluate : ∀ {t t' : LiveTree T}, R t t' → ∀ time w, w.visited = [] →
    ∃ visited, R (evaluate time t w).1 (evaluate time t' w).1 ∧
      (evaluate time t' w).2 = { (evaluate time t w).2 with visited := visited } ∧
      V (evaluate time t w).2.visited visited

namespace Lockstep

open Executor

variable {R : LiveTree T → LiveTree T → Prop}
  {V : List (String × Status) → List (String × Status) → Prop} {e e' : Executor T}

theorem marches (lockstep : Lockstep R V) : Marches R (TickReport.Twins V) where
  reset related := lockstep.reset related
  tick {e e'} twins t t' related delta s := by
    obtain ⟨other, -, rfl⟩ := twins
    obtain ⟨visited, after, world, shown⟩ := lockstep.evaluate related
      ⟨delta, Clock.add e.elapsed delta, e.tickCount + 1⟩
      { board := s.board.applyQueue.2, outputs := e.outputs, random := e.random } rfl
    simp only [Outcome.ofTick, tickTree, runTree, SharedBlackboard.transact, world]
    exact ⟨.cons ⟨visited, shown, rfl⟩ .nil, ⟨_, .some after, rfl⟩, rfl⟩

/-- Executors of trees in lockstep stay alike through any calls. -/
theorem performAll (lockstep : Lockstep R V) (twins : e.Twins R e') (s : SharedBlackboard)
    (calls : List (Call T)) :
    (e.performAll s calls).Twins R (TickReport.Twins V) (e'.performAll s calls) :=
  lockstep.marches.performAll twins s calls

end Lockstep

end BehaviorTree
