import BehaviorTree.Proofs.Execution.Runs

/-!
# Pausing never changes a run

`shorten` takes from a list of calls what should make no difference: pausing and resuming, calls
that are refused and updates while not running; and steps while paused become ticks of regular
length. What is left leads to the same reports and to the same executor on the same blackboard,
except that where the one is paused the other is running (`pausing_changes_no_run`).
-/

namespace BehaviorTree.Executor

variable {T : Type}

/-- The executor as it were if it had not been paused. -/
def unpaused (e : Executor T) : Executor T :=
  { e with state := if e.state = .paused then .running else e.state }

/-- An outcome as it were if the executor had not been paused. -/
def Outcome.unpaused (o : Outcome T) : Outcome T := { o with executor := o.executor.unpaused }

section Unpaused

variable {e : Executor T} {o : Outcome T}

theorem unpaused_state (paused : e.state = .paused) : e.unpaused.state = .running := if_pos paused

theorem unpaused_of_ne (other : e.state ≠ .paused) : e.unpaused = e := by
  rw [unpaused, if_neg other]

theorem Outcome.unpaused_of_ne (other : o.executor.state ≠ .paused) : o.unpaused = o := by
  rw [unpaused, Executor.unpaused_of_ne other]

end Unpaused

variable [Clock T]

/-- What is left of a call that is accepted. -/
def left (e : Executor T) : Call T → List (Call T)
  | .pause | .resume => []
  | .update frameDelta => if e.state = .running then [.update frameDelta] else []
  | .step => if e.state = .paused then [.tick e.interval] else [.step]
  | other => [other]

/-- What is left of calls that are made one after the other. -/
def shorten (e : Executor T) (s : SharedBlackboard) : List (Call T) → List (Call T)
  | [] => []
  | c :: calls =>
    let first := e.perform s c
    (if (e.call s c).isOk then e.left c else []) ++ first.executor.shorten first.shared calls

variable {e : Executor T} {s : SharedBlackboard} {c : Call T} {o : Outcome T}

theorem performAll_of_does (does : e.Does s c o) : e.performAll s [c] = o := by
  have performed := perform_of_accepted (call_eq_ok.2 does)
  simp only [performAll, performed, Outcome.followedBy, List.append_nil]

/-- What is left of a call made while paused does the same while running. -/
theorem performAll_left_of_paused (paused : e.state = .paused) (does : e.Does s c o) :
    e.unpaused.performAll s (e.left c) = o.unpaused := by
  cases does with
  | start alive idle => simp [paused] at idle
  | pause alive running => simp [paused] at running
  | tick running => simp [paused] at running
  | update alive running => simp [paused] at running
  | resume =>
    have same : e.unpaused = { e with state := .running } := by rw [unpaused, if_pos paused]
    show (⟨[], e.unpaused, s⟩ : Outcome T) = _
    rw [same]
    rfl
  | @step tree still alive =>
    have same : e.stepping s = e := if_neg fun opens => by simp [paused] at opens
    rw [same] at alive ⊢
    rw [left, if_pos paused]
    exact performAll_of_does (.tick (unpaused_state paused) alive)
  | wait =>
    rw [left, if_neg (by simp [paused])]
    rfl
  | stop alive => exact performAll_of_does (.stop alive)
  | takeTypeChanges => exact performAll_of_does .takeTypeChanges
  | destroy => exact performAll_of_does .destroy
  | transact change => exact performAll_of_does (.transact change)
  | direct change => exact performAll_of_does (.direct change)

/-- What is left of a call made while not paused does the same, but does not pause. -/
theorem performAll_left_of_ne (other : e.state ≠ .paused) (does : e.Does s c o) :
    e.unpaused.performAll s (e.left c) = o.unpaused := by
  have whole (left : e.left c = [c]) (goesOn : o.executor.state ≠ .paused) :
      e.performAll s (e.left c) = o.unpaused := by
    rw [left, performAll_of_does does, Outcome.unpaused_of_ne goesOn]
  rw [unpaused_of_ne other]
  cases does with
  | pause alive running =>
    have same : { e with state := ExecutorState.running } = e := by rw [← running]
    show (⟨[], e, s⟩ : Outcome T) = ⟨[], { e with state := .running }, s⟩
    rw [same]
  | resume alive paused => exact absurd paused other
  | wait alive still =>
    rw [left, if_neg still]
    exact (Outcome.unpaused_of_ne (o := ⟨[], e, s⟩) other).symm
  | start => exact whole rfl (by simp)
  | stop => exact whole rfl (by simp)
  | destroy => exact whole rfl (by simp [Executor.destroy])
  | step still alive =>
    refine whole (if_neg other) ?_
    have state : (e.stepping s).state = e.state := by
      unfold stepping
      split <;> rfl
    exact fun paused => other (state.symm.trans paused)
  | @update frameDelta alive running checked =>
    refine whole (if_pos running) ?_
    have kept := (tickWhileDue_kept e.config.maxTicksPerUpdate (e.addFrame frameDelta) s).1
    exact fun paused => other (kept.state.symm.trans paused)
  | tick => exact whole rfl other
  | takeTypeChanges => exact whole rfl other
  | transact => exact whole rfl other
  | direct => exact whole rfl other

/-- What is left of a call leads to the same. -/
theorem performAll_left (e : Executor T) (s : SharedBlackboard) (c : Call T) :
    e.unpaused.performAll s (if (e.call s c).isOk then e.left c else []) =
      (e.perform s c).unpaused := by
  cases made : e.call s c with
  | error error =>
    rw [perform_of_refused made]
    rfl
  | ok o =>
    rw [perform_of_accepted made]
    by_cases paused : e.state = .paused
    · exact performAll_left_of_paused paused (call_eq_ok.1 made)
    · exact performAll_left_of_ne paused (call_eq_ok.1 made)

/-- What is left of a run, on an executor that was not paused. -/
theorem performAll_shorten (e : Executor T) (s : SharedBlackboard)
    (calls : List (Call T)) :
    e.unpaused.performAll s (e.shorten s calls) = (e.performAll s calls).unpaused := by
  induction calls generalizing e s with
  | nil => rfl
  | cons c calls ih =>
    have others := ih (e.perform s c).executor (e.perform s c).shared
    rw [shorten, performAll_append, performAll_left]
    simp only [Outcome.unpaused] at others ⊢
    rw [others]
    rfl

/-- Pausing never changes a run: what is left of the calls leads to the same reports in the same
order, to the same blackboard, and to the same executor with the same tree, outputs, type changes
and times, except that it is running where the other one is paused. -/
theorem pausing_changes_no_run (t : CompiledTree) (config : ExecutorConfig) (entropy : Nat)
    (s : SharedBlackboard) (calls : List (Call T)) :
    let e : Executor T := new t config entropy
    let run := e.performAll s calls
    e.performAll s (e.shorten s calls) = { run with executor := run.executor.unpaused } :=
  performAll_shorten (new t config entropy) s calls

end BehaviorTree.Executor
