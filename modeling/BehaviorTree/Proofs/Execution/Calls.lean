import BehaviorTree.Execution.Executor
import BehaviorTree.Proofs.Checks
import BehaviorTree.Proofs.Number.Rounding

/-!
# What calls of an executor do

Each call that succeeds says in which state the executor was, and what became of it.
-/

namespace BehaviorTree

namespace Executor

variable {T : Type} {e e' : Executor T} {s s' : SharedBlackboard}

theorem liveTree_eq_ok {t : LiveTree T} : e.liveTree = .ok t ↔ e.tree = some t := by
  simp only [liveTree]
  split <;> simp_all

theorem isSome_of_liveTree {tree : LiveTree T} (alive : e.liveTree = .ok tree) : e.tree.isSome :=
  Option.isSome_of_eq_some (liveTree_eq_ok.1 alive)

theorem liveTree_of_isSome (alive : e.tree.isSome) : ∃ tree, e.liveTree = .ok tree := by
  obtain ⟨tree, alive⟩ := Option.isSome_iff_exists.1 alive
  exact ⟨tree, liveTree_eq_ok.2 alive⟩

theorem of_pause (done : e.pause = .ok e') :
    e.state = .running ∧ e' = { e with state := .paused } := by
  obtain ⟨_, -, done⟩ := Checks.bind_eq_ok.1 done
  obtain ⟨running, done⟩ := Checks.guard_eq_ok.1 done
  exact ⟨Decidable.not_not.1 running, (Except.ok.inj done).symm⟩

theorem of_resume (done : e.resume = .ok e') :
    e.state = .paused ∧ e' = { e with state := .running } := by
  obtain ⟨_, -, done⟩ := Checks.bind_eq_ok.1 done
  obtain ⟨paused, done⟩ := Checks.guard_eq_ok.1 done
  exact ⟨Decidable.not_not.1 paused, (Except.ok.inj done).symm⟩

variable [Clock T]

/-- Starting opens a session, if there is none, and begins a run. -/
theorem of_start (done : e.start s = .ok e') :
    e.state = .idle ∧
      e' = { (if e.session.isNone then e.openSession s else e).reset with state := .running } := by
  obtain ⟨_, -, done⟩ := Checks.bind_eq_ok.1 done
  obtain ⟨idle, done⟩ := Checks.guard_eq_ok.1 done
  exact ⟨Decidable.not_not.1 idle, (Except.ok.inj done).symm⟩

/-- Stopping resets the executor and closes the session, whatever the state was. -/
theorem of_stop (done : e.stop s = .ok (e', s')) :
    e' = { e.reset with session := none, state := .idle } := by
  obtain ⟨_, -, done⟩ := Checks.bind_eq_ok.1 done
  exact (Prod.mk.inj (Except.ok.inj done)).1.symm

/-- The executor at the tick of a step. -/
def stepping (e : Executor T) (s : SharedBlackboard) : Executor T :=
  if e.state = .idle ∧ e.session.isNone then (e.openSession s).reset else e

/-- A step opens a session, if it needs to, and performs a regular tick. -/
theorem of_step {report : TickReport T} (done : e.step s = .ok (report, e', s')) :
    e.state ≠ .running ∧ ∃ tree, (e.stepping s).tree = some tree ∧
      (e.stepping s).tickTree tree (e.stepping s).interval s = (report, e', s') := by
  obtain ⟨_, -, done⟩ := Checks.bind_eq_ok.1 done
  have performed (ready : Executor T)
      (done : (do return ready.tickTree (← ready.liveTree) ready.interval s) =
        Except.ok (report, e', s')) :
      ∃ tree, ready.tree = some tree ∧
        ready.tickTree tree ready.interval s = (report, e', s') := by
    obtain ⟨tree, alive, done⟩ := Checks.bind_eq_ok.1 done
    exact ⟨tree, liveTree_eq_ok.1 alive, Except.ok.inj done⟩
  cases state : e.state <;> simp only [state] at done
  case running => cases done
  case paused =>
    have same : e.stepping s = e := if_neg fun opens => by simp [state] at opens
    rw [same]
    exact ⟨by decide, performed e done⟩
  case idle =>
    split at done
    · rename_i fresh
      have opened : e.stepping s = (e.openSession s).reset := if_pos ⟨state, fresh⟩
      rw [opened]
      exact ⟨by decide, performed _ done⟩
    · rename_i open_
      have same : e.stepping s = e := if_neg fun opens => open_ opens.2
      rw [same]
      exact ⟨by decide, performed e done⟩

/-- A tick of a given length is performed while running. -/
theorem of_tick {delta : T} {report : TickReport T}
    (done : e.tick delta s = .ok (report, e', s')) :
    e.state = .running ∧ ∃ tree, e.tree = some tree ∧
      e.tickTree tree delta s = (report, e', s') := by
  obtain ⟨tree, alive, done⟩ := Checks.bind_eq_ok.1 done
  obtain ⟨running, done⟩ := Checks.guard_eq_ok.1 done
  exact ⟨Decidable.not_not.1 running, tree, liveTree_eq_ok.1 alive, Except.ok.inj done⟩

/-- An update performs the ticks that are due, or nothing unless the executor is running. -/
theorem of_update {frameDelta : T} {reports : List (TickReport T)}
    (done : e.update frameDelta s = .ok (reports, e', s')) :
    (e.state ≠ .running ∧ (reports, e', s') = ([], e, s)) ∨
      (e.state = .running ∧ ExecutorConfig.checkInterval e.config.tickInterval = .ok () ∧
        (reports, e', s') =
          tickWhileDue e.config.maxTicksPerUpdate (e.addFrame frameDelta) s) := by
  obtain ⟨_, -, done⟩ := Checks.bind_eq_ok.1 done
  by_cases running : e.state = .running
  · simp only [running, ne_eq, not_true_eq_false, if_false] at done
    obtain ⟨_, checked, done⟩ := Checks.bind_eq_ok.1 done
    exact .inr ⟨running, checked, (Except.ok.inj done).symm⟩
  · simp only [running, ne_eq, not_false_eq_true, if_true] at done
    exact .inl ⟨running, (Except.ok.inj done).symm⟩

/-- An interval that passes the check is positive. -/
theorem interval_of_checkInterval {interval : Number}
    (checked : ExecutorConfig.checkInterval interval = .ok ()) : Number.less 0 interval := by
  obtain ⟨positive, -⟩ := Checks.guard_eq_ok.1 checked
  simp only [Bool.or_eq_true, not_or, Bool.not_eq_true] at positive
  exact Number.less_of_not_atMost positive.1 (by decide +kernel) (by simp [positive.2])

/-- Settings that are valid pass the check of the interval, and their speed is not negative. -/
theorem of_validate {config : ExecutorConfig} (valid : config.validate = .ok ()) :
    ExecutorConfig.checkInterval config.tickInterval = .ok () ∧ Number.atMost 0 config.speed := by
  obtain ⟨_, checked, valid⟩ := Checks.bind_eq_ok.1 valid
  obtain ⟨forward, -⟩ := Checks.guard_eq_ok.1 valid
  simp only [Bool.or_eq_true, not_or, Bool.not_eq_true] at forward
  exact ⟨checked, Number.atMost_of_not_less forward.1 (by decide +kernel) (by simp [forward.2])⟩

end Executor

end BehaviorTree
