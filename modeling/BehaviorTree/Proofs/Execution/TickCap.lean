import BehaviorTree.Proofs.Execution.Clock
import BehaviorTree.Proofs.Execution.Runs

/-!
# The cap on the ticks of an update

An update stops at its cap although more ticks are due. The time of these stays collected, and all
that the loop knows is in the executor, so that later updates without frame time go on where it
stopped. Time is read exactly here: only then does a frame of no length add nothing.
-/

namespace BehaviorTree

namespace Executor

variable {T : Type}

/-! ## Settings with another cap -/

/-- The executor with another cap on the ticks of one update. -/
def capped (cap : ℕ) (e : Executor T) : Executor T :=
  { e with config := { e.config with maxTicksPerUpdate := cap } }

/-- The outcome with another cap on the ticks of later updates. -/
def Outcome.capped (cap : ℕ) (o : Outcome T) : Outcome T :=
  { o with executor := o.executor.capped cap }

variable {e : Executor T} {s : SharedBlackboard}

theorem Outcome.followedBy_assoc (first second third : Outcome T) :
    (first.followedBy second).followedBy third = first.followedBy (second.followedBy third) := by
  simp only [Outcome.followedBy, List.append_assoc]

variable [Clock T]

/-- Calls that have to be accepted, made one after the other. -/
def callAll (e : Executor T) (s : SharedBlackboard) :
    List (Call T) → Except ExecutorError (Outcome T)
  | [] => .ok ⟨[], e, s⟩
  | c :: calls => do
    let first ← e.call s c
    return first.followedBy (← first.executor.callAll first.shared calls)

/-! ## The loop, cut and resumed -/

/-- A loop of many ticks is a loop of some of them, and then one of the others. -/
theorem tickWhileDue_add (count others : ℕ) (e : Executor T) (s : SharedBlackboard) :
    let first := Outcome.ofTicks (tickWhileDue count e s)
    Outcome.ofTicks (tickWhileDue (count + others) e s) =
      first.followedBy (.ofTicks (tickWhileDue others first.executor first.shared)) := by
  induction count generalizing e s with
  | zero =>
    rw [Nat.zero_add]
    rfl
  | succ count ih =>
    rw [Nat.succ_add]
    rcases e.due_or_early with ⟨tree, alive, due⟩ | early
    · rw [tickWhileDue_due alive due, tickWhileDue_due alive due, ih]
      exact (Outcome.followedBy_assoc _ _ _).symm
    · -- The loop has ended by itself, and goes on ending.
      rw [tickWhileDue_early early, tickWhileDue_early early]
      dsimp only [Outcome.ofTicks]
      rw [tickWhileDue_early early]
      rfl

/-- The loop reads its cap once, when it begins. -/
theorem tickWhileDue_capped (cap count : ℕ) (e : Executor T) (s : SharedBlackboard) :
    Outcome.ofTicks (tickWhileDue count (e.capped cap) s) =
      (Outcome.ofTicks (tickWhileDue count e s)).capped cap := by
  induction count generalizing e s with
  | zero => rfl
  | succ count ih =>
    rcases e.due_or_early with ⟨tree, alive, due⟩ | early
    · rw [tickWhileDue_due alive due, tickWhileDue_due (e := e.capped cap) alive due]
      have others := ih (e.paid.tickTree tree e.interval s).2.1
        (e.paid.tickTree tree e.interval s).2.2
      exact congrArg (Outcome.followedBy _) others
    · rw [tickWhileDue_early early, tickWhileDue_early (e := e.capped cap) early]
      rfl

/-! ## Updates -/

/-- An executor that performs ticks when it is updated. -/
structure Updates (e : Executor T) (cap : ℕ) : Prop where
  alive : e.tree.isSome
  running : e.state = .running
  checked : ExecutorConfig.checkInterval e.config.tickInterval = .ok ()
  cap : e.config.maxTicksPerUpdate = cap

variable {cap : ℕ}

omit [Clock T] in
/-- What ticks keep of an executor is all that an update asks for. -/
theorem Updates.kept {e' : Executor T} (updates : e.Updates cap) (kept : e.Kept e') :
    e'.Updates cap where
  alive := by
    have same := congrArg Option.isSome kept.compiled
    rw [Option.isSome_map, Option.isSome_map] at same
    exact same.trans updates.alive
  running := kept.state.trans updates.running
  checked := by
    rw [kept.config]
    exact updates.checked
  cap := by
    rw [kept.config]
    exact updates.cap

theorem Updates.call (updates : e.Updates cap) (frame : T) (s : SharedBlackboard) :
    e.call s (.update frame) = .ok (.ofTicks (tickWhileDue cap (e.addFrame frame) s)) := by
  rw [← updates.cap]
  exact call_eq_ok.2 (.update updates.alive updates.running updates.checked)

/-- Whether an update is refused, does nothing or performs ticks does not depend on the cap, nor on
the frame. -/
theorem update_cases (e : Executor T) (s : SharedBlackboard) :
    (∃ error, ∀ cap frame, (e.capped cap).call s (.update frame) = .error error) ∨
      (∀ cap frame, (e.capped cap).call s (.update frame) = .ok ⟨[], e.capped cap, s⟩) ∨
      ∀ cap, (e.capped cap).Updates cap := by
  cases alive : e.tree with
  | none =>
    refine .inl ⟨.destroyed, fun cap frame => ?_⟩
    simp only [call, update, liveTree, capped, alive]
    rfl
  | some tree =>
    have living (cap : ℕ) : (e.capped cap).tree.isSome := Option.isSome_of_eq_some alive
    by_cases running : e.state = .running
    · cases checked : ExecutorConfig.checkInterval e.config.tickInterval with
      | ok => exact .inr (.inr fun cap => ⟨living cap, running, checked, rfl⟩)
      | error error =>
        refine .inl ⟨error, fun cap frame => ?_⟩
        simp only [call, update, liveTree, capped, alive, running, checked]
        rfl
    · exact .inr (.inl fun cap frame => call_eq_ok.2 (.wait (living cap) running))

/-- A call that does nothing does nothing however often it is made. -/
theorem callAll_replicate {c : Call T} (nothing : e.call s c = .ok ⟨[], e, s⟩) (m : ℕ) :
    e.callAll s (List.replicate m c) = .ok ⟨[], e, s⟩ := by
  induction m with
  | zero => rfl
  | succ m ih => exact Checks.bind_eq_ok.2 ⟨_, nothing, Checks.map_eq_ok.2 ⟨_, ih, rfl⟩⟩

/-! ## Frames of no length -/

/-- A frame of no length adds nothing to the time collected. -/
theorem addFrame_zero (e : Executor ℚ) : e.addFrame 0 = e := by
  have neutral : e.accumulator + max 0 0 * e.config.speed.toRat = e.accumulator := by
    rw [max_self, zero_mul, add_zero]
  exact congrArg (fun collected => { e with accumulator := collected }) neutral

/-- Updates without frame time perform the ticks that are still due, the cap of each at a time. -/
theorem Updates.callAll {e : Executor ℚ} (updates : e.Updates cap) (s : SharedBlackboard) (m : ℕ) :
    e.callAll s (List.replicate m (.update 0)) =
      .ok (.ofTicks (tickWhileDue (m * cap) e s)) := by
  induction m generalizing e s with
  | zero =>
    rw [Nat.zero_mul]
    rfl
  | succ m ih =>
    let first := Outcome.ofTicks (tickWhileDue cap e s)
    have called : e.call s (.update 0) = .ok first := by
      rw [updates.call, addFrame_zero]
    have later := ih (updates.kept (tickWhileDue_kept cap e s).1) first.shared
    refine Checks.bind_eq_ok.2 ⟨first, called, Checks.map_eq_ok.2 ⟨_, later, ?_⟩⟩
    rw [Nat.succ_mul, Nat.add_comm]
    exact (tickWhileDue_add cap (m * cap) e s).symm

/-- The cap only puts ticks off: an update and then others without frame time are what one update
is whose cap is that of all of them. They are refused alike, they perform the same ticks, and they
end in the same state but for the cap, on the same blackboard. -/
theorem cap_postpones (e : Executor ℚ) (s : SharedBlackboard) (frame : ℚ) (cap m : ℕ) :
    (e.capped cap).callAll s (.update frame :: List.replicate m (.update 0)) =
      ((e.capped ((m + 1) * cap)).call s (.update frame)).map (Outcome.capped cap) := by
  rcases e.update_cases s with ⟨error, refused⟩ | nothing | updates
  · simp only [callAll, refused]
    rfl
  · rw [nothing]
    have later := callAll_replicate (nothing cap 0) m
    exact Checks.bind_eq_ok.2 ⟨_, nothing cap frame, Checks.map_eq_ok.2 ⟨_, later, rfl⟩⟩
  · let fed := e.addFrame frame
    let first := Outcome.ofTicks (tickWhileDue cap (fed.capped cap) s)
    have called : (e.capped cap).call s (.update frame) = .ok first := (updates cap).call frame s
    have fits : (fed.capped cap).Updates cap :=
      (updates cap).kept ⟨rfl, rfl, rfl, rfl⟩
    have later := (fits.kept (tickWhileDue_kept cap (fed.capped cap) s).1).callAll first.shared m
    have once : (e.capped ((m + 1) * cap)).call s (.update frame) =
        .ok ((Outcome.ofTicks (tickWhileDue ((m + 1) * cap) fed s)).capped ((m + 1) * cap)) := by
      rw [(updates _).call]
      exact congrArg Except.ok (tickWhileDue_capped ((m + 1) * cap) _ fed s)
    rw [once]
    refine Checks.bind_eq_ok.2 ⟨first, called, Checks.map_eq_ok.2 ⟨_, later, ?_⟩⟩
    calc first.followedBy (.ofTicks (tickWhileDue (m * cap) first.executor first.shared))
        = .ofTicks (tickWhileDue ((m + 1) * cap) (fed.capped cap) s) := by
          rw [Nat.succ_mul, Nat.add_comm]
          exact (tickWhileDue_add cap (m * cap) (fed.capped cap) s).symm
      _ = (Outcome.ofTicks (tickWhileDue ((m + 1) * cap) fed s)).capped cap :=
          tickWhileDue_capped cap _ fed s

end Executor

end BehaviorTree
