import BehaviorTree.Proofs.Execution.Clock
import BehaviorTree.Proofs.Execution.Runs
import Mathlib.Tactic.Linarith

/-!
# Where frame time goes

An update adds the time of a frame to what was collected and takes the time of its ticks off. A tick
that is due within the tolerance takes more than there was, and what it takes too much is made up
for by nothing: the time collected is cut at zero. So time is never lost, but each tick may create
as much as the tolerance; and where the interval is longer than the tolerance, only the last tick
of an update can do so. Time is read exactly here.
-/

namespace BehaviorTree

namespace Executor

open Clock (tolerance reaches)

variable {e : Executor ℚ} {s : SharedBlackboard}

/-! ## What an outcome has created -/

/-- How much more time is left or was used by ticks of some length than was collected before. -/
def Outcome.surplus (o : Outcome ℚ) (interval collected : ℚ) : ℚ :=
  o.executor.accumulator + o.reports.length * interval - collected

/-- Nothing of the time collected was lost, and little was created in a number of updates. -/
structure Outcome.Creates (o : Outcome ℚ) (interval collected : ℚ) (updates : ℕ) : Prop where
  lossless : 0 ≤ o.surplus interval collected
  per_tick : o.surplus interval collected ≤ o.reports.length * tolerance
  per_update : tolerance < interval → o.surplus interval collected ≤ updates * tolerance

namespace Outcome

variable {first others : Outcome ℚ} {interval collected : ℚ} {updates later : ℕ}

/-- What two outcomes one after the other have created. -/
theorem surplus_followedBy (first others : Outcome ℚ) (interval collected g : ℚ) :
    (first.followedBy others).surplus interval (collected + g) =
      first.surplus interval collected +
        others.surplus interval (first.executor.accumulator + g) := by
  simp only [surplus, followedBy, List.length_append, Nat.cast_add]
  ring

theorem Creates.followedBy {g : ℚ} (here : first.Creates interval collected updates)
    (then_ : others.Creates interval (first.executor.accumulator + g) later) :
    (first.followedBy others).Creates interval (collected + g) (updates + later) := by
  constructor
  case lossless =>
    rw [surplus_followedBy]
    exact add_nonneg here.lossless then_.lossless
  case per_tick =>
    rw [surplus_followedBy, Outcome.followedBy, List.length_append, Nat.cast_add, add_mul]
    exact add_le_add here.per_tick then_.per_tick
  case per_update =>
    intro long
    rw [surplus_followedBy, Nat.cast_add, add_mul]
    exact add_le_add (here.per_update long) (then_.per_update long)

/-- Where nothing happens, nothing is created. -/
theorem creates_nothing (e : Executor ℚ) (s : SharedBlackboard) (interval : ℚ) (updates : ℕ) :
    Creates ⟨[], e, s⟩ interval e.accumulator updates := by
  have nothing : surplus ⟨[], e, s⟩ interval e.accumulator = 0 := by
    simp [surplus]
  constructor
  case lossless => exact nothing.ge
  case per_tick => simp [nothing]
  case per_update =>
    intro _
    rw [nothing]
    exact mul_nonneg (Nat.cast_nonneg _) Clock.tolerance_pos.le

end Outcome

/-! ## Ticks that are due -/

/-- A tick creates what was missing. -/
theorem surplus_tick (e : Executor ℚ) (tree : LiveTree ℚ) (s : SharedBlackboard) :
    (Outcome.ofTick (e.paid.tickTree tree e.interval s)).surplus e.interval e.accumulator =
      max (e.interval - e.accumulator) 0 := by
  show max (e.accumulator - e.interval) 0 + (1 : ℕ) * e.interval - e.accumulator = _
  rcases le_total e.interval e.accumulator with covered | short
  · rw [max_eq_left (sub_nonneg.2 covered), max_eq_right (sub_nonpos.2 covered)]
    ring
  · rw [max_eq_right (sub_nonpos.2 short), max_eq_left (sub_nonneg.2 short)]
    ring

/-- A tick that is due creates at most the tolerance. -/
theorem tick_creates (due : reaches e.accumulator e.interval = true) (tree : LiveTree ℚ)
    (s : SharedBlackboard) :
    (Outcome.ofTick (e.paid.tickTree tree e.interval s)).Creates e.interval e.accumulator 1 := by
  have limit := Clock.reaches_iff.1 due
  have created := surplus_tick e tree s
  have most : (Outcome.ofTick (e.paid.tickTree tree e.interval s)).surplus e.interval
      e.accumulator ≤ tolerance := by
    rw [created]
    exact max_le (sub_le_iff_le_add'.2 limit) Clock.tolerance_pos.le
  constructor
  case lossless =>
    rw [created]
    exact le_max_right _ _
  case per_tick => simpa [Outcome.ofTick] using most
  case per_update =>
    intro _
    simpa using most

/-- After a tick that took all there was, no other one is due if the interval is long. -/
theorem tickWhileDue_of_spent (long : tolerance < e.interval) (spent : e.accumulator = 0)
    (count : ℕ) (s : SharedBlackboard) : tickWhileDue count e s = ([], e, s) := by
  apply tickWhileDue_early
  right
  apply Bool.eq_false_iff.2
  intro due
  have limit := Clock.reaches_iff.1 due
  rw [spent, zero_add] at limit
  exact absurd limit (not_le.2 long)

/-- The ticks of one update create at most the tolerance each, and at most the tolerance together
if the interval is longer. -/
theorem tickWhileDue_creates (count : ℕ) (e : Executor ℚ) (s : SharedBlackboard) :
    (Outcome.ofTicks (tickWhileDue count e s)).Creates e.interval e.accumulator 1 := by
  induction count generalizing e s with
  | zero => exact Outcome.creates_nothing e s e.interval 1
  | succ count ih =>
    rcases e.due_or_early with ⟨tree, alive, due⟩ | early
    · rw [tickWhileDue_due alive due]
      let first := Outcome.ofTick (e.paid.tickTree tree e.interval s)
      let others := Outcome.ofTicks (tickWhileDue count first.executor first.shared)
      have here : first.Creates e.interval e.accumulator 1 := tick_creates due tree s
      have rest : others.Creates e.interval first.executor.accumulator 1 := ih _ _
      have whole : (first.followedBy others).surplus e.interval e.accumulator =
          first.surplus e.interval e.accumulator +
            others.surplus e.interval first.executor.accumulator := by
        have both := Outcome.surplus_followedBy first others e.interval e.accumulator 0
        rwa [add_zero, add_zero] at both
      have both := here.followedBy (g := 0) (by rwa [add_zero])
      rw [add_zero] at both
      refine ⟨both.lossless, both.per_tick, fun long => ?_⟩
      show (first.followedBy others).surplus e.interval e.accumulator ≤ _
      rw [whole]
      -- Either this tick took too much, and then it is the last one, or it created nothing.
      rcases le_total e.interval e.accumulator with covered | short
      · have nothing : first.surplus e.interval e.accumulator = 0 :=
          (surplus_tick e tree s).trans (max_eq_right (sub_nonpos.2 covered))
        rw [nothing, zero_add]
        exact rest.per_update long
      · have spent : first.executor.accumulator = 0 := max_eq_right (sub_nonpos.2 short)
        have nothing : others.surplus e.interval first.executor.accumulator = 0 := by
          have last : tickWhileDue count first.executor first.shared =
              ([], first.executor, first.shared) :=
            tickWhileDue_of_spent (e := first.executor) long spent count _
          simp [others, last, Outcome.surplus, Outcome.ofTicks]
        rw [nothing, add_zero]
        exact here.per_update long
    · rw [tickWhileDue_early early]
      exact Outcome.creates_nothing e s e.interval 1

/-! ## Updates -/

/-- What updates with some frames add to the time collected. -/
def scaledTime (speed : Number) (frames : List ℚ) : ℚ :=
  (frames.map fun f => max f 0 * speed.toRat).sum

/-- What every call keeps of an executor: its settings, that it is not destroyed while it runs, and
that the time collected is not negative. -/
structure Collects (config : ExecutorConfig) (e : Executor ℚ) : Prop where
  config : e.config = config
  alive : e.state = .running → e.tree.isSome
  collected : 0 ≤ e.accumulator

variable {config : ExecutorConfig}

theorem Collects.interval (collects : e.Collects config) :
    e.interval = config.tickInterval.toRat := by
  rw [Executor.interval, collects.config, Clock.ofNumber_eq]

theorem collects_new (t : CompiledTree) (config : ExecutorConfig) (entropy : ℕ) :
    Collects config (new t config entropy) where
  config := rfl
  alive _ := rfl
  collected := le_refl (0 : ℚ)

theorem Collects.addFrame (collects : e.Collects config) (valid : config.validate = .ok ())
    (frame : ℚ) : (e.addFrame frame).Collects config := by
  refine ⟨collects.config, collects.alive, ?_⟩
  have forward : 0 ≤ e.config.speed.toRat := by
    rw [collects.config]
    exact Number.toRat_nonneg (of_validate valid).2
  exact add_nonneg collects.collected (mul_nonneg (le_max_right frame 0) forward)

theorem Collects.tickTree (collects : e.Collects config) (tree : LiveTree ℚ) (delta : ℚ)
    (s : SharedBlackboard) : (e.tickTree tree delta s).2.1.Collects config :=
  ⟨collects.config, fun _ => rfl, collects.collected⟩

theorem Collects.tickWhileDue (collects : e.Collects config) (count : ℕ) (s : SharedBlackboard) :
    (Outcome.ofTicks (tickWhileDue count e s)).executor.Collects config := by
  induction count generalizing e s with
  | zero => exact collects
  | succ count ih =>
    rcases e.due_or_early with ⟨tree, alive, due⟩ | early
    · have paid : e.paid.Collects config := ⟨collects.config, collects.alive, le_max_right _ _⟩
      rw [tickWhileDue_due alive due]
      exact ih (paid.tickTree tree e.interval s) _
    · rw [tickWhileDue_early early]
      exact collects

theorem Collects.perform (collects : e.Collects config) (valid : config.validate = .ok ())
    (s : SharedBlackboard) (c : Call ℚ) : (e.perform s c).executor.Collects config := by
  rcases e.perform_cases s c with ⟨-, refused⟩ | ⟨-, does⟩
  · rw [refused]
    exact collects
  · generalize e.perform s c = o at does
    cases does with
    | start alive idle =>
      refine ⟨?settings, fun _ => ?alive, le_rfl⟩
      case settings =>
        show (if e.session.isNone then e.openSession s else e).config = config
        split <;> exact collects.config
      case alive =>
        show ((if e.session.isNone then e.openSession s else e).tree.map LiveTree.reset).isSome
        rw [Option.isSome_map]
        split <;> exact alive
    | pause alive => exact ⟨collects.config, fun _ => alive, collects.collected⟩
    | resume alive => exact ⟨collects.config, fun _ => alive, collects.collected⟩
    | stop => exact ⟨collects.config, fun running => (nomatch running), le_rfl⟩
    | @step tree still alive =>
      have ready : (e.stepping s).Collects config := by
        unfold stepping
        split
        · rename_i opens
          refine ⟨collects.config, fun running => ?_, le_rfl⟩
          exact absurd (opens.1.symm.trans running) (by decide)
        · exact collects
      exact ready.tickTree tree _ s
    | @tick delta tree running alive => exact collects.tickTree tree delta s
    | @update frame alive running checked =>
      exact (collects.addFrame valid frame).tickWhileDue e.config.maxTicksPerUpdate s
    | destroy => exact ⟨collects.config, fun running => (nomatch running), collects.collected⟩
    | _ => exact ⟨collects.config, collects.alive, collects.collected⟩

theorem Collects.performAll (collects : e.Collects config) (valid : config.validate = .ok ())
    (s : SharedBlackboard) (calls : List (Call ℚ)) :
    (e.performAll s calls).executor.Collects config :=
  performAll_keeps (P := fun e _ => e.Collects config)
    (fun collects c => collects.perform valid _ c) collects calls

/-- An update of an executor that runs goes through. -/
theorem Collects.perform_update (collects : e.Collects config) (valid : config.validate = .ok ())
    (running : e.state = .running) (frame : ℚ) (s : SharedBlackboard) :
    e.perform s (.update frame) =
      .ofTicks (Executor.tickWhileDue e.config.maxTicksPerUpdate (e.addFrame frame) s) := by
  apply perform_of_accepted
  apply call_eq_ok.2
  apply Does.update (collects.alive running) running
  rw [collects.config]
  exact (of_validate valid).1

/-- Updates create at most the tolerance for each tick, and for each update if the interval is
longer. -/
theorem Collects.updates_create (collects : e.Collects config) (valid : config.validate = .ok ())
    (running : e.state = .running) (s : SharedBlackboard) (frames : List ℚ) :
    (e.performAll s (frames.map .update)).Creates config.tickInterval.toRat
      (e.accumulator + scaledTime config.speed frames) frames.length := by
  induction frames generalizing e s with
  | nil =>
    have nothing : scaledTime config.speed [] = 0 := rfl
    rw [nothing, add_zero]
    exact Outcome.creates_nothing e s _ 0
  | cons frame frames ih =>
    have performed := collects.perform_update valid running frame s
    have fed := collects.addFrame valid frame
    have here := tickWhileDue_creates e.config.maxTicksPerUpdate (e.addFrame frame) s
    have kept := (tickWhileDue_kept e.config.maxTicksPerUpdate (e.addFrame frame) s).1
    have goesOn : (e.perform s (.update frame)).executor.state = .running := by
      rw [performed]
      exact kept.state.trans running
    have later := ih (collects.perform valid s (.update frame)) goesOn
      (e.perform s (.update frame)).shared
    rw [fed.interval, ← performed] at here
    have collected : (e.addFrame frame).accumulator + scaledTime config.speed frames =
        e.accumulator + scaledTime config.speed (frame :: frames) := by
      rw [scaledTime, scaledTime, List.map_cons, List.sum_cons, ← add_assoc, ← collects.config]
      rfl
    rw [← collected, List.length_cons, Nat.add_comm]
    exact here.followedBy later

/-- On every executor that runs with valid settings, whatever was done to it before, updates lose
no time, and the ticks they perform use no more than was collected and the tolerance for each tick.
If the interval is longer than the tolerance, that is the tolerance for each update; and then the
ticks use less than one interval, and the tolerance for each update but one, more than the ticks of
any other frames of the same total time that leave no tick due. -/
theorem updates_account_for_frame_time (valid : config.validate = .ok ()) (t : CompiledTree)
    (entropy : ℕ) (s : SharedBlackboard) (before : List (Call ℚ))
    (running : ((new t config entropy : Executor ℚ).performAll s before).executor.state = .running)
    (frames : List ℚ) :
    let was := (new t config entropy : Executor ℚ).performAll s before
    let run (frames : List ℚ) := was.executor.performAll was.shared (frames.map .update)
    let given := was.executor.accumulator + scaledTime config.speed frames
    let interval := config.tickInterval.toRat
    let used (frames : List ℚ) : ℚ := (run frames).reports.length * interval
    (0 ≤ (run frames).executor.accumulator ∧
        given ≤ (run frames).executor.accumulator + used frames) ∧
      used frames ≤ given + (run frames).reports.length * tolerance ∧
      (tolerance < interval → used frames ≤ given + frames.length * tolerance ∧
        ∀ frames', scaledTime config.speed frames' = scaledTime config.speed frames →
          reaches (run frames').executor.accumulator interval = false →
          used frames + tolerance < used frames' + interval + frames.length * tolerance) := by
  intro was run given interval used
  have collects : was.executor.Collects config := (collects_new t config entropy).performAll valid s
    before
  have created (frames : List ℚ) := collects.updates_create valid running was.shared frames
  have left (frames : List ℚ) : 0 ≤ (run frames).executor.accumulator :=
    (collects.performAll valid was.shared (frames.map .update)).collected
  have nothing_lost (frames : List ℚ) : was.executor.accumulator + scaledTime config.speed frames ≤
      (run frames).executor.accumulator + used frames := by
    have lossless := (created frames).lossless
    rw [Outcome.surplus] at lossless
    linarith only [lossless]
  refine ⟨⟨left frames, nothing_lost frames⟩, ?ticks, fun long => ?updates⟩
  case ticks =>
    have most := (created frames).per_tick
    rw [Outcome.surplus] at most
    linarith only [most, left frames]
  case updates =>
    have most := (created frames).per_update long
    rw [Outcome.surplus] at most
    have bound : used frames ≤ given + frames.length * tolerance := by
      linarith only [most, left frames]
    refine ⟨bound, fun frames' same settled => ?_⟩
    have short : (run frames').executor.accumulator + tolerance < interval := by
      apply not_le.1
      intro due
      rw [Clock.reaches_iff.2 due] at settled
      cases settled
    have kept := nothing_lost frames'
    rw [same] at kept
    linarith only [bound, kept, short]

/-- One tick for each second. -/
def everySecond : ExecutorConfig := { tickInterval := 1 }

/-- Ticks shorter than the tolerance. -/
def tooShort : ExecutorConfig := { tickInterval := Decimal.toNumber false ⟨1, -10⟩ }

/-- What a run that has just begun makes of frames. -/
def framed (config : ExecutorConfig) (frames : List ℚ) : Outcome ℚ :=
  let started := (new countingTree config : Executor ℚ).performAll {} [.start]
  started.executor.performAll started.shared (frames.map .update)

/-- Just short of a second, by less than the tolerance. -/
def almostSecond : ℚ := 9999999994 / 10000000000

/-- The two ticks of two frames of almost a second use no more time than the frames and the
tolerance for each of them. -/
theorem updates_account_for_frame_time_twice :
    let frames := [almostSecond, almostSecond]
    let run := framed everySecond frames
    run.reports.length = 2 ∧ 0 ≤ run.executor.accumulator ∧
      run.reports.length * everySecond.tickInterval.toRat ≤
        scaledTime everySecond.speed frames + frames.length * tolerance := by
  intro frames run
  obtain ⟨⟨left, -⟩, -, each⟩ := updates_account_for_frame_time
    (by decide +kernel : everySecond.validate = .ok ()) countingTree 0 {} [.start]
    (by decide +kernel) frames
  obtain ⟨bound, -⟩ := each (by decide +kernel)
  have fresh : ((new countingTree everySecond : Executor ℚ).performAll {}
      [.start]).executor.accumulator = 0 := by decide +kernel
  rw [fresh, zero_add] at bound
  exact ⟨by decide +kernel, left, bound⟩

/-- Ticks use more time than there was, by more than the tolerance. Two frames that are short of a
second perform a tick each, and together in one frame they perform only one; and where a tick is
shorter than the tolerance, a frame of no time performs as many ticks as the cap allows. -/
theorem updates_create_frame_time :
    (∀ run ∈ [(everySecond, [almostSecond, almostSecond]), (tooShort, [0])],
      run.1.validate = .ok () ∧
        (framed run.1 []).executor.state = .running ∧ (framed run.1 []).executor.accumulator = 0 ∧
        scaledTime run.1.speed run.2 + tolerance <
          (framed run.1 run.2).reports.length * run.1.tickInterval.toRat) ∧
      (framed everySecond [almostSecond, almostSecond]).reports.length = 2 ∧
      (framed everySecond [almostSecond + almostSecond]).reports.length = 1 := by
  decide +kernel

end Executor

end BehaviorTree
