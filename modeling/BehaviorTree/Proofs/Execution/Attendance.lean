import BehaviorTree.Proofs.Execution.Passes

/-!
# Nodes that run are come back to

While a node runs, so do all nodes above it, and each of them comes back to it in the next tick: it
is evaluated again, or cut short (`attended`). Only a timeout cuts its child short, and it fails
then (`cleared_below_timeout`). In passes that do not run backwards in time a tree keeps the
invariant that this rests on (`sound_replay`).
-/

namespace BehaviorTree

variable {T : Type} [Clock T]

/-! ## Every node on the way comes back to its child -/

section Attended

variable {time : TickTime T} {kind : CompositeKind} {cursor place next i : Nat} {n : CompiledNode}
  {state state' : NodeState T} {children children' : List (LiveTree T)} {t s c : LiveTree T}
  {w w' : World} {status : Status} {trace : Trace}

/-- A composite comes back to the child at its cursor. -/
theorem Proceeds.attended
    (did : Proceeds time kind cursor place children w status next children' w' trace)
    (at_ : children[i]? = some c) (here : place + i = cursor) :
    (trace.child (place + i)).own ≠ [] := by
  induction did generalizing i with
  | ended => cases at_
  | skipped before later ih =>
    cases i with
    | zero => omega
    | succ i =>
      rw [← Nat.succ_add_eq_add_succ] at here ⊢
      exact ih at_ here
  | running reached runs =>
    obtain rfl : i = 0 := by omega
    simp
  | settled reached settles =>
    obtain rfl : i = 0 := by omega
    simp
  | passed reached ends unsettled later ih =>
    obtain rfl : i = 0 := by omega
    simp

/-- A node comes back to the child that runs. -/
theorem Acts.attended (did : Acts time n w state children state' status children' w' trace)
    (sound : NodeSound time.now ⟨n, state⟩ children) (at_ : children[i]? = some c)
    (runs : c.status = .running) : (trace.child i).own ≠ [] := by
  have mem := List.mem_of_getElem? at_
  have place : 0 + i = state.cursor := sound.only i c at_ runs
  have first (single : ∀ kind, n.behavior ≠ .composite kind) : i = 0 := by
    rw [sound.fits.cursor_eq_zero single] at place
    omega
  cases did with
  | bareRoot is => cases at_
  | root is =>
    obtain rfl := first (by simp [is])
    simp
  | composite is proceeds =>
    have listed := proceeds.attended at_ place
    rwa [Nat.zero_add] at listed
  | bareDecorator is => cases at_
  | refused is entry =>
    obtain ⟨rfl, closed⟩ := enterDecorator_refuse entry
    exact absurd (sound.gate is c mem runs) closed
  | cutShort is entry =>
    obtain rfl := first (by simp [is])
    simp
  | proceeded is entry =>
    obtain rfl := first (by simp [is])
    simp
  | condition is => exact absurd is (sound.carried c mem runs).2.1
  | handler is => exact absurd is ((sound.carried c mem runs).2.2 _)

/-- So every node that runs is evaluated in the next tick or cut short. -/
theorem attended (sound : LiveTree.Sound time.now t) {path : List Nat} (at_ : t.at? path = some s)
    (runs : s.status = .running) (w : World) : ((visits time t w).inside path).own ≠ [] := by
  induction path generalizing t w with
  | nil => simp [Trace.inside]
  | cons i path ih =>
    obtain ⟨c, at_i, at'⟩ := Tree.at?_cons.1 at_
    have below := sound.child_sound (List.mem_of_getElem? at_i)
    have listed : ((visits time t w).child i).own ≠ [] := by
      obtain ⟨⟨n, state⟩, children⟩ := t
      obtain ⟨state', status, children', w', trace, did, evaluated, traced⟩ :=
        acts time n state children w
      rw [traced, Trace.child_append, Trace.child_self, List.append_nil]
      exact did.attended sound.root_sound at_i (below.running_of_at? at' runs)
    obtain ⟨c', -, fate⟩ := Fate.child (.evaluated w) at_i
    rw [Trace.inside]
    generalize (visits time t w).child i = trace at fate listed
    cases fate with
    | left => exact absurd rfl listed
    | cutShort => simp [inside_cuts at']
    | evaluated w' => exact ih below at' w'

omit [Clock T] in
theorem Event.time_of_ofTrace {e : Evaluation T} (is : Event.ofTrace time trace = .evaluated e) :
    e.time = time := by
  rw [Event.ofTrace] at is
  split at is <;> cases is
  rfl

/-- No pass leaves a node alone that runs. -/
theorem Pass.event_ne_left {pass : Pass T} {now : T} [LawfulClock T]
    (sound : LiveTree.Sound now t) (future : Clock.atMost Clock.zero now)
    (timed : Executor.Timed now [pass]) (forward : Clock.atMost Clock.zero pass.time.delta)
    {path : List Nat} (at_ : t.at? path = some s) (runs : s.status = .running) :
    pass.event path t ≠ .left := by
  have listed : ((pass.trace t).inside path).own ≠ [] := by
    cases pass with
    | reset => simp [trace, inside_cuts at_]
    | tick time w =>
      refine attended (sound.later future ?_) at_ runs w
      rw [timed.1]
      exact LawfulClock.atMost_add future forward
  rw [Pass.event, Event.ofTrace]
  split <;> simp_all

end Attended

/-! ## Timeouts are what clears nodes in a tick -/

section Clears

variable {time : TickTime T} {kind : CompositeKind} {cursor place next i : Nat} {n : CompiledNode}
  {state state' : NodeState T} {children children' : List (LiveTree T)} {t s c : LiveTree T}
  {w w' : World} {status : Status} {trace : Trace}

/-- A child that is evaluated is not cut short, and neither is one beside it. -/
theorem not_cutShort_below (child : LiveTree T) (w : World) (place i : Nat) :
    Part.cutShort ∉ (((visits time child w).below place).child i).own := by
  by_cases here : place = i
  · subst here
    simp
  · rw [Trace.child_below_ne _ here]
    exact List.not_mem_nil

theorem Proceeds.not_cutShort
    (did : Proceeds time kind cursor place children w status next children' w' trace) (i : Nat) :
    Part.cutShort ∉ (trace.child i).own := by
  induction did with
  | ended => exact List.not_mem_nil
  | skipped before later ih => exact ih
  | running reached runs => exact not_cutShort_below _ _ _ i
  | settled reached settles => exact not_cutShort_below _ _ _ i
  | passed reached ends unsettled later ih =>
    rw [Trace.child_append, Trace.own_append, List.mem_append, not_or]
    exact ⟨not_cutShort_below _ _ _ i, ih⟩

/-- Only a timeout cuts a child short, its first one, and fails then. -/
theorem Acts.of_cutShort (did : Acts time n w state children state' status children' w' trace)
    (cut : Part.cutShort ∈ (trace.child i).own) :
    n.behavior = .decorator .timeout ∧ i = 0 ∧ status = .failure ∧ trace.results = [] := by
  cases did with
  | composite is proceeds => exact absurd cut (proceeds.not_cutShort i)
  | root is => exact absurd cut (not_cutShort_below _ _ _ i)
  | proceeded is entry => exact absurd cut (not_cutShort_below _ _ _ i)
  | cutShort is entry =>
    obtain ⟨rfl, -⟩ := enterDecorator_cutShort entry
    cases i with
    | zero => exact ⟨is, rfl, rfl, results_cuts ..⟩
    | succ i =>
      rw [Trace.child_below_ne _ (by omega)] at cut
      cases cut
  | _ => cases cut

/-- A tick clears a node only below the child of a timeout that fails and evaluates no child. -/
theorem cleared_below_timeout {path : List Nat} (at_ : t.at? path = some s)
    (cleared : (Pass.tick time w).event path t = .cleared) :
    ∃ above below live e, path = above ++ 0 :: below ∧ t.at? above = some live ∧
      live.label.node.behavior = .decorator .timeout ∧
      (Pass.tick time w).event above t = .evaluated e ∧ e.children = [] ∧ e.status = .failure := by
  induction path generalizing t w with
  | nil =>
    rw [Pass.event, Pass.trace, Trace.inside, Event.ofTrace, own_visits] at cleared
    cases cleared
  | cons i path ih =>
    obtain ⟨c, at_i, at_s⟩ := Tree.at?_cons.1 at_
    obtain ⟨c', -, fate⟩ := Fate.child (.evaluated w : Fate time t _ _) at_i
    have lift (above : List Nat) (trace : Trace) (is : (visits time t w).child i = trace) :
        (Pass.tick time w).event (i :: above) t = .ofTrace time (trace.inside above) :=
      congrArg (fun trace => Event.ofTrace time (Trace.inside above trace)) is
    generalize traced : (visits time t w).child i = trace at fate
    cases fate with
    | left =>
      rw [lift path _ traced, Trace.inside_nil] at cleared
      cases cleared
    | cutShort =>
      obtain ⟨⟨n, state⟩, children⟩ := t
      obtain ⟨state', status, children', w', trace, did, evaluated, visited⟩ :=
        acts time n state children w
      have cut : Part.cutShort ∈ (trace.child i).own := by
        rw [visited, Trace.child_append, Trace.child_self, List.append_nil] at traced
        rw [traced, own_cuts]
        exact List.mem_cons_self
      obtain ⟨is, rfl, rfl, results⟩ := did.of_cutShort cut
      refine ⟨[], path, _, _, rfl, rfl, is, by rw [Pass.event, Pass.trace, Trace.inside,
        Event.ofTrace, own_visits], ?_, ?_⟩
      · rw [visited, Trace.results_append, results]
        rfl
      · rw [evaluated]
        rfl
    | evaluated w' =>
      rw [lift path _ traced] at cleared
      obtain ⟨above, below, live, e, rfl, found, is, rest⟩ := ih at_s cleared
      refine ⟨i :: above, below, live, e, rfl, Tree.at?_cons.2 ⟨c, at_i, found⟩, is, ?_⟩
      rw [lift above _ traced]
      exact rest

end Clears

/-! ## The invariant along passes -/

open Executor (Timed timeAfter)

/-- The tree and its time keep the invariant of soundness in passes that do not run backwards. -/
theorem sound_replay [LawfulClock T] {now : T} {t : LiveTree T} {passes : List (Pass T)}
    (sound : LiveTree.Sound now t) (future : Clock.atMost Clock.zero now) (timed : Timed now passes)
    (forward : ∀ pass ∈ passes, Clock.atMost Clock.zero pass.time.delta) :
    LiveTree.Sound (timeAfter now passes) (replay t passes) ∧
      Clock.atMost Clock.zero (timeAfter now passes) := by
  induction passes generalizing now t with
  | nil => exact ⟨sound, future⟩
  | cons pass passes ih =>
    obtain ⟨first, others⟩ := List.forall_mem_cons.1 forward
    cases pass with
    | reset => exact ih (LiveTree.sound_reset _ _) LawfulClock.zero_atMost_zero timed others
    | tick time w =>
      have later : Clock.atMost now time.now := by
        rw [timed.1]
        exact LawfulClock.atMost_add future first
      exact ih (evaluate_sound time t w (sound.later future later))
        (LawfulClock.atMost_trans future later) timed.2 others

end BehaviorTree
