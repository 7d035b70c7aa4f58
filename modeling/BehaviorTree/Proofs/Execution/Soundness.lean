import BehaviorTree.Execution.Tick
import BehaviorTree.Proofs.Execution.Clock

/-!
# What a tree keeps between ticks

A node that was left running is one that the next tick comes to again, so it may keep where to
resume. Every other node must have forgotten it. The invariant says this of each node together
with its children, and with the time: a cooldown whose child is running must be open, for
otherwise the next tick would pass the child by.
-/

namespace BehaviorTree

variable {T : Type}

/-- Nothing is left to resume. -/
structure NodeState.AtRest (s : NodeState T) : Prop where
  cursor : s.cursor = 0
  counter : s.counter = 0
  running : s.running = false

/-- Whether a node of a kind never has anything to resume. -/
def Behavior.keepsNothing : Behavior → Bool
  | .root | .condition => true
  | .decorator kind => kind != .repeat && kind != .retry && kind != .timeout
  | .composite _ | .handler _ => false

/-- A node uses only what its kind resumes by. -/
structure NodeState.Fits (s : NodeState T) (b : Behavior) : Prop where
  cursor : s.cursor ≠ 0 → ∃ kind, b = .composite kind
  counter : s.counter ≠ 0 → b = .decorator .repeat ∨ b = .decorator .retry
  running : s.running = true → b = .decorator .timeout ∨ ∃ h, b = .handler h

theorem NodeState.AtRest.fits {s : NodeState T} (rests : s.AtRest) (b : Behavior) : s.Fits b :=
  ⟨fun moved => absurd rests.cursor moved, fun counted => absurd rests.counter counted,
    fun runs => absurd (rests.running.symm.trans runs) (by decide)⟩

/-- The status has no part in it. -/
theorem NodeState.AtRest.withStatus {s : NodeState T} (rests : s.AtRest) (status : Status) :
    NodeState.AtRest { s with status := status } :=
  ⟨rests.cursor, rests.counter, rests.running⟩

namespace NodeState.Fits

variable {s : NodeState T} {b : Behavior}

theorem cursor_eq_zero (fits : s.Fits b) (other : ∀ kind, b ≠ .composite kind) :
    s.cursor = 0 := by
  apply Classical.byContradiction
  intro moved
  obtain ⟨kind, is⟩ := fits.cursor moved
  exact other kind is

theorem counter_eq_zero (fits : s.Fits b) (repeats : b ≠ .decorator .repeat)
    (retries : b ≠ .decorator .retry) : s.counter = 0 := by
  apply Classical.byContradiction
  intro counted
  rcases fits.counter counted with is | is
  · exact repeats is
  · exact retries is

theorem running_eq_false (fits : s.Fits b) (timeout : b ≠ .decorator .timeout)
    (handler : ∀ h, b ≠ .handler h) : s.running = false := by
  apply Bool.eq_false_iff.2
  intro runs
  rcases fits.running runs with is | ⟨h, is⟩
  · exact timeout is
  · exact handler h is

theorem withStatus (fits : s.Fits b) (status : Status) : Fits { s with status := status } b :=
  ⟨fits.cursor, fits.counter, fits.running⟩

theorem atRest (fits : s.Fits b) (nothing : b.keepsNothing = true) : s.AtRest where
  cursor := fits.cursor_eq_zero (by rintro kind rfl; simp [Behavior.keepsNothing] at nothing)
  counter := fits.counter_eq_zero (by rintro rfl; simp [Behavior.keepsNothing] at nothing)
    (by rintro rfl; simp [Behavior.keepsNothing] at nothing)
  running := fits.running_eq_false (by rintro rfl; simp [Behavior.keepsNothing] at nothing)
    (by rintro h rfl; simp [Behavior.keepsNothing] at nothing)

end NodeState.Fits

/-- Of trees that follow one another from a place on, none is running but the one at `cursor`. -/
def RunsOnlyAt (cursor place : Nat) (children : List (LiveTree T)) : Prop :=
  ∀ i child, children[i]? = some child → child.status = .running → place + i = cursor

/-- A composite that is running resumes at the child that is. -/
structure Resumes (status : Status) (cursor place : Nat) (children : List (LiveTree T)) :
    Prop where
  only : RunsOnlyAt cursor place children
  active : status = .running →
    ∃ i child, children[i]? = some child ∧ child.status = .running ∧ place + i = cursor
  settled : status ≠ .running → cursor = 0 ∧ ∀ child ∈ children, child.status ≠ .running

/-- The gate of a cooldown is open: no time to wait for is left. -/
def NodeState.Open [Clock T] (now : T) (s : NodeState T) : Prop :=
  ∀ readyAt, s.readyAt = some readyAt → Clock.isBefore now readyAt = false

/-- The invariant of a node with its children. -/
structure NodeSound [Clock T] (now : T) (n : LiveNode T) (children : List (LiveTree T)) :
    Prop where
  fits : n.state.Fits n.node.behavior
  rests : n.state.status ≠ .running → n.state.AtRest
  only : RunsOnlyAt n.state.cursor 0 children
  /-- A child does not run by itself, and none runs below a leaf. -/
  carried : ∀ child ∈ children, child.status = .running → n.state.status = .running ∧
    n.node.behavior ≠ .condition ∧ ∀ h, n.node.behavior ≠ .handler h
  active : ∀ kind, n.node.behavior = .composite kind → n.state.status = .running →
    ∃ child, children[n.state.cursor]? = some child ∧ child.status = .running
  fed : ∀ kind, n.node.behavior = .decorator kind → n.state.status = .running → children ≠ []
  gate : n.node.behavior = .decorator .cooldown →
    ∀ child ∈ children, child.status = .running → n.state.Open now

/-- The invariant of a tree. -/
inductive LiveTree.Sound [Clock T] (now : T) : LiveTree T → Prop
  | node {n : LiveNode T} {children : List (LiveTree T)} (here : NodeSound now n children)
      (below : ∀ child ∈ children, Sound now child) : Sound now (.node n children)

/-! ## Lists of children -/

namespace RunsOnlyAt

variable {cursor place : Nat} {child child' : LiveTree T} {rest : List (LiveTree T)}

theorem cons_iff : RunsOnlyAt cursor place (child :: rest) ↔
    (child.status = .running → place = cursor) ∧ RunsOnlyAt cursor (place + 1) rest := by
  constructor
  · intro only
    refine ⟨only 0 child rfl, fun i other at_i runs => ?_⟩
    have here := only (i + 1) other at_i runs
    omega
  · rintro ⟨first, later⟩ i other at_i runs
    cases i with
    | zero =>
      obtain rfl : child = other := by simpa using at_i
      exact first runs
    | succ i =>
      have here := later i other at_i runs
      omega

/-- Behind the place where one may run, none does. -/
theorem none_running (only : RunsOnlyAt cursor place rest) (behind : cursor < place) :
    ∀ child ∈ rest, child.status ≠ .running := by
  intro child mem runs
  obtain ⟨i, at_i⟩ := List.mem_iff_getElem?.1 mem
  have here := only i child at_i runs
  omega

theorem of_none_running (none : ∀ child ∈ rest, child.status ≠ .running) (cursor place : Nat) :
    RunsOnlyAt cursor place rest :=
  fun _ child at_i runs => absurd runs (none child (List.mem_of_getElem? at_i))

theorem none_behind (only : RunsOnlyAt 0 0 (child :: rest)) :
    ∀ child ∈ rest, child.status ≠ .running :=
  (cons_iff.1 only).2.none_running (by omega)

end RunsOnlyAt

/-! ## Time -/

section Time

variable [Clock T]

theorem NodeState.Open.later [LawfulClock T] {now later : T} {s : NodeState T}
    (open_ : s.Open now) (future : Clock.atMost Clock.zero now) (le : Clock.atMost now later) :
    s.Open later :=
  fun readyAt at_ => Clock.isBefore_of_later future le (open_ readyAt at_)

theorem NodeSound.later [LawfulClock T] {now later : T} {n : LiveNode T}
    {children : List (LiveTree T)} (sound : NodeSound now n children)
    (future : Clock.atMost Clock.zero now) (le : Clock.atMost now later) :
    NodeSound later n children :=
  { sound with
    gate := fun cooldown child mem runs => (sound.gate cooldown child mem runs).later future le }

/-- The invariant does not wear off while time goes by. -/
theorem LiveTree.Sound.later [LawfulClock T] {now later : T} {t : LiveTree T}
    (sound : LiveTree.Sound now t) (future : Clock.atMost Clock.zero now)
    (le : Clock.atMost now later) : LiveTree.Sound later t := by
  induction sound with
  | node here below ih => exact .node (here.later future le) ih

/-! ## The beginning of a run -/

theorem NodeState.atRest_initial : (NodeState.initial : NodeState T).AtRest := ⟨rfl, rfl, rfl⟩

/-- A node at rest is sound above children that do not run. -/
theorem NodeSound.of_atRest {now : T} {n : LiveNode T} {children : List (LiveTree T)}
    (rests : n.state.AtRest) (settled : n.state.status ≠ .running)
    (none : ∀ child ∈ children, child.status ≠ .running) : NodeSound now n children where
  fits := rests.fits _
  rests _ := rests
  only := .of_none_running none _ _
  carried child mem runs := absurd runs (none child mem)
  active _ _ runs := absurd runs settled
  fed _ _ runs := absurd runs settled
  gate _ child mem runs := absurd runs (none child mem)

theorem LiveTree.status_of_mem_maps {α : Type} (f : α → CompiledNode) (ts : List (Tree α)) :
    ∀ child : LiveTree T, child ∈ Tree.maps (fun a => ⟨f a, .initial⟩) ts →
      child.status = .idle := by
  induction ts with
  | nil => simp [Tree.maps]
  | cons t rest ih =>
    obtain ⟨label, children⟩ := t
    intro child mem
    rcases List.mem_cons.1 mem with rfl | mem
    · rfl
    · exact ih child mem

mutual

/-- A tree with all its nodes in the initial state is sound. -/
theorem LiveTree.sound_map_initial {α : Type} (now : T) (f : α → CompiledNode) (t : Tree α) :
    LiveTree.Sound now (t.map fun a => ⟨f a, .initial⟩) := by
  match t with
  | .node label children =>
    refine .node (.of_atRest NodeState.atRest_initial (by simp [NodeState.initial]) ?_)
      (LiveTree.sound_maps_initial now f children)
    intro child mem
    simp [LiveTree.status_of_mem_maps f children child mem]

theorem LiveTree.sound_maps_initial {α : Type} (now : T) (f : α → CompiledNode)
    (ts : List (Tree α)) :
    ∀ child ∈ Tree.maps (fun a => (⟨f a, .initial⟩ : LiveNode T)) ts,
      LiveTree.Sound now child := by
  match ts with
  | [] => simp [Tree.maps]
  | t :: rest =>
    intro child mem
    rcases List.mem_cons.1 mem with rfl | mem
    · exact LiveTree.sound_map_initial now f t
    · exact LiveTree.sound_maps_initial now f rest child mem

end

theorem LiveTree.sound_ofCompiled (now : T) (t : Tree CompiledNode) :
    LiveTree.Sound now (LiveTree.ofCompiled t) :=
  LiveTree.sound_map_initial now id t

theorem LiveTree.sound_reset (now : T) (t : LiveTree T) : LiveTree.Sound now t.reset :=
  LiveTree.sound_map_initial now LiveNode.node t

end Time

end BehaviorTree
