import BehaviorTree.History.Basic
import BehaviorTree.Proofs.History.Commands

/-!
# Histories as timelines

A history holds commands and receipts, not graphs. What it stands for is a timeline: the states that
the graph went through, the present one, and those that were taken back. `Tracks` links the two, and
every call of a history keeps the link (`Tracks.perform`). Seen from outside, a history and its
graph are a timeline therefore (`history_refines_timeline`).
-/

namespace BehaviorTree

/-- States of a graph. Past and future have the state next to the present first. -/
structure Timeline where
  past : List Graph := []
  present : Graph
  future : List Graph := []

/-- What a history can be asked to do. -/
inductive HistoryCall where
  | execute (command : Command)
  | undo
  | redo
  | clear

/-- The answer to a call: why it was rejected, or whether it did anything. -/
abbrev HistoryAnswer := Except GraphError Bool

namespace HistoryCall

/-- Does a call on a history and its graph. -/
def perform (call : HistoryCall) (state : History × Graph) : HistoryAnswer × History × Graph :=
  match call with
  | execute command =>
    match state.1.execute state.2 command with
    | .ok after => (.ok true, after)
    | .error e => (.error e, state)
  | undo =>
    let (moved, after) := state.1.undo state.2
    (.ok moved, after)
  | redo =>
    let (moved, after) := state.1.redo state.2
    (.ok moved, after)
  | clear => (.ok true, state.1.clear, state.2)

/-- Does calls one after the other. -/
def performAll : List HistoryCall → History × Graph → List HistoryAnswer × History × Graph
  | [], state => ([], state)
  | call :: rest, state =>
    let (answer, state) := call.perform state
    let (answers, state) := performAll rest state
    (answer :: answers, state)

end HistoryCall

namespace Timeline

/-- What a call does to a timeline of which the past holds at most `depth` states. -/
def perform (depth : Nat) (t : Timeline) : HistoryCall → HistoryAnswer × Timeline
  | .execute command =>
    match command.execute t.present with
    | .ok (after, _) => (.ok true, ⟨(t.present :: t.past).take depth, after, []⟩)
    | .error e => (.error e, t)
  | .undo =>
    match t.past with
    | [] => (.ok false, t)
    | before :: past => (.ok true, ⟨past, before, t.present :: t.future⟩)
  | .redo =>
    match t.future with
    | [] => (.ok false, t)
    | after :: future => (.ok true, ⟨t.present :: t.past, after, future⟩)
  | .clear => (.ok true, ⟨[], t.present, []⟩)

/-- Does calls one after the other. -/
def performAll (depth : Nat) : List HistoryCall → Timeline → List HistoryAnswer × Timeline
  | [], t => ([], t)
  | call :: rest, t =>
    let (answer, t) := t.perform depth call
    let (answers, t) := performAll depth rest t
    (answer :: answers, t)

end Timeline

/-! ## The link -/

variable {P : Graph → Prop} {h : History} {t : Timeline} {g : Graph}

/-- Each entry leads from its state of the past to the next one, and the first to the present. -/
inductive Done (P : Graph → Prop) : List (Command × Receipt) → List Graph → Graph → Prop
  | none {g : Graph} : Done P [] [] g
  | step {before g : Graph} {command : Command} {receipt : Receipt}
      {entries : List (Command × Receipt)} {past : List Graph} (holds : P before)
      (done : command.execute before = .ok (g, receipt)) (earlier : Done P entries past before) :
      Done P ((command, receipt) :: entries) (before :: past) g

/-- Each command leads to its state of the future, and the first from the present. -/
inductive Undone (P : Graph → Prop) : List Command → Graph → List Graph → Prop
  | none {g : Graph} : Undone P [] g []
  | step {g after : Graph} {command : Command} {receipt : Receipt} {commands : List Command}
      {future : List Graph} (holds : P after)
      (done : command.execute g = .ok (after, receipt)) (later : Undone P commands after future) :
      Undone P (command :: commands) g (after :: future)

/-- A history stands for a timeline of which all states have a property. -/
structure Tracks (P : Graph → Prop) (h : History) (t : Timeline) : Prop where
  present : P t.present
  done : Done P h.done t.past t.present
  undone : Undone P h.undone t.present t.future
  bounded : t.past.length + t.future.length ≤ h.depth

theorem Done.length {entries : List (Command × Receipt)} {past : List Graph}
    (done : Done P entries past g) : entries.length = past.length := by
  induction done with
  | none => rfl
  | step _ _ _ ih => exact congrArg (· + 1) ih

theorem Undone.length {commands : List Command} {future : List Graph}
    (undone : Undone P commands g future) : commands.length = future.length := by
  induction undone with
  | none => rfl
  | step _ _ _ ih => exact congrArg (· + 1) ih

/-- Forgetting the oldest entries forgets the oldest states. -/
theorem Done.take {entries : List (Command × Receipt)} {past : List Graph}
    (done : Done P entries past g) (depth : Nat) :
    Done P (entries.take depth) (past.take depth) g := by
  induction done generalizing depth with
  | none => simpa using Done.none
  | step holds edit _ ih =>
    cases depth with
    | zero => exact .none
    | succ depth => exact .step holds edit (ih depth)

/-- An empty history stands for its graph alone. -/
theorem tracks_start (holds : P g) {depth : Nat} : Tracks P { depth := depth } { present := g } :=
  ⟨holds, .none, .none, Nat.zero_le _⟩

/-- Doing a command moves on to a new present. -/
theorem Tracks.execute (tracks : Tracks P h t) {command : Command} {after : Graph}
    {receipt : Receipt} (done : command.execute t.present = .ok (after, receipt))
    (holds : P after) :
    Tracks P { h with done := ((command, receipt) :: h.done).take h.depth, undone := [] }
      ⟨(t.present :: t.past).take h.depth, after, []⟩ where
  present := holds
  done := (Done.step tracks.present done tracks.done).take h.depth
  undone := .none
  bounded := List.length_take_le ..

/-- Taking the latest command back returns to the latest state of the past. -/
theorem Tracks.undo (tracks : Tracks P h t) (ordered : ∀ g, P g → g.Consistent) :
    ∃ h', h.undo t.present = (!t.past.isEmpty, h', (t.perform h.depth .undo).2.present) ∧
      h'.depth = h.depth ∧ Tracks P h' (t.perform h.depth .undo).2 := by
  obtain ⟨past, present, future⟩ := t
  obtain ⟨holds, done, undone, bounded⟩ := tracks
  obtain ⟨depth, entries, commands⟩ := h
  dsimp only at *
  cases done with
  | none => exact ⟨_, rfl, rfl, holds, .none, undone, bounded⟩
  | step before_holds edit earlier =>
    simp only [History.undo, (ordered _ before_holds).undo_execute edit]
    refine ⟨_, rfl, rfl, before_holds, earlier, .step holds edit undone, ?_⟩
    rw [List.length_cons] at bounded
    simp only [Timeline.perform, List.length_cons]
    omega

/-- A command that was taken back can be done again, and then leads where it led before. -/
theorem Tracks.redo (tracks : Tracks P h t) :
    ∃ h', h.redo t.present = (!t.future.isEmpty, h', (t.perform h.depth .redo).2.present) ∧
      h'.depth = h.depth ∧ Tracks P h' (t.perform h.depth .redo).2 := by
  obtain ⟨past, present, future⟩ := t
  obtain ⟨holds, done, undone, bounded⟩ := tracks
  obtain ⟨depth, entries, commands⟩ := h
  dsimp only at *
  cases undone with
  | none => exact ⟨_, rfl, rfl, holds, done, .none, bounded⟩
  | step after_holds edit later =>
    simp only [History.redo, edit]
    refine ⟨_, rfl, rfl, after_holds, .step holds edit done, later, ?_⟩
    rw [List.length_cons] at bounded
    simp only [Timeline.perform, List.length_cons]
    omega

/-- Every call does to a history and its graph what it does to the timeline. -/
theorem Tracks.perform (tracks : Tracks P h t) (ordered : ∀ g, P g → g.Consistent) (call : HistoryCall)
    (keeps : ∀ command, call = .execute command → ∀ after receipt,
      command.execute t.present = .ok (after, receipt) → P after) :
    ∃ h', call.perform (h, t.present) =
        ((t.perform h.depth call).1, h', (t.perform h.depth call).2.present) ∧
      h'.depth = h.depth ∧ Tracks P h' (t.perform h.depth call).2 := by
  cases call with
  | execute command =>
    simp only [HistoryCall.perform, History.execute, Timeline.perform]
    cases done : command.execute t.present with
    | error e => exact ⟨h, rfl, rfl, tracks⟩
    | ok result =>
      exact ⟨_, rfl, rfl, tracks.execute done (keeps command rfl _ _ done)⟩
  | undo =>
    obtain ⟨h', done, depth, tracks⟩ := tracks.undo ordered
    refine ⟨h', ?_, depth, tracks⟩
    rw [HistoryCall.perform, done]
    cases past : t.past <;> simp [Timeline.perform, past]
  | redo =>
    obtain ⟨h', done, depth, tracks⟩ := tracks.redo
    refine ⟨h', ?_, depth, tracks⟩
    rw [HistoryCall.perform, done]
    cases future : t.future <;> simp [Timeline.perform, future]
  | clear => exact ⟨_, rfl, rfl, tracks.present, .none, .none, Nat.zero_le _⟩

/-- No call changes how much a history remembers. -/
theorem HistoryCall.depth_perform (call : HistoryCall) (state : History × Graph) :
    (call.perform state).2.1.depth = state.1.depth := by
  obtain ⟨h, g⟩ := state
  cases call with
  | execute command =>
    simp only [HistoryCall.perform, History.execute]
    cases command.execute g <;> rfl
  | undo =>
    simp only [HistoryCall.perform, History.undo]
    cases h.done <;> rfl
  | redo =>
    simp only [HistoryCall.perform, History.redo]
    cases h.undone with
    | nil => rfl
    | cons command others =>
      dsimp only
      cases command.execute g <;> rfl
  | clear => rfl

/-! ## Runs -/

theorem performAll_append (first second : List HistoryCall) (state : History × Graph) :
    HistoryCall.performAll (first ++ second) state =
      let (answers, state) := HistoryCall.performAll first state
      let (others, state) := HistoryCall.performAll second state
      (answers ++ others, state) := by
  induction first generalizing state with
  | nil => rfl
  | cons call rest ih => simp only [List.cons_append, HistoryCall.performAll, ih]

/-- Any sequence of calls does to a history and its graph what it does to the timeline. -/
theorem Tracks.performAll (tracks : Tracks P h t) (ordered : ∀ g, P g → g.Consistent)
    (calls : List HistoryCall)
    (keeps : ∀ command, .execute command ∈ calls → ∀ g after receipt, P g →
      command.execute g = .ok (after, receipt) → P after) :
    ∃ h', HistoryCall.performAll calls (h, t.present) =
        ((t.performAll h.depth calls).1, h', (t.performAll h.depth calls).2.present) ∧
      h'.depth = h.depth ∧ Tracks P h' (t.performAll h.depth calls).2 := by
  induction calls generalizing h t with
  | nil => exact ⟨h, rfl, rfl, tracks⟩
  | cons call rest ih =>
    obtain ⟨h₁, step, depth₁, tracks₁⟩ := tracks.perform ordered call fun command eq after receipt done =>
      keeps command (eq ▸ List.mem_cons_self) _ after receipt tracks.present done
    obtain ⟨h₂, steps, depth₂, tracks₂⟩ := ih tracks₁ fun command member =>
      keeps command (List.mem_cons_of_mem _ member)
    rw [depth₁] at steps depth₂ tracks₂
    refine ⟨h₂, ?_, depth₂, tracks₂⟩
    simp only [HistoryCall.performAll, Timeline.performAll, step, steps]

/-- Undoing and then redoing returns to the same history and graph. -/
theorem Tracks.undo_redo (tracks : Tracks P h t) (ordered : ∀ g, P g → g.Consistent)
    (nonempty : h.done ≠ []) :
    ∃ h' t', HistoryCall.perform .undo (h, t.present) = (.ok true, h', t'.present) ∧
      HistoryCall.perform .redo (h', t'.present) = (.ok true, h, t.present) ∧
      h'.done = h.done.tail ∧ Tracks P h' t' := by
  obtain ⟨h', step, -, tracks'⟩ := tracks.perform ordered .undo (by simp)
  obtain ⟨past, present, future⟩ := t
  obtain ⟨holds, done, undone, bounded⟩ := tracks
  obtain ⟨depth, entries, commands⟩ := h
  dsimp only at *
  cases done with
  | none => exact absurd rfl nonempty
  | step before_holds edit earlier =>
    simp only [HistoryCall.perform, History.undo, (ordered _ before_holds).undo_execute edit,
      Timeline.perform, Prod.mk.injEq] at step tracks'
    obtain ⟨-, rfl, -⟩ := step
    refine ⟨_, _, ?_, ?_, rfl, tracks'⟩
    · simp only [HistoryCall.perform, History.undo, (ordered _ before_holds).undo_execute edit]
    · simp only [HistoryCall.perform, History.redo, edit]

/-- As many redos as undos before them reproduce history and graph. -/
theorem Tracks.undos_redos (tracks : Tracks P h t) (ordered : ∀ g, P g → g.Consistent) {n : Nat}
    (enough : n ≤ h.done.length) :
    HistoryCall.performAll (List.replicate n .undo ++ List.replicate n .redo) (h, t.present) =
      (List.replicate (n + n) (.ok true), h, t.present) := by
  induction n generalizing h t with
  | zero => rfl
  | succ n ih =>
    have nonempty : h.done ≠ [] := by
      rintro none
      simp [none] at enough
    obtain ⟨h', t', back, forth, tail, tracks'⟩ := tracks.undo_redo ordered nonempty
    have inner := ih tracks' (by rw [tail, List.length_tail]; omega)
    have answers : .ok true :: (List.replicate (n + n) (.ok true) ++ [.ok true]) =
        List.replicate (n + 1 + (n + 1)) (.ok true : HistoryAnswer) := by
      rw [← List.replicate_succ', ← List.replicate_succ]
      congr 1
      omega
    rw [List.replicate_succ, List.replicate_succ', ← List.append_assoc, List.cons_append,
      List.cons_append, HistoryCall.performAll, back]
    simp only [performAll_append, inner, HistoryCall.performAll, forth, answers]

theorem isEmpty_eq_of_length_eq {α β : Type} {xs : List α} {ys : List β}
    (same : xs.length = ys.length) : xs.isEmpty = ys.isEmpty := by
  rw [Bool.eq_iff_iff, List.isEmpty_iff_length_eq_zero, List.isEmpty_iff_length_eq_zero, same]

/-- Where the graph of a history starts from: a root alone, or stored parts that were accepted. -/
inductive Graph.Starts : Graph → Prop
  | new {template : NodeTemplate} (kind : template.kind = .root) : Starts (.new template)
  | stored {nodes : List Node} {connections : List Connection} {g : Graph}
      (accepted : ofParts nodes connections = .ok g) : Starts g

theorem Graph.Starts.wellFormed (starts : g.Starts) : g.WellFormed := by
  cases starts with
  | new kind => exact wellFormed_new kind
  | stored accepted => exact (ofParts_eq_ok.1 accepted).2

/-- A graph to which the calls of some history led, which adds nodes without children. How far ids
have been numbered does not matter, since no command asks. -/
def Graph.Reached (g : Graph) : Prop :=
  ∃ start depth calls number, Graph.Starts start ∧
    (∀ command, .execute command ∈ calls → command.Childless) ∧
    (HistoryCall.performAll calls (.withDepth depth, start)).2.2.renumber number = g

theorem Graph.Starts.reached (starts : g.Starts) : g.Reached :=
  ⟨g, 0, [], g.lastId, starts, by simp, rfl⟩

theorem Graph.Reached.wellFormed (reached : g.Reached) : g.WellFormed := by
  obtain ⟨start, depth, calls, number, starts, childless, rfl⟩ := reached
  have tracks : Tracks Graph.WellFormed (.withDepth depth) { present := start } :=
    tracks_start starts.wellFormed
  obtain ⟨_, same, -, tracks⟩ := tracks.performAll (fun _ wf => wf.consistent) calls
    fun command member g after receipt wf done => wf.execute (childless command member) done
  rw [same]
  exact tracks.present.renumber

/-- A history and its graph are a timeline: they answer every call like it, the graph is its
present, and there is as much to undo and to redo as past and future hold. -/
theorem history_refines_timeline (starts : g.Starts) (depth : Nat) (calls : List HistoryCall)
    (childless : ∀ command, .execute command ∈ calls → command.Childless) :
    ∃ answers h t,
      HistoryCall.performAll calls (.withDepth depth, g) = (answers, h, t.present) ∧
      Timeline.performAll (max depth 1) calls { present := g } = (answers, t) ∧
      (h.done.length = t.past.length ∧ h.undone.length = t.future.length) ∧
      (h.canUndo = !t.past.isEmpty ∧ h.canRedo = !t.future.isEmpty) ∧
      t.past.length ≤ max depth 1 ∧
      ∀ n ≤ t.past.length,
        HistoryCall.performAll (List.replicate n .undo ++ List.replicate n .redo) (h, t.present) =
          (List.replicate (n + n) (.ok true), h, t.present) := by
  have start : Tracks Graph.WellFormed (.withDepth depth) { present := g } :=
    tracks_start starts.wellFormed
  have ordered (g : Graph) (wf : g.WellFormed) : g.Consistent := wf.consistent
  obtain ⟨h, same, depth_eq, tracks⟩ := start.performAll ordered calls
    fun command member g after receipt wf done => wf.execute (childless command member) done
  have past := tracks.done.length
  have future := tracks.undone.length
  have bounded := tracks.bounded
  rw [depth_eq] at bounded
  refine ⟨_, h, _, same, rfl, ⟨past, future⟩, ⟨?_, ?_⟩, Nat.le_of_add_right_le bounded, ?_⟩
  · rw [History.canUndo, isEmpty_eq_of_length_eq past]
  · rw [History.canRedo, isEmpty_eq_of_length_eq future]
  · exact fun n enough => tracks.undos_redos ordered (past ▸ enough)

/-- A history of depth one, in which a write and then an added node are done, and the latter is
taken back. -/
theorem history_refines_timeline_root :
    let root := NodeTemplate.new TypeId.root .root "Root"
    let leaf := NodeTemplate.new TypeId.wait .action "Wait"
    let calls : List HistoryCall := [.execute (.setProperty Node.rootId "note" (some .null)),
      .execute (.addNode (.ofTemplate "wait-1" leaf {} .empty)), .undo, .undo]
    ∃ answers h t, HistoryCall.performAll calls (.withDepth 1, .new root) = (answers, h, t.present) ∧
      Timeline.performAll 1 calls { present := .new root } = (answers, t) := by
  intro root leaf calls
  have childless : ∀ command, .execute command ∈ calls → command.Childless := by
    simp [calls, Command.Childless, Node.ofTemplate]
  obtain ⟨answers, h, t, same, spec, -⟩ :=
    history_refines_timeline (.new (rfl : root.kind = .root)) 1 calls childless
  exact ⟨answers, h, t, same, spec⟩

end BehaviorTree
