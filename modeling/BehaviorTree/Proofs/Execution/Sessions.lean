import BehaviorTree.Proofs.Execution.Runs

/-!
# Sessions

A start or a step opens a session, if there is none, and stopping closes it. `openedBy` goes along a
run and notes with which variables of the tree's scope the session that is open was opened. The
executor remembers just these (`InSession`), through everything that happens in between, and so
stopping brings them back and touches nothing else of the blackboard (`stop_restores`).
-/

namespace BehaviorTree.Executor

variable {T : Type}

/-- The executor remembers the variables with which its session was opened. -/
structure InSession (opened : Option (Dict Variable)) (e : Executor T) (s : SharedBlackboard) :
    Prop where
  session : e.session.map (·.tree) = opened
  alive : e.session.isSome → e.tree.isSome
  /-- Runs take place in sessions. -/
  running : e.state ≠ .idle → e.session.isSome
  unchanging : s.Unchanging

namespace InSession

variable {opened : Option (Dict Variable)} {e e' : Executor T} {s s' : SharedBlackboard}

/-- Ticks leave a session as it is. -/
theorem kept (inSession : InSession opened e s) (kept : e.Kept e')
    (listeners : s'.listeners = s.listeners) : InSession opened e' s' := by
  have alive : e'.tree.isSome = e.tree.isSome := by
    have same := congrArg Option.isSome kept.compiled
    simpa only [Option.isSome_map] using same
  refine ⟨?_, ?_, ?_, ?_⟩
  · rw [kept.session]
    exact inSession.session
  · rw [kept.session, alive]
    exact inSession.alive
  · rw [kept.session, kept.state]
    exact inSession.running
  · rw [SharedBlackboard.Unchanging, listeners]
    exact inSession.unchanging

/-- A session that is open goes on, and otherwise one is opened. -/
theorem openSession (inSession : InSession opened e s) (alive : e.tree.isSome) :
    InSession (opened.or (some s.board.tree))
      (if e.session.isNone then e.openSession s else e) s := by
  obtain ⟨rfl, -, running, unchanging⟩ := inSession
  cases session : e.session with
  | none => exact ⟨rfl, fun _ => alive, fun _ => rfl, unchanging⟩
  | some snapshot => exact ⟨by simp [session], fun _ => alive, by simp [session], unchanging⟩

end InSession

variable [Clock T]

/-- With which variables the session that is open after a call was opened, given the same of the
session before it. A refused call changes nothing. -/
def noted (opened : Option (Dict Variable)) (e : Executor T) (s : SharedBlackboard) (c : Call T) :
    Option (Dict Variable) :=
  if (e.call s c).isOk then
    match c with
    | .start | .step => opened.or (some s.board.tree)
    | .stop | .destroy => none
    | _ => opened
  else opened

/-- With which variables of the tree's scope the session that is open after a run was opened, if one
is open. -/
def openedBy (opened : Option (Dict Variable)) (e : Executor T) (s : SharedBlackboard) :
    List (Call T) → Option (Dict Variable)
  | [] => opened
  | c :: calls =>
    let first := e.perform s c
    openedBy (noted opened e s c) first.executor first.shared calls

variable {opened : Option (Dict Variable)} {e : Executor T} {s : SharedBlackboard} {c : Call T}

theorem inSession_new (t : CompiledTree) (config : ExecutorConfig) (entropy : Nat)
    (unchanging : s.Unchanging) : InSession none (new t config entropy : Executor T) s :=
  ⟨rfl, fun _ => rfl, fun running => absurd rfl running, unchanging⟩

/-- A step goes on with the session that is open, or opens one. -/
theorem InSession.stepping (inSession : InSession opened e s)
    (alive : (e.stepping s).tree.isSome) :
    InSession (opened.or (some s.board.tree)) (e.stepping s) s := by
  unfold Executor.stepping at alive ⊢
  split at alive
  · rename_i fresh
    have opens := inSession.openSession (Option.isSome_map ▸ alive)
    rw [if_pos fresh.2] at opens
    rw [if_pos fresh]
    exact ⟨opens.session, fun _ => alive, opens.running, opens.unchanging⟩
  · rename_i goes
    have open_ : e.session.isSome := by
      cases session : e.session with
      | some snapshot => rfl
      | none =>
        have running : e.state ≠ .idle := fun idle => goes ⟨idle, by simp [session]⟩
        simpa [session] using inSession.running running
    have goesOn := inSession.openSession alive
    rw [if_neg (by simpa [Option.isSome_iff_ne_none] using open_)] at goesOn
    rw [if_neg goes]
    exact goesOn

theorem InSession.perform (inSession : InSession opened e s) (c : Call T) :
    InSession (noted opened e s c) (e.perform s c).executor (e.perform s c).shared := by
  have listeners := e.perform_listeners s c
  rcases e.perform_cases s c with ⟨⟨error, made⟩, refused⟩ | ⟨⟨o, made⟩, does⟩
  · simp only [refused, noted, made, Except.isOk, Except.toBool]
    exact inSession
  · have unchanging : (e.perform s c).shared.Unchanging := by
      rw [SharedBlackboard.Unchanging, listeners]
      exact inSession.unchanging
    generalize e.perform s c = after at does listeners unchanging
    simp only [noted, made, Except.isOk, Except.toBool, if_true]
    cases does with
    | start alive idle =>
      have opens := inSession.openSession alive
      have open_ : (if e.session.isNone then e.openSession s else e).session.isSome := by
        split
        · rfl
        · rename_i goes
          simpa [Option.isSome_iff_ne_none] using goes
      refine ⟨opens.session, fun _ => ?_, fun _ => open_, unchanging⟩
      exact Option.isSome_map.trans (opens.alive open_)
    | step still alive =>
      exact (inSession.stepping (Option.isSome_of_eq_some alive)).kept (tickTree_kept alive _ s)
        listeners
    | tick running alive => exact inSession.kept (tickTree_kept alive _ s) listeners
    | @update frameDelta alive running checked =>
      have fed : InSession opened (e.addFrame frameDelta) s :=
        ⟨inSession.session, inSession.alive, inSession.running, inSession.unchanging⟩
      exact fed.kept (tickWhileDue_kept _ _ s).1 listeners
    | stop alive =>
      exact ⟨rfl, (fun open_ => by cases open_), fun running => absurd rfl running, unchanging⟩
    | destroy =>
      exact ⟨rfl, (fun open_ => by cases open_), fun running => absurd rfl running, unchanging⟩
    | pause alive running =>
      exact ⟨inSession.session, inSession.alive, fun _ => inSession.running (by simp [running]),
        unchanging⟩
    | resume alive paused =>
      exact ⟨inSession.session, inSession.alive, fun _ => inSession.running (by simp [paused]),
        unchanging⟩
    | _ => exact ⟨inSession.session, inSession.alive, inSession.running, unchanging⟩

theorem InSession.performAll (inSession : InSession opened e s) (calls : List (Call T)) :
    InSession (openedBy opened e s calls) (e.performAll s calls).executor
      (e.performAll s calls).shared := by
  induction calls generalizing opened e s with
  | nil => exact inSession
  | cons c calls ih => exact ih (inSession.perform c)

/-- What stopping does to the blackboard. -/
theorem perform_stop_shared (alive : e.session.isSome → e.tree.isSome) :
    (e.perform s .stop).shared = restored s e.session := by
  rcases e.perform_cases s .stop with ⟨⟨error, made⟩, refused⟩ | ⟨-, does⟩
  · cases session : e.session with
    | none =>
      rw [refused]
      rfl
    | some snapshot =>
      have stopped := call_eq_ok.2 (.stop (s := s) (alive (by simp [session])))
      exact nomatch made.symm.trans stopped
  · generalize e.perform s .stop = after at does
    cases does
    rfl

/-- Stopping brings back the variables of the tree's scope with which the session was opened, and
leaves everything else of the blackboard as it was; without a session it leaves all of it. -/
theorem stop_restores (t : CompiledTree) (config : ExecutorConfig) (entropy : Nat)
    (unchanging : s.Unchanging) (calls : List (Call T)) :
    let before := (new t config entropy : Executor T).performAll s calls
    let after := before.executor.perform before.shared .stop
    match openedBy none (new t config entropy : Executor T) s calls with
    | some tree => after.shared.board.tree = tree ∧
        after.shared.board.project = before.shared.board.project ∧
        after.shared.board.queue = before.shared.board.queue
    | none => after.shared = before.shared := by
  intro before after
  have inSession : InSession _ before.executor before.shared :=
    (inSession_new t config entropy unchanging).performAll calls
  have stopped : after.shared = restored before.shared before.executor.session :=
    perform_stop_shared inSession.alive
  generalize openedBy none (new t config entropy) s calls = opened at inSession
  cases session : before.executor.session with
  | none =>
    obtain rfl : opened = none := by simpa [session] using inSession.session.symm
    rw [session] at stopped
    exact stopped
  | some snapshot =>
    obtain rfl : opened = some snapshot.tree := by simpa [session] using inSession.session.symm
    rw [session] at stopped
    have board : after.shared.board = (before.shared.board.restore snapshot).contents := by
      rw [stopped]
      exact (SharedBlackboard.transact_contents inSession.unchanging _).1
    show after.shared.board.tree = snapshot.tree ∧ _ ∧ _
    rw [board]
    exact ⟨rfl, rfl, rfl⟩

/-- A step opens a session, in which a run is started and the variable that counts is renamed. -/
def countingCalls : List (Call Number) :=
  [.transact fun b => some (b.set "count" (.number 5) .tree).2, .step, .start, .tick 1, .pause,
    .transact fun b => (b.rename "count" "other" .tree).toOption,
    .direct (·.enqueue "count" (.number 1) .tree)]

/-- A blackboard with a listener that makes a change, though not one that changes anything. -/
def listenedBoard : SharedBlackboard :=
  { listeners := [⟨0, fun _ _ => [.transact id]⟩], nextListener := 1 }

theorem stop_restores_counting :
    let before := (new countingTree {} 0).performAll listenedBoard countingCalls
    let after := before.executor.perform before.shared .stop
    before.shared.board.get? "other" .tree = some (.number 7) ∧
      after.shared.board.tree = .ofList [("count", ⟨"count", .tree, .number, .number 5⟩)] ∧
      after.shared.board.queue = [⟨"count", .number 1, .tree⟩] := by
  have unchanging : listenedBoard.Unchanging := by
    intro l listed event board reaction member b
    obtain rfl : l = ⟨0, fun _ _ => [.transact id]⟩ := by simpa [listenedBoard] using listed
    obtain rfl : reaction = .transact id := by simpa using member
    rfl
  have opened : openedBy none (new countingTree {} 0) listenedBoard countingCalls =
      some (.ofList [("count", ⟨"count", .tree, .number, .number 5⟩)]) := by decide +kernel
  let run : Outcome Number := (new countingTree {} 0).performAll listenedBoard countingCalls
  have number : run.shared.board.get? "other" .tree = some (.number 7) := by decide +kernel
  have queued : run.shared.board.queue = [⟨"count", .number 1, .tree⟩] := by decide +kernel
  -- The run is evaluated above; what stopping does to it is the same for all runs.
  unfold run at number queued
  generalize countingCalls = calls at opened number queued ⊢
  have restored := stop_restores countingTree {} 0 unchanging calls
  simp only [opened] at restored
  obtain ⟨tree, -, queue⟩ := restored
  exact ⟨number, tree, queue.trans queued⟩

end BehaviorTree.Executor
