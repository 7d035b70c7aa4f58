import BehaviorTree.Execution.Tick

/-!
# What is only noted

The log, the changes of types and the list of visited nodes are written during a tick and never
read. So an evaluation does the same whatever has been noted before it, and adds its own notes
(`evaluate_noting`); what it does is told by the rest of the world (`evaluate_eq_bare`).
-/

namespace BehaviorTree

variable {T : Type}

/-- What the nodes of a tree only note down during a tick: log lines, changes of types and the nodes
that have taken part. -/
structure Notes where
  logs : List LogLine
  typeChanges : List TypeChange
  visited : List (String × Status)

instance : Append Notes where
  append first later := ⟨first.logs ++ later.logs, first.typeChanges ++ later.typeChanges,
    first.visited ++ later.visited⟩

namespace World

/-- The world with further notes before its own. -/
def noting (w : World) (before : Notes) : World :=
  { w with
    logs := before.logs ++ w.logs
    typeChanges := before.typeChanges ++ w.typeChanges
    visited := before.visited ++ w.visited }

def notes (w : World) : Notes := ⟨w.logs, w.typeChanges, w.visited⟩

/-- The world without its notes. -/
def bare (w : World) : World := { board := w.board, outputs := w.outputs, random := w.random }

variable (w : World) (before : Notes)

theorem noting_board : (w.noting before).board = w.board := rfl

theorem noting_outputs : (w.noting before).outputs = w.outputs := rfl

theorem noting_random : (w.noting before).random = w.random := rfl

theorem notes_noting : (w.noting before).notes = before ++ w.notes := rfl

theorem bare_noting_eq : (w.noting before).bare = w.bare := rfl

theorem bare_noting : w.bare.noting w.notes = w := by
  simp [bare, noting, notes]

theorem noting_visit (id : String) (status : Status) :
    (w.noting before).visit id status = (w.visit id status).noting before := by
  simp [noting, visit]

theorem noting_logError (tick : Nat) (id : String) (e : NodeError) :
    (w.noting before).logError tick id e = (w.logError tick id e).noting before := by
  simp [noting, logError]

theorem noting_afterHandler (tick : Nat) (id : String) (s : HandlerState) :
    (w.noting before).afterHandler tick id s = (w.afterHandler tick id s).noting before := by
  simp [noting, afterHandler]

theorem noting_abort (t : LiveTree T) [Clock T] : (w.noting before).abort t =
    ((w.abort t).1, (w.abort t).2.noting before) := by
  simp [noting, abort]

theorem noting_property? (n : CompiledNode) (slot : String) :
    (w.noting before).property? n slot = w.property? n slot := rfl

end World

section Noting

variable (w : World) (before : Notes)

theorem evaluateCondition_noting (tick : Nat) (n : CompiledNode) :
    evaluateCondition tick n (w.noting before) =
      ((evaluateCondition tick n w).1, (evaluateCondition tick n w).2.noting before) := by
  simp only [evaluateCondition, World.noting_property?, World.noting_logError, World.noting_board]
  split
  · split
    · rfl
    · split <;> rfl
  · rfl

/-- A condition does not look at what has been noted. -/
theorem evaluateCondition_eq_bare (tick : Nat) (n : CompiledNode) : evaluateCondition tick n w =
    ((evaluateCondition tick n w.bare).1,
      (evaluateCondition tick n w.bare).2.noting w.notes) := by
  have same := evaluateCondition_noting w.bare w.notes tick n
  rwa [World.bare_noting] at same

theorem finish_noting (n : CompiledNode) (state : NodeState T) (status : Status)
    (children : List (LiveTree T)) : finish n state status children (w.noting before) =
      ((finish n state status children w).1,
        (finish n state status children w).2.noting before) := by
  simp only [finish, World.noting_visit]

variable [Clock T]

theorem evaluateLeaf_noting (time : TickTime T) (n : CompiledNode) (h : Handler)
    (state : NodeState T) : evaluateLeaf time n h state (w.noting before) =
      ((evaluateLeaf time n h state w).1, (evaluateLeaf time n h state w).2.noting before) := by
  simp only [evaluateLeaf, World.noting_board, World.noting_outputs, World.noting_random,
    World.noting_afterHandler]
  split
  · rfl
  · simp only [World.noting_logError]

/-- Neither does a handler. -/
theorem evaluateLeaf_eq_bare (time : TickTime T) (n : CompiledNode) (h : Handler)
    (state : NodeState T) : evaluateLeaf time n h state w =
      ((evaluateLeaf time n h state w.bare).1,
        (evaluateLeaf time n h state w.bare).2.noting w.notes) := by
  have same := evaluateLeaf_noting w.bare w.notes time n h state
  rwa [World.bare_noting] at same

theorem enterDecorator_noting (time : TickTime T) (kind : DecoratorKind) (n : CompiledNode)
    (state : NodeState T) :
    enterDecorator time kind n state (w.noting before) = enterDecorator time kind n state w := by
  cases kind <;> rfl

end Noting

section Evaluate

variable [Clock T] (time : TickTime T) (before : Notes)

mutual

/-- An evaluation does not look at what has been noted before it. -/
theorem evaluate_noting (t : LiveTree T) (w : World) : evaluate time t (w.noting before) =
    ((evaluate time t w).1, (evaluate time t w).2.noting before) := by
  match t with
  | .node ⟨n, state⟩ children =>
    unfold evaluate
    match n.behavior, children with
    | .root, [] => exact finish_noting ..
    | .root, child :: rest =>
      simp only [evaluate_noting child w, finish_noting]
    | .composite kind, children =>
      simp only [evaluateFrom_noting kind state.cursor 0 children w, finish_noting]
    | .decorator kind, [] => exact finish_noting ..
    | .decorator kind, child :: rest =>
      simp only [enterDecorator_noting]
      split
      · exact finish_noting ..
      · simp only [World.noting_abort, finish_noting]
      · simp only [evaluate_noting child w, finish_noting]
    | .condition, children => simp only [evaluateCondition_noting, finish_noting]
    | .handler h, children => simp only [evaluateLeaf_noting, finish_noting]

theorem evaluateFrom_noting (kind : CompositeKind) (cursor place : Nat)
    (children : List (LiveTree T)) (w : World) :
    let result := evaluateFrom time kind cursor place children w
    evaluateFrom time kind cursor place children (w.noting before) =
      (result.1, result.2.1, result.2.2.1, result.2.2.2.noting before) := by
  match children with
  | [] => simp only [evaluateFrom]
  | child :: rest =>
    have others (w : World) := evaluateFrom_noting kind cursor (place + 1) rest w
    unfold evaluateFrom
    split
    · simp only [others]
    · simp only [evaluate_noting child w]
      split
      · rfl
      · split
        · rfl
        · simp only [others]

end

/-- What an evaluation does is told by the world without its notes. -/
theorem evaluate_eq_bare (t : LiveTree T) (w : World) : evaluate time t w =
    ((evaluate time t w.bare).1, (evaluate time t w.bare).2.noting w.notes) := by
  have same := evaluate_noting time w.notes t w.bare
  rwa [World.bare_noting] at same

end Evaluate

end BehaviorTree
