import BehaviorTree.History.Command

/-!
# Bounded histories

A history remembers the commands that were done, the latest ones up to its depth, and those that
were taken back since the last one was done. Both lists have the newest entry first.
-/

namespace BehaviorTree

structure History where
  /-- How many commands are remembered. -/
  depth : Nat := 100
  done : List (Command × Receipt) := []
  undone : List Command := []

namespace History

/-- An empty history of a depth of at least one. -/
def withDepth (depth : Nat) : History := { depth := max depth 1 }

/-- Does a command and remembers it, which forgets the commands taken back and, beyond the depth,
the oldest ones. A command that fails changes neither graph nor history. -/
def execute (h : History) (g : Graph) (command : Command) :
    Except GraphError (History × Graph) := do
  let (g, receipt) ← command.execute g
  return ({ h with done := ((command, receipt) :: h.done).take h.depth, undone := [] }, g)

/-- Takes the latest command back; `false` if there is none. -/
def undo (h : History) (g : Graph) : Bool × History × Graph :=
  match h.done with
  | [] => (false, h, g)
  | (command, receipt) :: earlier =>
    (true, { h with done := earlier, undone := command :: h.undone }, receipt.undo g)

/-- Does the command taken back last again; `false` if there is none, and also if it fails now, in
which case it is dropped. -/
def redo (h : History) (g : Graph) : Bool × History × Graph :=
  match h.undone with
  | [] => (false, h, g)
  | command :: others =>
    match command.execute g with
    | .ok (g, receipt) =>
      (true, { h with done := (command, receipt) :: h.done, undone := others }, g)
    | .error _ => (false, { h with undone := others }, g)

def canUndo (h : History) : Bool := !h.done.isEmpty

def canRedo (h : History) : Bool := !h.undone.isEmpty

/-- The name of what undoing would take back. -/
def undoLabel? (h : History) : Option String := h.done.head?.map fun entry => entry.1.label

/-- The name of what redoing would do. -/
def redoLabel? (h : History) : Option String := h.undone.head?.map Command.label

/-- Forgets all commands. -/
def clear (h : History) : History := { h with done := [], undone := [] }

end History

end BehaviorTree
