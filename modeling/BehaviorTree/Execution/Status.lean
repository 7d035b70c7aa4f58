import BehaviorTree.Named

/-!
# Statuses of nodes and states of executors
-/

namespace BehaviorTree

/-- How the last evaluation of a node went. -/
inductive Status where
  /-- The node was not evaluated in this run, or its evaluation was cut short. -/
  | idle
  | running
  | success
  | failure
deriving DecidableEq, Inhabited

instance : Named Status where
  all := [.idle, .running, .success, .failure]
  name
    | .idle => "idle"
    | .running => "running"
    | .success => "success"
    | .failure => "failure"
  mem_all a := by cases a <;> decide
  name_inj {a b} h := by cases a <;> cases b <;> first | rfl | simp at h

namespace Status

/-- Whether the evaluation came to an end. -/
def isResolved (s : Status) : Bool := s == .success || s == .failure

def ofBool (succeeded : Bool) : Status := if succeeded then .success else .failure

end Status

/-- What an executor is doing. -/
inductive ExecutorState where
  | idle
  | running
  | paused
deriving DecidableEq, Inhabited

instance : Named ExecutorState where
  all := [.idle, .running, .paused]
  name
    | .idle => "idle"
    | .running => "running"
    | .paused => "paused"
  mem_all a := by cases a <;> decide
  name_inj {a b} h := by cases a <;> cases b <;> first | rfl | simp at h

end BehaviorTree
