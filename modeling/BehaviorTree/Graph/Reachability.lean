import BehaviorTree.Graph.Basic

/-!
# Reachability through children
-/

namespace BehaviorTree.Graph

/-- Searches for `target` from the ids in `open`, not entering those in `seen` again. -/
def search (g : Graph) (target : String) : Nat → List String → List String → Bool
  | 0, _, _ => false
  | _ + 1, [], _ => false
  | fuel + 1, id :: rest, seen =>
    if id = target then true
    else if seen.contains id then search g target fuel rest seen
    else search g target fuel (g.children id ++ rest) (id :: seen)

/-- How many ids a search can meet: the start, and each entry of a list of children once. -/
def searchBound (g : Graph) : Nat := (g.nodes.flatMap fun n => n.children).length + 2

/-- Whether `target` is `start` or is reached from it by following children. -/
def isReachable (g : Graph) (start target : String) : Bool :=
  g.search target g.searchBound [start] []

end BehaviorTree.Graph
