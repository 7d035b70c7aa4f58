import BehaviorTree.Blackboard.Basic
import BehaviorTree.Graph.Template

/-!
# Bindings

A slot of a compiled node may be bound to sources, which are read anew whenever the slot is. A
bound slot that gives no value falls back on the node's own configuration.
-/

namespace BehaviorTree

/-- Where a bound slot takes a value from. -/
inductive ValueSource where
  | constant (value : Value)
  | variable (name : String) (scope : Scope)
  /-- What a node published last. -/
  | output (node : String)
deriving DecidableEq

/-- What the nodes published last, by node id. -/
abbrev Outputs := Dict Value

namespace ValueSource

/-- The value that a source has now. -/
def value? (s : ValueSource) (board : Blackboard) (outputs : Outputs) : Option Value :=
  match s with
  | .constant value => some value
  | .variable name scope => board.get? name scope
  | .output node => outputs.get? node

end ValueSource

/-- The sources of a slot, in the order of their connections. -/
structure Binding where
  sources : List ValueSource
  /-- Whether the slot takes any number of sources and so always reads as an array. -/
  multiplexed : Bool
deriving DecidableEq

namespace Binding

/-- A single source gives its value. Otherwise the sources that have a value make an array. -/
def value? (b : Binding) (board : Blackboard) (outputs : Outputs) : Option Value :=
  match b.sources, b.multiplexed with
  | [source], false => source.value? board outputs
  | sources, _ => some (.array (sources.filterMap fun s => s.value? board outputs))

end Binding

/-- What a compiled node is configured with. -/
structure NodeInfo where
  id : String
  typeId : String
  kind : NodeKind
  config : Dict Value
  bindings : Dict Binding
deriving DecidableEq

namespace NodeInfo

/-- The value of a slot: a bound source wins over the configuration. -/
def property? (n : NodeInfo) (board : Blackboard) (outputs : Outputs) (slot : String) :
    Option Value :=
  ((n.bindings.get? slot).bind fun binding => binding.value? board outputs).or
    (n.config.get? slot)

end NodeInfo

end BehaviorTree
