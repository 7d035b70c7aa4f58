import BehaviorTree.Value.Kind

/-!
# Why a graph cannot be compiled
-/

namespace BehaviorTree

/-- What is wrong with a source of values. -/
inductive SourceFault where
  | missing (source : String)
  | namesNoVariable (source : String)
  | undefinedVariable (name : String) (scope : Scope)
  /-- A data node that is neither a variable nor a constant. -/
  | noValue (source typeId : String)
  | notCompiled (source : String)
deriving DecidableEq

def SourceFault.message : SourceFault → String
  | .missing source => s!"source node '{source}' does not exist"
  | .namesNoVariable source => s!"variable node '{source}' names no variable"
  | .undefinedVariable name scope =>
    s!"variable '{name}' is not defined in the " ++ Named.name scope ++ " scope"
  | .noValue source typeId => s!"data node '{source}' of type '{typeId}' provides no value"
  | .notCompiled source => s!"source node '{source}' is not reachable from the root"

/-- What is wrong with the place of a node. -/
inductive StructureFault where
  | manyParents
  | missingChild (child : String)
  | decoratorChildren (count : Nat)
  | dataNode
deriving DecidableEq

def StructureFault.message : StructureFault → String
  | .manyParents => "the node is reachable through more than one parent"
  | .missingChild child => s!"child '{child}' does not exist"
  | .decoratorChildren count => s!"a decorator needs exactly one child, found {count}"
  | .dataNode => "data nodes cannot take part in control flow"

inductive BuildError where
  | noRoot (root : String)
  | multipleRootChildren (count : Nat)
  | unresolvedBinding (node slot : String) (fault : SourceFault)
  | cyclicStructure (node : String)
  | unknownNodeType (node typeId : String)
  | invalidStructure (node : String) (fault : StructureFault)
deriving DecidableEq

def BuildError.message : BuildError → String
  | .noRoot root => s!"Root node '{root}' not found in the graph"
  | .multipleRootChildren count =>
    s!"The root node has {count} children, but at most one is allowed"
  | .unresolvedBinding node slot fault =>
    s!"Property '{slot}' on node '{node}' could not be bound: " ++ fault.message
  | .cyclicStructure node => s!"Node '{node}' is reachable from itself"
  | .unknownNodeType node typeId => s!"Node '{node}' has an unregistered node type: '{typeId}'"
  | .invalidStructure node fault => s!"Node '{node}' is malformed: " ++ fault.message

end BehaviorTree
