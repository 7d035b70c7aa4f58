import BehaviorTree.Graph.TemplateFormat
import BehaviorTree.Main
import BehaviorTree.Proofs.Blackboard.Listeners
import BehaviorTree.Proofs.Document.RoundTrip
import BehaviorTree.Proofs.Execution.RunningPath
import BehaviorTree.Proofs.History.Timeline
import BehaviorTree.Proofs.Workspace.GraphInvariant
import BehaviorTree.Proofs.Binary.Codec
import BehaviorTree.Proofs.Value.Binary
import BehaviorTree.Proofs.Document.BinaryForm
import BehaviorTree.Proofs.Compilation.Arena
import BehaviorTree.Proofs.Compilation.Build
import BehaviorTree.Proofs.Compilation.Executable
import BehaviorTree.Proofs.Document.LoadedBindings
import BehaviorTree.Proofs.Document.TextForm
import BehaviorTree.Proofs.Execution.Runs
import BehaviorTree.Proofs.Execution.Sessions
import BehaviorTree.Proofs.Execution.Pausing
import BehaviorTree.Proofs.Execution.Seeding
import BehaviorTree.Proofs.Execution.Numbered
import BehaviorTree.Proofs.Execution.InRange
import BehaviorTree.Proofs.Handler.Draws
import BehaviorTree.Proofs.Execution.TypeLog
import BehaviorTree.Proofs.Workspace.Cascade
import BehaviorTree.Proofs.Workspace.Reconciling
import BehaviorTree.Proofs.Execution.FrameTime
import BehaviorTree.Proofs.Compilation.Translation
import BehaviorTree.Proofs.Compilation.TypeMapping
import BehaviorTree.Proofs.Compilation.Descent
import BehaviorTree.Proofs.Graph.StoredParts
import BehaviorTree.Proofs.Compilation.Orphans
import BehaviorTree.Proofs.Blackboard.Store
import BehaviorTree.Proofs.Compilation.Acceptance
import BehaviorTree.Proofs.Execution.Composites
import BehaviorTree.Proofs.Execution.Counting
import BehaviorTree.Proofs.Execution.TimeLimit
import BehaviorTree.Proofs.Execution.Duality
import BehaviorTree.Proofs.Execution.RateLimit
import BehaviorTree.Proofs.Execution.ReportOrder
import BehaviorTree.Proofs.Execution.ExactReports
import BehaviorTree.Proofs.Execution.Containment
import BehaviorTree.Proofs.Execution.ContainedRuns
import BehaviorTree.Proofs.Workspace.Sweep
import BehaviorTree.Proofs.Graph.NodeRemoval
import BehaviorTree.Proofs.Graph.SiblingOrder
import BehaviorTree.Proofs.Graph.ConnectionIds
import BehaviorTree.Proofs.Execution.TickCap
import BehaviorTree.Proofs.Document.Resaving
import BehaviorTree.Proofs.Compilation.Bindings
import BehaviorTree.Proofs.Execution.Publications
import BehaviorTree.Proofs.Compilation.Renaming
import BehaviorTree.Proofs.Workspace.Renaming
import BehaviorTree.Proofs.Execution.CounterBounds
import BehaviorTree.Proofs.Execution.StoredValues
import BehaviorTree.Proofs.History.SharedGraph
import BehaviorTree.Proofs.Blackboard.Delivery
import BehaviorTree.Proofs.Workspace.NewNodes
import BehaviorTree.Proofs.Execution.Locality
