import ScriptSandbox.Syntax.Rebuilding
import ScriptSandbox.Syntax.Lowering
import ScriptSandbox.Document.Printer
import ScriptSandbox.Document.Reader
import ScriptSandbox.Scope.Writing
import ScriptSandbox.Session.Conversation
import ScriptSandbox.Proofs.Step.Contract
import ScriptSandbox.Proofs.World.Calm
import ScriptSandbox.Proofs.Interleaving
import ScriptSandbox.Proofs.Operation.HostAccess
import ScriptSandbox.Proofs.Guard.Integrity
import ScriptSandbox.Proofs.Step.Parallel
import ScriptSandbox.Proofs.Lockstep
import ScriptSandbox.Proofs.World.Blind
import ScriptSandbox.Proofs.World.Parting
import ScriptSandbox.Proofs.Guard.Noninterference
import ScriptSandbox.Proofs.Capability.Sealing
import ScriptSandbox.Proofs.Capability.Custody
import ScriptSandbox.Proofs.Capability.Closure
import ScriptSandbox.Proofs.Capability.Reachability
import ScriptSandbox.Proofs.Capability.Record
import ScriptSandbox.Proofs.Syntax.Site
import ScriptSandbox.Proofs.Syntax.Numbering
import ScriptSandbox.Proofs.Syntax.RoundTrip
import ScriptSandbox.Proofs.Scope.Update
import ScriptSandbox.Proofs.Scope.Enclosure
import ScriptSandbox.Proofs.Scope.Walk
import ScriptSandbox.Proofs.Scope.Hoisting
import ScriptSandbox.Proofs.Scope.Binding
import ScriptSandbox.Proofs.Scope.Block
import ScriptSandbox.Proofs.Scope.Handover
import ScriptSandbox.Proofs.Scope.Owner
import ScriptSandbox.Proofs.Scope.Capture
import ScriptSandbox.Proofs.Scope.Classification
import ScriptSandbox.Proofs.Scope.Disjointness
import ScriptSandbox.Proofs.Step.Evaluation
import ScriptSandbox.Proofs.Scope.Labeling
import ScriptSandbox.Proofs.Scope.Writing
import ScriptSandbox.Proofs.Step.Budget
import ScriptSandbox.Proofs.World.Cache
import ScriptSandbox.Proofs.World.Wrapper
import ScriptSandbox.Proofs.World.Identity
import ScriptSandbox.Proofs.World.Nesting
import ScriptSandbox.Proofs.Operation.Crossing
import ScriptSandbox.Proofs.Step.Suspension
import ScriptSandbox.Proofs.Guard.Atomicity
import ScriptSandbox.Proofs.World.Still
import ScriptSandbox.Proofs.Guard.Storage
import ScriptSandbox.Proofs.Guard.Tracking
import ScriptSandbox.Proofs.Guard.Reaching
import ScriptSandbox.Proofs.Step.Cancellation
import ScriptSandbox.Proofs.Operation.Prototype
import ScriptSandbox.Proofs.Step.Guarantee
import ScriptSandbox.Proofs.World.Elementary
import ScriptSandbox.Proofs.Operation.Footprint
import ScriptSandbox.Proofs.World.Recall
import ScriptSandbox.Proofs.Guard.Errand
import ScriptSandbox.Proofs.Guard.Forgetting
import ScriptSandbox.Proofs.Guard.Deciding
import ScriptSandbox.Proofs.Syntax.Arena
import ScriptSandbox.Proofs.Scope.Checking
import ScriptSandbox.Proofs.Scope.Totality
import ScriptSandbox.Proofs.Step.Debt
import ScriptSandbox.Proofs.World.Marks
import ScriptSandbox.Proofs.Operation.Scripting
import ScriptSandbox.Proofs.Operation.Joining
import ScriptSandbox.Proofs.Operation.ArrayText
import ScriptSandbox.Proofs.Step.Dialogue
import ScriptSandbox.Proofs.Step.Ending
import ScriptSandbox.Proofs.Operation.Asking
import ScriptSandbox.Proofs.Operation.JoinDepth
import ScriptSandbox.Proofs.Operation.Conversion
import ScriptSandbox.Proofs.Step.Mapping
import ScriptSandbox.Proofs.Operation.Equality
import ScriptSandbox.Proofs.Number.Rounding
import ScriptSandbox.Proofs.Number.Shortest
import ScriptSandbox.Proofs.Number.ReadBack
import ScriptSandbox.Proofs.Number.Value
import ScriptSandbox.Proofs.Number.Nearest
import ScriptSandbox.Proofs.Number.Arithmetic
import ScriptSandbox.Proofs.Number.Digits
import ScriptSandbox.Proofs.Number.Grammar
import ScriptSandbox.Proofs.Number.Word
import ScriptSandbox.Proofs.Operation.PrimitiveCoercion
import ScriptSandbox.Proofs.Step.Sequence
import ScriptSandbox.Proofs.Number.WordOperator
import ScriptSandbox.Proofs.Operation.Operands
import ScriptSandbox.Proofs.Step.Relay
import ScriptSandbox.Proofs.Operation.Composition
import ScriptSandbox.Proofs.Capability.Minting
import ScriptSandbox.Proofs.Operation.Failing
import ScriptSandbox.Proofs.World.Entry
import ScriptSandbox.Proofs.Step.Remainder
import ScriptSandbox.Proofs.Guard.Handle
import ScriptSandbox.Proofs.World.Lineage
import ScriptSandbox.Proofs.World.Return
import ScriptSandbox.Proofs.World.Capacity
import ScriptSandbox.Proofs.Scope.Resolution
import ScriptSandbox.Proofs.Scope.Tracking
import ScriptSandbox.Proofs.World.Alike
import ScriptSandbox.Proofs.World.Upkeep
import ScriptSandbox.Proofs.World.Overlooking
import ScriptSandbox.Proofs.Step.Interruption
import ScriptSandbox.Proofs.Operation.Overlooking
import ScriptSandbox.Proofs.Maintenance
import ScriptSandbox.Proofs.Operation.StrictEquality
import ScriptSandbox.Proofs.Operation.Inheritance
import ScriptSandbox.Proofs.Operation.ArrayIndex
import ScriptSandbox.Proofs.Operation.ArrayMembers
import ScriptSandbox.Proofs.Syntax.Overwriting
import ScriptSandbox.Proofs.Syntax.Relowering
import ScriptSandbox.Proofs.Scope.Rereading
import ScriptSandbox.Proofs.Scope.Idempotence
import ScriptSandbox.Proofs.Syntax.Reading
import ScriptSandbox.Proofs.Scope.Pattern
import ScriptSandbox.Proofs.Scope.BlockDeclaration
import ScriptSandbox.Proofs.Scope.SourceLabel
import ScriptSandbox.Proofs.Operation.ArrayName
