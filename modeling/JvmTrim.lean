import JvmTrim.Assembly
import JvmTrim.Association
import JvmTrim.Assumptions
import JvmTrim.Bytes
import JvmTrim.Change
import JvmTrim.ClassFile.Access
import JvmTrim.ClassFile.Class
import JvmTrim.ClassFile.Code
import JvmTrim.ClassFile.Index
import JvmTrim.ConstantPool
import JvmTrim.Descriptor
import JvmTrim.Edit.Apply
import JvmTrim.Edit.Basic
import JvmTrim.Edit.Placement
import JvmTrim.Evaluation.Fixpoint
import JvmTrim.Evaluation.Folding
import JvmTrim.Evaluation.Record
import JvmTrim.Evaluation.Transfer
import JvmTrim.Failure
import JvmTrim.Frame
import JvmTrim.Hierarchy
import JvmTrim.Ieee.Arithmetic
import JvmTrim.Ieee.Decimal
import JvmTrim.Ieee.Format
import JvmTrim.IndexSet
import JvmTrim.Instruction.Basic
import JvmTrim.Instruction.Codec
import JvmTrim.Instruction.Listing
import JvmTrim.Instruction.StackEffect
import JvmTrim.Instruction.Text
import JvmTrim.KeepSet
import JvmTrim.Kind
import JvmTrim.Lattice
import JvmTrim.Linkage
import JvmTrim.Opcode
import JvmTrim.Optimizer
import JvmTrim.OrderedSet
import JvmTrim.Origin
import JvmTrim.Proofs.Agreement
import JvmTrim.Proofs.Ancestry
import JvmTrim.Proofs.Arising
import JvmTrim.Proofs.Assembling
import JvmTrim.Proofs.Atomicity
import JvmTrim.Proofs.Attribution
import JvmTrim.Proofs.Balance
import JvmTrim.Proofs.Boundaries
import JvmTrim.Proofs.Calls
import JvmTrim.Proofs.Closure
import JvmTrim.Proofs.Coarsening
import JvmTrim.Proofs.Codec
import JvmTrim.Proofs.Collecting
import JvmTrim.Proofs.Confinement
import JvmTrim.Proofs.Deletion
import JvmTrim.Proofs.Descent
import JvmTrim.Proofs.Descriptors
import JvmTrim.Proofs.DirectCalls
import JvmTrim.Proofs.Distinctness
import JvmTrim.Proofs.Divergence
import JvmTrim.Proofs.Editing
import JvmTrim.Proofs.Emission
import JvmTrim.Proofs.ExactPushes
import JvmTrim.Proofs.Exchange
import JvmTrim.Proofs.Exits
import JvmTrim.Proofs.Execution
import JvmTrim.Proofs.FallThrough
import JvmTrim.Proofs.Faultless
import JvmTrim.Proofs.FiniteSets
import JvmTrim.Proofs.FlagWords
import JvmTrim.Proofs.FlowEdges
import JvmTrim.Proofs.FlowPaths
import JvmTrim.Proofs.FrameAccess
import JvmTrim.Proofs.HandlerLiveness
import JvmTrim.Proofs.Handlers
import JvmTrim.Proofs.Heights
import JvmTrim.Proofs.HierarchyShape
import JvmTrim.Proofs.Implementing
import JvmTrim.Proofs.Inheritance
import JvmTrim.Proofs.Initialization
import JvmTrim.Proofs.Invariance
import JvmTrim.Proofs.Iteration
import JvmTrim.Proofs.Join
import JvmTrim.Proofs.Keeping
import JvmTrim.Proofs.Layout
import JvmTrim.Proofs.Locality
import JvmTrim.Proofs.Machine
import JvmTrim.Proofs.Marking
import JvmTrim.Proofs.MarkingBounds
import JvmTrim.Proofs.MarkingRounds
import JvmTrim.Proofs.MemberReferences
import JvmTrim.Proofs.Mentions
import JvmTrim.Proofs.Merging
import JvmTrim.Proofs.Naming
import JvmTrim.Proofs.Necessity
import JvmTrim.Proofs.OpenBranches
import JvmTrim.Proofs.OrdinaryCalls
import JvmTrim.Proofs.Outcome
import JvmTrim.Proofs.Overapproximation
import JvmTrim.Proofs.Overriding
import JvmTrim.Proofs.PoolHistory
import JvmTrim.Proofs.PostFixpoint
import JvmTrim.Proofs.Presence
import JvmTrim.Proofs.PresenceAgreement
import JvmTrim.Proofs.Preservation
import JvmTrim.Proofs.Privatizing
import JvmTrim.Proofs.Producers
import JvmTrim.Proofs.Provenance
import JvmTrim.Proofs.Pushes
import JvmTrim.Proofs.Reachability
import JvmTrim.Proofs.Reduced
import JvmTrim.Proofs.Relocation
import JvmTrim.Proofs.Replacing
import JvmTrim.Proofs.Resolution
import JvmTrim.Proofs.Retargeting
import JvmTrim.Proofs.Retention
import JvmTrim.Proofs.RoundTrip
import JvmTrim.Proofs.Saturation
import JvmTrim.Proofs.Selection
import JvmTrim.Proofs.Semilattice
import JvmTrim.Proofs.Sets
import JvmTrim.Proofs.Settling
import JvmTrim.Proofs.Simulation
import JvmTrim.Proofs.Soundness
import JvmTrim.Proofs.Spinning
import JvmTrim.Proofs.StackBounds
import JvmTrim.Proofs.StackPlan
import JvmTrim.Proofs.StackShape
import JvmTrim.Proofs.StaticInitialization
import JvmTrim.Proofs.Substitution
import JvmTrim.Proofs.Tables
import JvmTrim.Proofs.Tiling
import JvmTrim.Proofs.Tracing
import JvmTrim.Proofs.TransferSound
import JvmTrim.Proofs.Vacancy
import JvmTrim.Proofs.VariableCount
import JvmTrim.Proofs.WellFormedFrames
import JvmTrim.Proofs.Within
import JvmTrim.Settings
import JvmTrim.Shuffle
import JvmTrim.SideEffect
import JvmTrim.Simplify.Body
import JvmTrim.Simplify.ConstantPush
import JvmTrim.Simplify.Marks
import JvmTrim.Simplify.Necessity
import JvmTrim.Simplify.Reduction
import JvmTrim.Simplify.Repair
import JvmTrim.Simplify.StackPlan
import JvmTrim.StackHeight
import JvmTrim.Statistics
import JvmTrim.Tighten.Final
import JvmTrim.Tighten.Merge
import JvmTrim.Tighten.Pass
import JvmTrim.Tighten.Private
import JvmTrim.Value
