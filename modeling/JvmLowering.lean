import JvmLowering.Hierarchy.Platform
import JvmLowering.Lowering.Method
import JvmLowering.Proofs.FlowType.JoinAssignable
import JvmLowering.Proofs.Lowering.Preservation
import JvmLowering.Proofs.Typing.Soundness
import JvmLowering.Proofs.Typing.FixedPoint
import JvmLowering.Proofs.Body.Extension
import JvmLowering.Proofs.Typing.Widening
import JvmLowering.Proofs.Typing.VerifierExactness
import JvmLowering.Proofs.Lowering.Rewriting
import JvmLowering.Proofs.Lowering.Totality
import JvmLowering.Proofs.Lowering.Failure
import JvmLowering.Proofs.Checked.Lowering
import JvmLowering.Proofs.JvmType.DescriptorGrammar
import JvmLowering.Proofs.Typing.Termination
import JvmLowering.Proofs.Typing.Iteration
import JvmLowering.Proofs.Typing.PhiOperands
import JvmLowering.Proofs.Typing.Renumbering
import JvmLowering.Proofs.Lowering.SlotTypes
import JvmLowering.Proofs.Lowering.MoveRuns
import JvmLowering.Proofs.Lowering.ParallelMoves
import JvmLowering.Proofs.Lowering.Layout
import JvmLowering.Proofs.Lowering.StackDiscipline
import JvmLowering.Proofs.Lowering.StoredValues
import JvmLowering.Proofs.Hierarchy.Reachability
import JvmLowering.Proofs.Lowering.SlotTiling
import JvmLowering.Proofs.Lowering.CoveredLocals
import JvmLowering.Proofs.Lowering.FrameLayout
import JvmLowering.Proofs.Hierarchy.SubtypeOrder
import JvmLowering.Proofs.Typing.CastBounds
import JvmLowering.Proofs.Lowering.Readers
import JvmLowering.Proofs.Lowering.Definitions
import JvmLowering.Proofs.Lowering.SingleDefinition
import JvmLowering.Proofs.Hierarchy.Registry
import JvmLowering.Proofs.Hierarchy.Stability
