import TensorGraph.Frontend
import TensorGraph.Proofs.Einsum.ImpliedOutput
import TensorGraph.Proofs.Einsum.Lowering
import TensorGraph.Proofs.Einsum.StoredPositions
import TensorGraph.Proofs.Frontend.Refusals
import TensorGraph.Proofs.Graph.CommonOperands
import TensorGraph.Proofs.Graph.LoopShapes
import TensorGraph.Proofs.Graph.OwnValues
import TensorGraph.Proofs.Loop.Lowering
import TensorGraph.Proofs.Operator.Joins
import TensorGraph.Proofs.Operator.Slices
import TensorGraph.Proofs.Operator.Transpositions
import TensorGraph.Proofs.Operator.UnitAxes
import TensorGraph.Proofs.Operator.Votes
import TensorGraph.Proofs.Pass.DeadNodes
import TensorGraph.Proofs.Pass.Exhaustion
import TensorGraph.Proofs.Pass.LoopPreservation
import TensorGraph.Proofs.Pass.Rounds
import TensorGraph.Proofs.Pass.Workers
import TensorGraph.Proofs.Sequencing
import TensorGraph.Proofs.Tensor.Readback
