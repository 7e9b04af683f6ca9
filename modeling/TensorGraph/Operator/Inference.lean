import TensorGraph.Operator.Basic
import TensorGraph.Operator.Inference.Joins
import TensorGraph.Operator.Inference.Movement

/-!
# Shape inference

The shape that an operator gives its result, from the shapes of its inputs and the signatures of its
modules. Evaluation lays its result out in exactly this shape.
-/

namespace TensorGraph.Operator

open Inference

variable {α : Type}

/-- Anything but a tuple in the standard layout. -/
def contiguousShape (op : String) (inputs : List Shape) : Outcome ShapeError Shape := do
  let s ← oneInput op inputs
  if s.isTuple then invalid op .tupleNotDense else s.asStandard

/-- The shape of the result, or why there is none. -/
def infer (op : Operator α) (inputs : List Shape) (modules : List Signature) :
    Outcome ShapeError Shape :=
  match op with
  | .parameter _ shape => do
    noInput op.name inputs
    return shape
  | .literal value => do
    noInput op.name inputs
    return value.shape
  | .returns => return Shape.ofParts inputs
  | .identity => oneInput op.name inputs
  | .contiguous => contiguousShape op.name inputs
  | .unary _ => unaryShape op.name inputs
  | .binary _ => binaryShape op.name inputs
  | .reduceSum axes => reduceSumShape op.name axes inputs
  | .dot => dotShape op.name inputs
  | .transpose order => transposeShape op.name order inputs
  | .reshape dims => reshapeShape op.name dims inputs
  | .squeeze axes => squeezeShape op.name axes inputs
  | .unsqueeze axes => unsqueezeShape op.name axes inputs
  | .slice axes starts ends => sliceShape op.name axes starts ends inputs
  | .broadcast lens => broadcastShape op.name lens inputs
  | .gather axis => gatherShape op.name axis inputs
  | .concat axis => concatShape op.name axis inputs
  | .pointwise => pointwiseShape op.name inputs modules
  | .fusedConcat axis => fusedConcatShape op.name axis inputs modules
  | .scan iterations scanInputs stateVars =>
    scanShape op.name iterations scanInputs stateVars inputs modules
  | .tupleElem index => tupleElemShape op.name index inputs

end TensorGraph.Operator
