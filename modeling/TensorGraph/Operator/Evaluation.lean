import TensorGraph.Operator.Evaluation.Modules
import TensorGraph.Operator.Inference

/-!
# Evaluation

The value of an operator on tensors. The caller has inferred the shape of the result from the shapes
of these tensors, so a missing input is a fault and not a refusal.
-/

namespace TensorGraph.Operator

open Evaluation

variable {α : Type} [Scalar α]

/-- The value on these inputs, laid out in the inferred shape. -/
def evaluate (op : Operator α) (out : Shape) (inputs : List (Tensor α))
    (modules : List (Callable α)) : Outcome EvalError (Tensor α) :=
  match op with
  | .parameter name _ => .refuse (.missingParameter name)
  | .literal value => return value
  | .returns => .refuse (.notEvaluable op.name)
  | .identity => fetch inputs 0
  | .contiguous => do (← fetch inputs 0).contiguous
  | .unary fn => do unaryValue fn out (← fetch inputs 0)
  | .binary fn => do binaryValue fn out (← fetch inputs 0) (← fetch inputs 1)
  | .reduceSum axes => do reduceSumValue axes out (← fetch inputs 0)
  | .dot => do dotValue out (← fetch inputs 0) (← fetch inputs 1)
  | .reshape _ => do (← (← fetch inputs 0).contiguous).view out
  | .transpose _ => do (← fetch inputs 0).view out
  | .squeeze _ => do (← fetch inputs 0).view out
  | .unsqueeze _ => do (← fetch inputs 0).view out
  | .broadcast _ => do (← fetch inputs 0).view out
  | .slice axes starts ends => do sliceValue op.name axes starts ends out (← fetch inputs 0)
  | .gather axis => do gatherValue op.name axis out (← fetch inputs 0) (← fetch inputs 1)
  | .concat axis => concatValue op.name axis out inputs
  | .pointwise => pointwiseValue out inputs modules
  | .fusedConcat axis => fusedConcatValue op.name axis out inputs modules
  | .scan iterations scanInputs stateVars =>
    scanValue op.name iterations scanInputs stateVars inputs modules
  | .tupleElem index => do tupleElemValue op.name index (← fetch inputs 0)

/-- Infer the shape of the result from the values, then compute it. -/
def apply (op : Operator α) (inputs : List (Tensor α)) (modules : List (Callable α)) :
    Outcome EvalError (Tensor α) := do
  let out ← (op.infer (Tensor.shapes inputs) (modules.map Callable.signature) :
    Outcome ShapeError Shape)
  op.evaluate out inputs modules

end TensorGraph.Operator
