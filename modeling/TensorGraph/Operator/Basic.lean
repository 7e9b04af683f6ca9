import TensorGraph.Tensor
import TensorGraph.Text.Quoted

/-!
# Operators

The operators of the language, as one closed type, with their names and their written form. What
shape an operator infers is in `Operator.Inference`, what it computes in `Operator.Evaluation`.
-/

namespace TensorGraph

/-- What a node of a graph does with its inputs. -/
inductive Operator (α : Type)
  | parameter (name : String) (shape : Shape)
  | literal (value : Tensor α)
  /-- The end of a graph: its inputs are what the graph returns. -/
  | returns
  | identity
  | contiguous
  | unary (fn : UnaryFn)
  | binary (fn : BinaryFn)
  /-- Sum over some axes, which stay with length one. -/
  | reduceSum (axes : List Nat)
  | dot
  | transpose (order : List Nat)
  /-- Other lengths in row-major order. Zero copies a length, one entry of minus one is inferred. -/
  | reshape (dims : List Int)
  /-- Remove axes of length one. An empty list removes all of them. -/
  | squeeze (axes : List Nat)
  /-- Insert axes of length one, at these places of the result. -/
  | unsqueeze (axes : List Nat)
  /-- Cut a range out of some axes. Negative bounds count from the end. -/
  | slice (axes : List Nat) (starts ends : List Int)
  /-- Repeat axes of length one, and new outer axes, to these lengths. -/
  | broadcast (lens : List Nat)
  /-- Pick positions along an axis of the first input as the second one says. -/
  | gather (axis : Int)
  | concat (axis : Int)
  /-- Run one module on whole tensors of elements. -/
  | pointwise
  /-- Join what modules make of the inputs, and run a last module on the joined value. -/
  | fusedConcat (axis : Int)
  /-- Run a body module several times, passing states on. -/
  | scan (iterations scanInputs stateVars : Nat)
  | tupleElem (index : Nat)

def UnaryFn.name : UnaryFn → String
  | .neg => "neg"
  | .exp => "exp"
  | .relu => "relu"
  | .sqrt => "sqrt"
  | .recip => "recip"

def BinaryFn.name : BinaryFn → String
  | .add => "add"
  | .sub => "sub"
  | .mul => "mul"
  | .div => "div"
  | .max => "max"

/-- A name with a capital first letter, as operators are written. -/
def capitalized (name : String) : String :=
  match name.toList with
  | [] => ""
  | c :: rest => String.ofList (c.toUpper :: rest)

namespace Operator

variable {α : Type}

/-- The name by which the catalog and the passes know an operator. -/
def name : Operator α → String
  | .parameter .. => "@param"
  | .literal _ => "@literal"
  | .returns => "@return"
  | .identity => "identity"
  | .contiguous => "contiguous"
  | .unary fn => fn.name
  | .binary fn => fn.name
  | .reduceSum _ => "reduce_sum"
  | .dot => "dot"
  | .transpose _ => "transpose"
  | .reshape _ => "reshape"
  | .squeeze _ => "squeeze"
  | .unsqueeze _ => "unsqueeze"
  | .slice .. => "slice"
  | .broadcast _ => "multibroadcast"
  | .gather _ => "gather"
  | .concat _ => "concat"
  | .pointwise => "pointwise"
  | .fusedConcat _ => "fused_concat"
  | .scan .. => "scan"
  | .tupleElem _ => "get_tuple_elem"

def isParameter : Operator α → Bool
  | .parameter .. => true
  | _ => false

def parameterName? : Operator α → Option String
  | .parameter name _ => some name
  | _ => none

def isLiteral : Operator α → Bool
  | .literal _ => true
  | _ => false

def isReturns : Operator α → Bool
  | .returns => true
  | _ => false

def isPointwise : Operator α → Bool
  | .pointwise => true
  | _ => false

def concatAxis? : Operator α → Option Int
  | .concat axis => some axis
  | _ => none

def transposeOrder? : Operator α → Option (List Nat)
  | .transpose order => some order
  | _ => none

/-- A name with named fields in braces. -/
def record (name : String) (fields : List (String × String)) : String :=
  let written := fields.map fun (field, value) => field ++ ": " ++ value
  name ++ " \x7b " ++ Text.commaSeparated written ++ " \x7d"

/-- The written form of an operator with its attributes. Only an embedded value can fault. -/
def text [Scalar α] : Operator α → Checked String
  | .parameter name shape =>
    return record "Parameter" [("name", Text.quoted name), ("shape", shape.text)]
  | .literal value => return s!"Literal({← value.text})"
  | .returns => return "Return"
  | .identity => return "Identity"
  | .contiguous => return "Contiguous"
  | .unary fn => return capitalized fn.name
  | .binary fn => return capitalized fn.name
  | .reduceSum axes => return record "ReduceSum" [("axes", Text.natList axes)]
  | .dot => return "Dot"
  | .transpose order => return record "Transpose" [("permutation", Text.natList order)]
  | .reshape dims => return record "Reshape" [("dims", Text.intList dims)]
  | .squeeze axes => return record "Squeeze" [("axes", Text.natList axes)]
  | .unsqueeze axes => return record "Unsqueeze" [("axes", Text.natList axes)]
  | .slice axes starts ends =>
    return record "Slice"
      [("axes", Text.natList axes), ("starts", Text.intList starts), ("ends", Text.intList ends)]
  | .broadcast lens => return record "MultiBroadcast" [("out_lens", Text.natList lens)]
  | .gather axis => return record "Gather" [("axis", toString axis)]
  | .concat axis => return record "Concat" [("axis", toString axis)]
  | .pointwise => return "Pointwise"
  | .fusedConcat axis => return record "FusedConcat" [("axis", toString axis)]
  | .scan iterations scanInputs stateVars =>
    return record "Scan"
      [("iterations", toString iterations), ("num_scan_inputs", toString scanInputs),
       ("num_state_vars", toString stateVars)]
  | .tupleElem index => return record "GetTupleElem" [("index", toString index)]

end Operator

end TensorGraph
