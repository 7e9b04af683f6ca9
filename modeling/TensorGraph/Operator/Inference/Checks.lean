import TensorGraph.Operator.Error
import TensorGraph.Word

/-!
# Checks that operators share

Each check either passes what the operator needs on, or refuses under the operator's name.
-/

namespace TensorGraph.Inference

def invalid {β : Type} (op : String) (flaw : ShapeFlaw) : Outcome ShapeError β :=
  .refuse (.invalid op flaw)

def noInput (op : String) : List Shape → Outcome ShapeError Unit
  | [] => .ok ()
  | inputs => .refuse (.inputCount op 0 inputs.length)

def oneInput (op : String) : List Shape → Outcome ShapeError Shape
  | [s] => .ok s
  | inputs => .refuse (.inputCount op 1 inputs.length)

def twoInputs (op : String) : List Shape → Outcome ShapeError (Shape × Shape)
  | [a, b] => .ok (a, b)
  | inputs => .refuse (.inputCount op 2 inputs.length)

/-- Every input is strided. An open length is reported before a tuple. -/
def requireStrided (op : String) (inputs : List Shape) : Outcome ShapeError Unit :=
  if inputs.any Shape.isDynamic then .refuse (.dynamic op)
  else if inputs.any Shape.isTuple then invalid op .tupleInput
  else .ok ()

/-- An axis that may be counted from the end, as a position below the rank. -/
def resolveAxis (op : String) (axis : Int) (rank : Nat) : Outcome ShapeError Nat :=
  let resolved := if axis < 0 then axis + rank else axis
  if resolved < 0 ∨ (rank : Int) ≤ resolved then invalid op (.axisOutOfRange axis rank)
  else .ok resolved.toNat

def allEqual {β : Type} [DecidableEq β] : List β → Bool
  | [] => true
  | first :: rest => rest.all fun item => decide (item = first)

end TensorGraph.Inference
