import TensorGraph.Operator.Inference.Checks
import TensorGraph.Shape.Agreement

/-!
# Inference for elementwise operators, sums and products

The result of an elementwise operator is dense. One operand that is packed keeps its axis order; of
several operands the order that most of them share is taken.
-/

namespace TensorGraph.Inference

/-- A packed input keeps its axis order, any other becomes standard, an open one stays. -/
def unaryShape (op : String) (inputs : List Shape) : Outcome ShapeError Shape := do
  let s ← oneInput op inputs
  if s.isDynamic then return s
  requireStrided op inputs
  if ← s.isPacked then s.withLens s.lens
  else s.asStandard

/-- Operands of one element type and of equal lengths. The result is dense in the axis order that
most operands without a zero stride share. -/
def elementwiseShape (op : String) (inputs : List Shape) : Outcome ShapeError Shape :=
  match inputs with
  | [] => invalid op .noInputs
  | first :: _ => do
    if !allEqual (inputs.map Shape.elem) then invalid op (.mixedTypes inputs)
    else if inputs.any Shape.isDynamic then
      if !allEqual (inputs.map Shape.ranges) then invalid op (.mixedRanges inputs)
      else return .ranged first.elem first.ranges
    else
      requireStrided op inputs
      if !allEqual (inputs.map Shape.lens) then invalid op (.mixedLengths inputs)
      else Shape.permuted first.elem first.lens (Shape.commonAxisOrder inputs)

def binaryShape (op : String) (inputs : List Shape) : Outcome ShapeError Shape := do
  let _ ← twoInputs op inputs
  elementwiseShape op inputs

def reducedLens (op : String) (input : Shape) (axes : List Nat) :
    Outcome ShapeError (List Nat) :=
  axes.foldlM
    (fun lens axis =>
      if axis < lens.length then .ok (lens.set axis 1)
      else invalid op (.reducedAxis axis input))
    input.lens

/-- The listed axes have length one in the result. -/
def reduceSumShape (op : String) (axes : List Nat) (inputs : List Shape) :
    Outcome ShapeError Shape := do
  let s ← oneInput op inputs
  requireStrided op inputs
  Shape.standard s.elem (← reducedLens op s axes)

/-- The lengths of a matrix seen as a stack: those of the stack, rows and columns. -/
def matrixLens? (lens : List Nat) : Option (List Nat × Nat × Nat) :=
  match lens.reverse with
  | columns :: rows :: batch => some (batch.reverse, rows, columns)
  | _ => none

/-- Stacks of equal lengths, whose matrices agree in the inner length. -/
def dotShape (op : String) (inputs : List Shape) : Outcome ShapeError Shape := do
  let (a, b) ← twoInputs op inputs
  requireStrided op inputs
  if a.elem ≠ b.elem then invalid op (.productTypes a b)
  else if a.rank ≠ b.rank then invalid op (.productRanks a b)
  else
    match matrixLens? a.lens, matrixLens? b.lens with
    | some (aBatch, rows, aInner), some (bBatch, bInner, columns) =>
      if aBatch ≠ bBatch then invalid op (.productBatches a b)
      else if aInner ≠ bInner then invalid op (.productInner a b)
      else Shape.standard a.elem (aBatch ++ [rows, columns])
    | _, _ => invalid op (.productRanks a b)

end TensorGraph.Inference
