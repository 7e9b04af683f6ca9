import TensorGraph.Operator.Inference.Joins
import TensorGraph.Operator.Inference.Movement
import TensorGraph.Tensor

/-!
# Evaluation without modules

What each operator computes, given the shape that inference chose for its result.
-/

namespace TensorGraph.Evaluation

variable {α : Type} [Scalar α]

def flawed {β : Type} (op : String) (flaw : ValueFlaw) : Outcome EvalError β :=
  .refuse (.compute op flaw)

def unaryValue (fn : UnaryFn) (out : Shape) (a : Tensor α) : Checked (Tensor α) :=
  Tensor.tabulate out fun index => return Scalar.unary fn (← a.get index)

def binaryValue (fn : BinaryFn) (out : Shape) (a b : Tensor α) : Checked (Tensor α) :=
  Tensor.tabulate out fun index => return Scalar.binary fn (← a.get index) (← b.get index)

/-- Set the entries of an index at some axes. -/
def placeAt (axes : List Nat) (positions : List Nat) (index : List Nat) : List Nat :=
  (axes.zip positions).foldl (fun index (axis, position) => index.set axis position) index

/-- The sum over all positions of the reduced axes, in row-major order of these axes as listed. An
axis that is listed twice counts once. -/
def reduceSumValue (axes : List Nat) (out : Shape) (a : Tensor α) : Checked (Tensor α) := do
  let reduced := axes.eraseDups
  let lens ← reduced.mapM (fetch a.lens)
  Tensor.tabulate out fun index => do
    foldIndicesM
      (fun total positions =>
        return Scalar.add total (← a.get (placeAt reduced positions index)))
      lens Scalar.emptySum

/-- One entry of a matrix product: the products along the inner axis, added in order. -/
def dotEntry (a b : Tensor α) (inner : Nat) (batch : List Nat) (row column : Nat) :
    Checked α :=
  foldCountM
    (fun total k => do
      let x ← a.get (batch ++ [row, k])
      let y ← b.get (batch ++ [k, column])
      return Scalar.add total (Scalar.mul x y))
    0 inner Scalar.zero

/-- Batched matrix product. The number of elements is counted before anything is computed. -/
def dotValue (out : Shape) (a b : Tensor α) : Checked (Tensor α) := do
  let _ ← out.elements
  match Inference.matrixLens? a.lens with
  | none => .error .outOfBounds
  | some (_, _, inner) =>
    Tensor.tabulate out fun index =>
      match Inference.matrixLens? index with
      | some (batch, row, column) => dotEntry a b inner batch row column
      | none => .error .outOfBounds

def sliceOffset (input : Shape) (ranges : List Inference.AxisRange) : Checked Nat := do
  Word.sum (← ranges.mapM fun range => do
    Word.mul range.first (← fetch input.strides range.axis))

/-- The rest of the buffer from the first selected position, under the shortened axes. -/
def sliceValue (op : String) (axes : List Nat) (starts ends : List Int) (out : Shape)
    (a : Tensor α) : Outcome EvalError (Tensor α) := do
  let ranges ← (Inference.sliceRanges op a.shape axes starts ends : Outcome ShapeError _)
  a.offsetView (← sliceOffset a.shape ranges) out

/-- The position that an element names along an axis. An element below zero counts from the end of
the axis, also when its integer part is zero. -/
def namedPosition (len : Nat) (element : α) : Checked Int :=
  if Scalar.isNegative element then
    Word.addSigned (Scalar.truncate element) (Word.toSigned len)
  else .ok (Scalar.truncate element)

def outside (len : Nat) (position : Int) : Bool :=
  decide (position < 0) || decide ((len : Int) ≤ position)

/-- The position along the gathered axis for an index of the result. -/
def pickedPosition (axis len : Nat) (picks : Tensor α) (index : List Nat) : Checked Int := do
  namedPosition len (← picks.get ((index.drop axis).take picks.shape.rank))

/-- The last picked position that lies outside the axis. -/
def lastOutside? (axis len : Nat) (picks : Tensor α) (lens : List Nat) : Checked (Option Int) :=
  foldIndicesM
    (fun last? index => do
      let position ← pickedPosition axis len picks index
      return if outside len position then some position else last?)
    lens none

/-- The values at the picked positions. When some position is outside, the last such one is
reported. -/
def gatherValue (op : String) (axis : Int) (out : Shape) (a picks : Tensor α) :
    Outcome EvalError (Tensor α) := do
  let place ← (Inference.resolveAxis op axis a.shape.rank : Outcome ShapeError _)
  let len ← fetch a.lens place
  let value ← Tensor.tabulate out fun index => do
    let position ← pickedPosition place len picks index
    if outside len position then return Scalar.zero
    else
      a.get (index.take place ++ position.toNat :: index.drop (place + picks.shape.rank))
  match ← (lastOutside? place len picks out.lens : Checked _) with
  | some position => flawed op (.indexOutOfRange position len)
  | none => return value

/-- The part of a join that an index falls into, with the index relative to that part. -/
def locate (axis : Nat) : List (Tensor α) → List Nat → Checked (Option (Tensor α × List Nat))
  | [], _ => .ok none
  | part :: parts, index => do
    let len ← fetch part.lens axis
    let position ← fetch index axis
    if position < len then return some (part, index)
    else locate axis parts (index.set axis (position - len))

/-- The parts one after another along an axis. -/
def joinValue (axis : Nat) (out : Shape) (parts : List (Tensor α)) : Checked (Tensor α) :=
  Tensor.tabulate out fun index => do
    match ← locate axis parts index with
    | some (part, inner) => part.get inner
    | none => return Scalar.zero

/-- Join along an axis that may be counted from the end. -/
def concatValue (op : String) (axis : Int) (out : Shape) (parts : List (Tensor α)) :
    Outcome EvalError (Tensor α) := do
  let place ← (Inference.resolveAxis op axis out.rank : Outcome ShapeError _)
  joinValue place out parts

def tupleElemValue (op : String) (index : Nat) (a : Tensor α) : Outcome EvalError (Tensor α) :=
  match a.parts[index]? with
  | some part => .ok part
  | none => flawed op (.noComponent index)

end TensorGraph.Evaluation
