import TensorGraph.Operator.Inference.Checks
import TensorGraph.Shape.Layout

/-!
# Inference for operators that move values

All of these but gathering give a view: other axes over the same buffer. Reshaping asks for the
standard layout, because only there a change of lengths keeps the row-major order in place.
-/

namespace TensorGraph.Inference

/-- Reorder the axes, with their strides or with their ranges. -/
def transposeShape (op : String) (order : List Nat) (inputs : List Shape) :
    Outcome ShapeError Shape := do
  let s ← oneInput op inputs
  if !Permutation.isPermutation order || order.length != s.rank then
    invalid op (.notPermutation order s.rank)
  else if s.isDynamic then
    return .ranged s.elem (← Permutation.reorder s.ranges order)
  else
    requireStrided op inputs
    return .strided s.elem (← Permutation.reorder s.axes order)

/-- One entry of requested lengths: a copied length, a given one, or one for the inferred entry. -/
def requestedLen (op : String) (input : Shape) (dim : Int) (position : Nat) :
    Outcome ShapeError Nat :=
  if dim = 0 then
    match input.lens[position]? with
    | some len => .ok len
    | none => invalid op (.nothingToCopy position)
  else if 0 < dim then .ok dim.toNat
  else if dim = -1 then .ok 1
  else invalid op (.badDimension dim)

/-- Put the length that makes up the element count at the inferred entry, if there is one. -/
def inferLens (op : String) (input : Shape) (dims : List Int) (lens : List Nat) :
    Outcome ShapeError (List Nat) :=
  match dims.findIdx? (· == -1) with
  | none => .ok lens
  | some position => do
    let known ← Word.product lens
    if known = 0 then invalid op (.notInferable dims input)
    else
      let count ← input.elements
      if count % known ≠ 0 then invalid op (.notInferable dims input)
      else return lens.set position (count / known)

/-- A standard input under requested lengths of the same element count. -/
def reshapeShape (op : String) (dims : List Int) (inputs : List Shape) :
    Outcome ShapeError Shape := do
  let s ← oneInput op inputs
  requireStrided op inputs
  if !(← s.isStandard) then invalid op (.notStandard s)
  else if 1 < dims.count (-1) then invalid op .manyInferred
  else
    let requested ← dims.zipIdx.mapM fun (dim, position) => requestedLen op s dim position
    let lens ← inferLens op s dims requested
    if (← Word.product lens) ≠ (← s.elements) then invalid op (.countMismatch dims s)
    else Shape.standard s.elem lens

/-- The axes to remove: the listed ones, or every axis of length one. -/
def squeezedAxes (input : Shape) (axes : List Nat) : List Nat :=
  if axes.isEmpty then (input.lens.zipIdx.filter (·.1 == 1)).map (·.2) else axes

/-- Drop axes of length one with their strides. -/
def squeezeShape (op : String) (axes : List Nat) (inputs : List Shape) :
    Outcome ShapeError Shape := do
  let s ← oneInput op inputs
  requireStrided op inputs
  let removed := squeezedAxes s axes
  match removed.find? fun axis => s.lens[axis]? != some 1 with
  | some axis => invalid op (.notUnit axis s)
  | none =>
    return .strided s.elem ((s.axes.zipIdx.filter fun (_, i) => !removed.contains i).map (·.1))

/-- Walk the places of the result: an inserted axis has length one and the stride that a dense
layout would give it there, any other place takes the next axis. -/
def insertUnits (axes : List Nat) : (places : List Nat) → Layout → Checked Layout
  | [], _ => .ok []
  | place :: places, remaining =>
    if axes.contains place then do
      let stride ← match remaining with
        | next :: _ => Word.mul next.len next.stride
        | [] => .ok 1
      return ⟨1, stride⟩ :: (← insertUnits axes places remaining)
    else
      match remaining with
      | next :: rest => return next :: (← insertUnits axes places rest)
      | [] => .error .outOfBounds

/-- Insert axes of length one. The places are those of the result and each is named once. -/
def unsqueezeShape (op : String) (axes : List Nat) (inputs : List Shape) :
    Outcome ShapeError Shape := do
  let s ← oneInput op inputs
  requireStrided op inputs
  let rank := s.rank + axes.length
  if axes.any (rank ≤ ·) || !decide axes.Nodup then invalid op (.badInsertion axes rank)
  else return .strided s.elem (← insertUnits axes (List.range rank) s.axes)

/-- A bound along an axis: negative ones count from the end, and all are held to the axis. -/
def clampBound (len : Nat) (bound : Int) : Checked Nat := do
  let top := Word.toSigned len
  let counted ← if bound < 0 then Word.addSigned bound top else pure bound
  if top < 0 then .error .emptyRange
  else return (max 0 (min top counted)).toNat

structure AxisRange where
  axis : Nat
  first : Nat
  /-- The position after the last one. -/
  last : Nat

def sliceRange (op : String) (input : Shape) (axis : Nat) (start stop : Int) :
    Outcome ShapeError AxisRange :=
  match input.lens[axis]? with
  | none => invalid op (.slicedAxis axis input)
  | some len => do
    let first ← clampBound len start
    let last ← clampBound len stop
    if last < first then invalid op (.reversedSlice first last axis)
    else return ⟨axis, first, last⟩

def sliceRanges (op : String) (input : Shape) (axes : List Nat) (starts ends : List Int) :
    Outcome ShapeError (List AxisRange) :=
  if axes.length ≠ starts.length ∨ axes.length ≠ ends.length then invalid op .raggedSlice
  else (axes.zip (starts.zip ends)).mapM fun (axis, start, stop) =>
    sliceRange op input axis start stop

/-- Shorten the axes that are cut. Strides stay. -/
def sliceShape (op : String) (axes : List Nat) (starts ends : List Int) (inputs : List Shape) :
    Outcome ShapeError Shape := do
  let s ← oneInput op inputs
  requireStrided op inputs
  let ranges ← sliceRanges op s axes starts ends
  let cut := ranges.foldl
    (fun (axes : Layout) range =>
      axes.modify range.axis fun axis => { axis with len := range.last - range.first })
    s.axes
  return .strided s.elem cut

/-- One axis broadcast to a length: it keeps its stride when the lengths agree, and a length of one
is repeated in place. -/
def broadcastAxis? (axis : Axis) (len : Nat) : Option Axis :=
  if axis.len = len then some ⟨len, axis.stride⟩
  else if axis.len = 1 then some ⟨len, 0⟩
  else none

def broadcastAxes? (axes : Layout) (lens : List Nat) : Option Layout :=
  (axes.zip lens).mapM fun (axis, len) => broadcastAxis? axis len

/-- Broadcast to these lengths, aligned at the innermost axis. New outer axes stay in place. -/
def broadcastShape (op : String) (lens : List Nat) (inputs : List Shape) :
    Outcome ShapeError Shape := do
  let s ← oneInput op inputs
  requireStrided op inputs
  if lens.length < s.rank then invalid op (.lowerRank s lens)
  else
    let outer := lens.length - s.rank
    match broadcastAxes? s.axes (lens.drop outer) with
    | none => invalid op (.notBroadcastable s lens)
    | some inner => return .strided s.elem ((lens.take outer).map (⟨·, 0⟩) ++ inner)

/-- The gathered axis is replaced by the axes of the indices. -/
def gatherShape (op : String) (axis : Int) (inputs : List Shape) : Outcome ShapeError Shape := do
  let (data, picks) ← twoInputs op inputs
  requireStrided op inputs
  let place ← resolveAxis op axis data.rank
  Shape.standard data.elem (data.lens.take place ++ picks.lens ++ data.lens.drop (place + 1))

end TensorGraph.Inference
