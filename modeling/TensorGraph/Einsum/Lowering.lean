import TensorGraph.Einsum.Columns
import TensorGraph.Graph.Emission

/-!
# Lowering einsum

An einsum becomes movements, sums and batched matrix products. Each operand is reduced to its
diagonal, given an axis for every column, and summed over the columns that nothing else needs;
operands are then contracted from the left, two at a time.
-/

namespace TensorGraph.Einsum

variable {α : Type}

def lensOf (node : NodeId) : Emit α (List Nat) :=
  return (← (← Emit.graph).shape node).lens

def emitTranspose (node : NodeId) (order : List Nat) : Emit α NodeId :=
  if Permutation.isIdentity order then return node else Emit.add (.transpose order) [node] []

def emitContiguous (node : NodeId) : Emit α NodeId := do
  if ← (← (← Emit.graph).shape node).isStandard then return node
  else Emit.add .contiguous [node] []

/-- Change lengths, which needs the standard layout. -/
def emitReshape (node : NodeId) (lens : List Nat) : Emit α NodeId := do
  let node ← emitContiguous node
  if (← lensOf node) = lens then return node
  else Emit.add (.reshape (lens.map Word.toSigned)) [node] []

/-- Append axes of length one up to a rank. -/
def emitUnsqueeze (node : NodeId) (rank : Nat) : Emit α NodeId := do
  let current := (← (← Emit.graph).shape node).rank
  if rank ≤ current then return node
  else Emit.add (.unsqueeze (List.range' current (rank - current))) [node] []

def emitReduceSum (node : NodeId) (axes : List Nat) : Emit α NodeId :=
  if axes.isEmpty then return node else Emit.add (.reduceSum axes) [node] []

def emitBroadcast (node : NodeId) (lens : List Nat) : Emit α NodeId := do
  if (← lensOf node) = lens then return node else Emit.add (.broadcast lens) [node] []

def flawed (flaw : ShapeFlaw) : GraphError := .shape none "einsum" (.invalid "einsum" flaw)

/-- A power that fits into 64 bits. -/
def power? (base exponent : Nat) : Option Nat :=
  let value := Nat.pow base exponent
  if value < Word.limit then some value else none

/-- The distance of diagonal elements in a flattened cube: the sum of the powers of the length below
the number of axes. -/
def diagonalStep? (axes len : Nat) : Option Nat :=
  (List.range axes).foldlM
    (fun total exponent => do
      let total := total + (← power? len exponent)
      if total < Word.limit then some total else none)
    0

/-- The flat positions of the diagonal, as elements. -/
def diagonalIndices [Scalar α] (len step : Nat) : Tensor α :=
  .strided .float32 [⟨len, 1⟩] ((Array.range len).map fun j => Scalar.ofNat (j * step))

/-- Reduce a repeated column to its diagonal: the repeated axes are moved last and flattened into
one, from which the diagonal is gathered. Gives the node with its columns. -/
def emitDiagonal [Scalar α] (node : NodeId) (columns : List Nat) :
    Emit α (NodeId × List Nat) := do
  match firstRepeat? [] columns with
  | none => return (node, columns)
  | some column =>
    let axes := List.range columns.length
    let repeated := axes.filter fun axis => columns[axis]? == some column
    let kept := axes.filter fun axis => columns[axis]? != some column
    let len ← fetch (← lensOf node) (← fetch repeated 0)
    match power? len repeated.length, diagonalStep? repeated.length len with
    | some flat, some step =>
      let moved ← emitTranspose node (kept ++ repeated)
      let flattened ← emitReshape moved ((← lensOf moved).take kept.length ++ [flat])
      let picks ← Emit.literal (diagonalIndices len step)
      let diagonal ← Emit.add (.gather (kept.length : Int)) [flattened, picks] []
      return (diagonal, columns.filter (· != column) ++ [column])
    | _, _ => Emit.refuse (flawed (.diagonalOverflow repeated.length len))

/-- Where column axes come from after missing columns have been appended as axes of length one, in
column order. -/
def alignment (columns : List Nat) (count : Nat) : List Nat :=
  (List.range count).map fun column =>
    match columns.findIdx? (· == column) with
    | some axis => axis
    | none =>
      columns.length + ((List.range column).filter fun other => !columns.contains other).length

/-- Give every column an axis, in column order. -/
def emitAlign (node : NodeId) (columns : List Nat) (count : Nat) : Emit α NodeId := do
  emitTranspose (← emitUnsqueeze node count) (alignment columns count)

/-- A partial result: every column has an axis, and those that still carry a label are listed. -/
structure Operand where
  node : NodeId
  /-- The columns whose axes carry a label. -/
  present : List Nat

/-- How the columns of two operands are grouped for a product. -/
structure Grouping where
  /-- Columns of both that are needed later. -/
  batch : List Nat
  leftOnly : List Nat
  rightOnly : List Nat
  /-- Columns of both that are summed over. -/
  summed : List Nat
  /-- Columns of neither. -/
  rest : List Nat

namespace Grouping

/-- Group columns by which operands have them and whether they are needed later. -/
def of (count : Nat) (left right : List Nat) (later : Nat → Bool) : Grouping :=
  let columns := List.range count
  { batch := columns.filter fun c => left.contains c && right.contains c && later c
    leftOnly := columns.filter fun c => left.contains c && !right.contains c
    rightOnly := columns.filter fun c => right.contains c && !left.contains c
    summed := columns.filter fun c => left.contains c && right.contains c && !later c
    rest := columns.filter fun c => !left.contains c && !right.contains c }

/-- The columns group after group. -/
def order (g : Grouping) : List Nat :=
  g.batch ++ g.leftOnly ++ g.rightOnly ++ g.summed ++ g.rest

def leftStart (g : Grouping) : Nat := g.batch.length

def rightStart (g : Grouping) : Nat := g.leftStart + g.leftOnly.length

def summedStart (g : Grouping) : Nat := g.rightStart + g.rightOnly.length

/-- Whether the axis at a position is shared by both operands of the product. -/
def isShared (g : Grouping) (position : Nat) : Bool :=
  decide (position < g.leftStart) ||
    (decide (g.summedStart ≤ position) && decide (position < g.summedStart + g.summed.length))

end Grouping

def span (items : List Nat) (start length : Nat) : List Nat := (items.drop start).take length

/-- Lengths in which shared axes are as long as the longer operand has them. -/
def sharedLens (g : Grouping) (own other : List Nat) : List Nat :=
  (own.zip other).zipIdx.map fun ((a, b), position) => if g.isShared position then max a b else a

/-- Multiply two aligned operands and sum over the columns they share that are not needed later, by
one product of stacked matrices. -/
def emitContract (count : Nat) (left right : Operand) (later : Nat → Bool) : Emit α Operand := do
  let reduced := (List.range count).filter fun c =>
    left.present.contains c && !right.present.contains c && !later c
  let l ← emitReduceSum left.node reduced
  let leftPresent := left.present.filter fun c => !reduced.contains c
  let g := Grouping.of count leftPresent right.present later
  let l ← emitTranspose l g.order
  let r ← emitTranspose right.node g.order
  let (lOwn, rOwn) := (← lensOf l, ← lensOf r)
  let lLens := sharedLens g lOwn rOwn
  let rLens := sharedLens g rOwn lOwn
  let l ← emitBroadcast l lLens
  let r ← emitBroadcast r rLens
  let leftLens := span lLens g.leftStart g.leftOnly.length
  let rightLens := span rLens g.rightStart g.rightOnly.length
  let batch ← Word.product (lLens.take g.leftStart)
  let inner ← Word.product (span lLens g.summedStart g.summed.length)
  let l ← emitReshape l [batch, ← Word.product leftLens, inner]
  let r ← emitReshape r [batch, ← Word.product rightLens, inner]
  let r ← emitTranspose r [0, 2, 1]
  let product ← Emit.add .dot [l, r] []
  let outer := lLens.take g.leftStart ++ leftLens ++ rightLens
  let product ← emitReshape product (outer ++ List.replicate (count - outer.length) 1)
  let node ← emitTranspose product (← Permutation.inverse g.order)
  return ⟨node, g.batch ++ g.leftOnly ++ g.rightOnly⟩

/-- Whether a column is needed by an operand after this position, or by the output. -/
def Columns.neededAfter (columns : Columns) (position column : Nat) : Bool :=
  (columns.inputs.drop (position + 1)).any (·.contains column) || columns.output.contains column

/-- Bring one operand into column form, summed over what only it has, and contract it with the
result so far. -/
def emitOperand [Scalar α] (columns : Columns) (soFar : Option Operand) (arg : NodeId)
    (own : List Nat) (position : Nat) : Emit α Operand := do
  let later := columns.neededAfter position
  let (node, own) ← emitDiagonal arg own
  let node ← emitAlign node own columns.count
  let inLeft := fun column => (soFar.map (·.present.contains column)).getD false
  let reduced := (List.range columns.count).filter fun c =>
    own.contains c && !inLeft c && !later c
  let node ← emitReduceSum node reduced
  let right : Operand := ⟨node, own.filter fun c => !reduced.contains c⟩
  match soFar with
  | none => return right
  | some left => emitContract columns.count left right later

def emitColumns [Scalar α] (columns : Columns) (args : List NodeId) : Emit α NodeId := do
  let result ← (args.zip columns.inputs).zipIdx.foldlM
    (fun soFar ((arg, own), position) => some <$> emitOperand columns soFar arg own position) none
  match result with
  | none => Emit.refuse (flawed .noOperands)
  | some operand =>
    let all := List.range columns.count
    let leftover := all.filter fun c => operand.present.contains c && !columns.output.contains c
    let node ← emitReduceSum operand.node leftover
    let order := columns.output ++ all.filter fun c => !columns.output.contains c
    let node ← emitTranspose node order
    let rank := columns.output.length
    if rank < columns.count then
      Emit.add (.squeeze (List.range' rank (columns.count - rank))) [node] []
    else return node

/-- Lower an equation over nodes of the graph. Everything is checked before the first instruction is
added, and a refusal while emitting takes back what was added. -/
def lower [Scalar α] (equation : String) (args : List NodeId) : Change EinsumError α NodeId := do
  let parsed ← Outcome.ofExcept EinsumError.malformed (Equation.parse equation)
  let shapes ← (← get).shapes args
  let columns ← Outcome.ofExcept id (parsed.resolve shapes)
  (Emit.commit (emitColumns columns args)).widen .graph

end TensorGraph.Einsum
