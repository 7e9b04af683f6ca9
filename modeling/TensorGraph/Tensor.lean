import TensorGraph.Scalar.Basic
import TensorGraph.Shape.Layout

/-!
# Tensors

A tensor is a buffer seen through a strided layout, or a tuple of tensors. Views share a buffer
under another layout, so a buffer need not be dense and may be longer than its layout uses. What a
tensor means is what `get` reads at every logical index.
-/

namespace TensorGraph

/-- A buffer with a layout, or the components of a value with several. -/
inductive Tensor (α : Type)
  | strided (elem : ElementType) (axes : Layout) (data : Array α)
  | tuple (parts : List (Tensor α))
deriving Inhabited

namespace Tensor

variable {α : Type}

mutual

def shape : Tensor α → Shape
  | .strided elem axes _ => .strided elem axes
  | .tuple parts => Shape.ofParts (shapes parts)

def shapes : List (Tensor α) → List Shape
  | [] => []
  | t :: rest => shape t :: shapes rest

end

/-- The buffer. A tuple has none of its own. -/
def data : Tensor α → Array α
  | .strided _ _ data => data
  | .tuple _ => #[]

/-- The components of a tuple. Other tensors have none. -/
def parts : Tensor α → List (Tensor α)
  | .strided _ _ _ => []
  | .tuple parts => parts

def lens (t : Tensor α) : List Nat := t.shape.lens

/-- A buffer under a strided shape. The buffer must reach the last position that is used. -/
def ofBuffer (shape : Shape) (data : Array α) : Checked (Tensor α) :=
  match shape with
  | .strided elem axes => do
    if data.size < (← axes.space) then .error (.shortBuffer data.size shape)
    else return .strided elem axes data
  | _ => .error (.needsStrided shape)

/-- The tensor of rank zero with this value. -/
def scalar (value : α) : Tensor α := .strided .float32 [] #[value]

def get (t : Tensor α) (index : List Nat) : Checked α := do
  match t.data[← t.shape.offset index]? with
  | some value => return value
  | none => .error .outOfBounds

mutual

/-- The values in row-major order, component after component. -/
def toList : Tensor α → Checked (List α)
  | .strided elem axes data => do
    if ← axes.isStandard then
      let count ← axes.elements
      if data.size < count then .error .outOfBounds
      else return (data.extract 0 count).toList
    else
      (← listIndices axes.lens).mapM (Tensor.strided elem axes data).get
  | .tuple parts => toLists parts

def toLists : List (Tensor α) → Checked (List α)
  | [] => .ok []
  | t :: rest => return (← toList t) ++ (← toLists rest)

end

/-- The same buffer under another shape. -/
def view (t : Tensor α) (shape : Shape) : Checked (Tensor α) :=
  ofBuffer shape t.data

/-- The buffer from a position on, under another shape. -/
def offsetView (t : Tensor α) (offset : Nat) (shape : Shape) : Checked (Tensor α) :=
  ofBuffer shape (t.data.extract (min offset t.data.size) t.data.size)

/-- The same values in the standard layout. A tensor that has it already keeps its buffer. -/
def contiguous (t : Tensor α) : Checked (Tensor α) := do
  if ← t.shape.isStandard then return t
  else ofBuffer (← t.shape.asStandard) (← t.toList).toArray

/-- The most elements that memory can address. -/
def largestBuffer : Nat := 2305843009213693951

def zeros [Scalar α] (size : Nat) : Checked (Array α) :=
  if size ≤ largestBuffer then .ok (Array.replicate size Scalar.zero) else .error .tooLarge

def store (data : Array α) (position : Nat) (value : α) : Checked (Array α) :=
  if h : position < data.size then .ok (data.set position value h) else .error .outOfBounds

/-- The tensor of this shape whose value at each logical index is given. Where a layout uses a
position twice, the later index decides. -/
def tabulate [Scalar α] (shape : Shape) (value : List Nat → Checked α) : Checked (Tensor α) := do
  let fresh ← zeros (← shape.space)
  let data ← foldIndicesM
    (fun data index => do
      let item ← value index
      store data (← shape.offset index) item)
    shape.lens fresh
  ofBuffer shape data

section Comparison

variable [Scalar α]

mutual

/-- Whether shapes and buffers agree. Elements are compared as scalars, so one that is not equal to
itself makes a tensor differ from itself. -/
def same : Tensor α → Tensor α → Bool
  | .strided e xs data, .strided f ys other =>
    e == f && xs == ys && data.size == other.size &&
      (data.toList.zip other.toList).all fun (a, b) => Scalar.same a b
  | .tuple parts, .tuple others => sameList parts others
  | _, _ => false

/-- Component lists agree when they have one length and agree position by position. -/
def sameList : List (Tensor α) → List (Tensor α) → Bool
  | [], [] => true
  | t :: ts, u :: us => same t u && sameList ts us
  | _, _ => false

end

mutual

def text : Tensor α → Checked String
  | .strided elem axes data => do
    let values ← (Tensor.strided elem axes data).toList
    return s!"Tensor({(Shape.strided elem axes).text}, {Text.inBrackets (values.map Scalar.text)})"
  | .tuple parts => return s!"Tuple({Text.inBrackets (← texts parts)})"

def texts : List (Tensor α) → Checked (List String)
  | [] => .ok []
  | t :: rest => return (← text t) :: (← texts rest)

end

end Comparison

end Tensor

end TensorGraph
