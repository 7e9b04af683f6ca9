import TensorGraph.Counting
import TensorGraph.Permutation
import TensorGraph.Sorting
import TensorGraph.Word

/-!
# Layouts in a buffer

Which buffer positions a strided layout uses. All counts are 64-bit and fault on overflow, also
where a later zero length would make the exact result small.
-/

namespace TensorGraph

/-- Strides of the dense row-major layout: the innermost is one, and each other is the next one
times the next length. The outermost length takes no part. -/
def standardStrides : List Nat → Checked (List Nat)
  | [] => .ok []
  | _ :: rest => do
    let inner ← standardStrides rest
    match rest, inner with
    | len :: _, stride :: _ => return (← Word.mul stride len) :: inner
    | _, _ => return 1 :: inner

namespace Layout

/-- The dense row-major layout of these lengths. -/
def standard (lens : List Nat) : Checked Layout :=
  return ofLists lens (← standardStrides lens)

/-- The layout with these lengths and strides, which must have one rank. -/
def ofStrides (lens strides : List Nat) : Checked Layout :=
  if lens.length = strides.length then .ok (ofLists lens strides) else .error .rankMismatch

/-- One step of laying out axes from the innermost: the axis gets the number of positions so far
as its stride, and multiplies that number by its length. -/
def placeAxis (lens : List Nat) (axis : Nat) (placed : List Nat × Nat) :
    Checked (List Nat × Nat) :=
  return (placed.1.set axis placed.2, ← Word.mul placed.2 (← fetch lens axis))

/-- The dense layout of these lengths whose memory order walks the axes as listed, the outermost
first. -/
def permuted (lens order : List Nat) : Checked Layout :=
  if Permutation.isPermutation order && order.length == lens.length then do
    let placed ← order.foldrM (placeAxis lens) (List.replicate lens.length 0, 1)
    return ofLists lens placed.1
  else
    .error (.notPermutation order lens.length)

def elements (axes : Layout) : Checked Nat := Word.product axes.lens

/-- Number of buffer positions from the first to the last one that is used. -/
def space (axes : Layout) : Checked Nat :=
  if axes.lens.contains 0 then .ok 0
  else do
    let last ← Word.sum (← axes.mapM fun axis => Word.mul (axis.len - 1) axis.stride)
    Word.add last 1

/-- Whether the layout is the dense row-major one of its lengths. -/
def isStandard (axes : Layout) : Checked Bool :=
  return axes.strides == (← standardStrides axes.lens)

/-- Whether there are as many logical positions as buffer positions. -/
def isPacked (axes : Layout) : Checked Bool :=
  return (← axes.elements) == (← axes.space)

/-- The buffer position of a logical index. Entries beyond the rank are ignored, and a short index
stands for zeros. -/
def offset (axes : Layout) (index : List Nat) : Checked Nat := do
  Word.sum (← (index.zip axes.strides).mapM fun (i, stride) => Word.mul i stride)

/-- The axes from the largest to the smallest stride; of equal strides the outer axis comes
first. -/
def axisOrder (axes : Layout) : List Nat :=
  (sorted (fun a b => decide (b.1.stride ≤ a.1.stride)) axes.zipIdx).map (·.2)

end Layout

/-- Every logical index of these lengths, in row-major order, when no length is zero. -/
def indicesFrom : List Nat → List (List Nat)
  | [] => [[]]
  | len :: rest => (List.range len).flatMap fun i => (indicesFrom rest).map (i :: ·)

/-- Every logical index of these lengths, in row-major order. A zero length leaves none. -/
def indices (lens : List Nat) : List (List Nat) :=
  if lens.contains 0 then [] else indicesFrom lens

/-- The most entries that memory can address. -/
def largestListing : Nat := 288230376151711743

/-- The list of all logical indices, if memory can hold so many. -/
def listIndices (lens : List Nat) : Checked (List (List Nat)) :=
  if lens.foldl (· * ·) 1 ≤ largestListing then .ok (indices lens) else .error .tooLarge

section Folding

variable {m : Type → Type} [Monad m] {σ : Type}

/-- Take a step for every logical index that begins with the given entries, when no length is
zero. -/
@[specialize]
def foldIndicesFromM (step : σ → List Nat → m σ) : (lens outer : List Nat) → σ → m σ
  | [], outer, state => step state outer
  | len :: rest, outer, state =>
    foldCountM (fun state i => foldIndicesFromM step rest (outer ++ [i]) state) 0 len state

/-- Take a step for every logical index of these lengths, in row-major order, without a list of
them. -/
def foldIndicesM (step : σ → List Nat → m σ) (lens : List Nat) (state : σ) : m σ :=
  if lens.contains 0 then pure state else foldIndicesFromM step lens [] state

/-- The steps are those of the indices that begin with the given entries. -/
theorem foldIndicesFromM_eq_foldlM [LawfulMonad m] (step : σ → List Nat → m σ)
    (lens outer : List Nat) (state : σ) :
    foldIndicesFromM step lens outer state =
      ((indicesFrom lens).map (outer ++ ·)).foldlM step state := by
  induction lens generalizing outer state with
  | nil => simp [foldIndicesFromM, indicesFrom]
  | cons len rest ih =>
    simp only [foldIndicesFromM, indicesFrom, foldCountM_eq_foldlM, ih, List.map_flatMap,
      foldlM_flatMap, List.map_map, List.range_eq_range']
    simp only [Function.comp_def, List.append_assoc, List.singleton_append]

/-- The steps are those of the indices in row-major order. -/
theorem foldIndicesM_eq_foldlM [LawfulMonad m] (step : σ → List Nat → m σ) (lens : List Nat)
    (state : σ) : foldIndicesM step lens state = (indices lens).foldlM step state := by
  rw [foldIndicesM, indices]
  split
  · rfl
  · rw [foldIndicesFromM_eq_foldlM]
    simp

end Folding

namespace Shape

def standard (elem : ElementType) (lens : List Nat) : Checked Shape :=
  return .strided elem (← Layout.standard lens)

def ofStrides (elem : ElementType) (lens strides : List Nat) : Checked Shape :=
  return .strided elem (← Layout.ofStrides lens strides)

def permuted (elem : ElementType) (lens order : List Nat) : Checked Shape :=
  return .strided elem (← Layout.permuted lens order)

/-- The standard shape of rank zero. -/
def scalar (elem : ElementType) : Shape := .strided elem []

/-- Number of logical positions. Shapes without lengths count one. -/
def elements (s : Shape) : Checked Nat := s.axes.elements

/-- Number of buffer positions that a value of this shape needs. Only strided shapes need any. -/
def space : Shape → Checked Nat
  | .strided _ axes => axes.space
  | _ => .ok 0

/-- Whether the shape is strided, dense and row-major. -/
def isStandard : Shape → Checked Bool
  | .strided _ axes => axes.isStandard
  | _ => .ok false

/-- Whether the shape is strided and leaves no buffer position unused or used twice. -/
def isPacked : Shape → Checked Bool
  | .strided _ axes => axes.isPacked
  | _ => .ok false

/-- The order in which the shape walks its axes, the largest stride first. Shapes without strides
keep their axes in place. -/
def axisOrder (s : Shape) : List Nat :=
  if s.axes.isEmpty then Permutation.identity s.rank else s.axes.axisOrder

/-- Whether the axes lie in memory in another order than they are listed. -/
def transposed (s : Shape) : Bool :=
  !s.broadcasted && !Permutation.isIdentity s.axisOrder

def offset (s : Shape) (index : List Nat) : Checked Nat := s.axes.offset index

/-- The dense shape of other lengths in this shape's axis order. -/
def withLens (s : Shape) (lens : List Nat) : Checked Shape :=
  permuted s.elem lens s.axisOrder

/-- The standard shape of the same lengths. Shapes without strides are kept. -/
def asStandard : Shape → Checked Shape
  | .strided e axes => standard e axes.lens
  | s => .ok s

end Shape

end TensorGraph
