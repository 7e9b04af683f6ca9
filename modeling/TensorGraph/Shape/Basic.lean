import TensorGraph.Text.Listing

/-!
# Shapes

A shape is a strided layout, whose axes carry a length and a stride; a list of ranges, when the
lengths are only known at run time; or a tuple of shapes. The same lengths under other strides are
another shape.
-/

namespace TensorGraph

/-- What one element of a tensor is declared to be. Values are computed alike for all of them. -/
inductive ElementType
  | float32
  | float64
  | int32
  | int64
  | bool
deriving DecidableEq, Repr, Inhabited

def ElementType.text : ElementType → String
  | .float32 => "float_type"
  | .float64 => "double_type"
  | .int32 => "int32_type"
  | .int64 => "int64_type"
  | .bool => "bool_type"

/-- One axis of a strided layout: how many positions it has, and how far apart they lie in the
buffer. -/
structure Axis where
  len : Nat
  stride : Nat
deriving DecidableEq, Repr, Inhabited

/-- A length known only to lie between two bounds, both included. -/
structure DimRange where
  min : Nat
  max : Nat
deriving DecidableEq, Repr, Inhabited

namespace DimRange

def fixed (len : Nat) : DimRange := ⟨len, len⟩

def isFixed (range : DimRange) : Bool := range.min == range.max

end DimRange

/-- A strided layout: its axes from the outermost to the innermost. Lengths and strides have one
rank because they are listed together. -/
abbrev Layout := List Axis

namespace Layout

def lens (axes : Layout) : List Nat := axes.map Axis.len

def strides (axes : Layout) : List Nat := axes.map Axis.stride

def ofLists (lens strides : List Nat) : Layout := List.zipWith Axis.mk lens strides

/-- Whether some axis stays in place in the buffer, as broadcasting makes it. -/
def broadcasted (axes : Layout) : Bool := axes.strides.contains 0

end Layout

/-- Element type with a strided layout, with ranges of lengths, or with component shapes. -/
inductive Shape
  | strided (elem : ElementType) (axes : Layout)
  | ranged (elem : ElementType) (dims : List DimRange)
  | tuple (elem : ElementType) (parts : List Shape)
deriving Inhabited

namespace Shape

mutual

/-- Equality of shapes is decided form by form. -/
def decEq : (a b : Shape) → Decidable (a = b)
  | .strided e xs, .strided f ys =>
    decidable_of_iff (e = f ∧ xs = ys) (by simp)
  | .ranged e xs, .ranged f ys =>
    decidable_of_iff (e = f ∧ xs = ys) (by simp)
  | .tuple e xs, .tuple f ys =>
    have : Decidable (xs = ys) := decEqList xs ys
    decidable_of_iff (e = f ∧ xs = ys) (by simp)
  | .strided .., .ranged .. => isFalse (by simp)
  | .strided .., .tuple .. => isFalse (by simp)
  | .ranged .., .strided .. => isFalse (by simp)
  | .ranged .., .tuple .. => isFalse (by simp)
  | .tuple .., .strided .. => isFalse (by simp)
  | .tuple .., .ranged .. => isFalse (by simp)

def decEqList : (xs ys : List Shape) → Decidable (xs = ys)
  | [], [] => isTrue rfl
  | [], _ :: _ => isFalse (by simp)
  | _ :: _, [] => isFalse (by simp)
  | x :: xs, y :: ys =>
    have : Decidable (x = y) := decEq x y
    have : Decidable (xs = ys) := decEqList xs ys
    decidable_of_iff (x = y ∧ xs = ys) (by simp)

end

instance : DecidableEq Shape := decEq

def elem : Shape → ElementType
  | .strided e _ => e
  | .ranged e _ => e
  | .tuple e _ => e

/-- The same layout under another element type. Components of a tuple keep theirs. -/
def withElem (s : Shape) (e : ElementType) : Shape :=
  match s with
  | .strided _ axes => .strided e axes
  | .ranged _ dims => .ranged e dims
  | .tuple _ parts => .tuple e parts

/-- The tuple of these shapes. Its element type is the first component's, or the default one when
there is no component. -/
def ofParts (parts : List Shape) : Shape :=
  .tuple ((parts.head?.map elem).getD .float32) parts

/-- The axes of a strided shape. Other shapes have none. -/
def axes : Shape → Layout
  | .strided _ axes => axes
  | _ => []

def lens (s : Shape) : List Nat := s.axes.lens

def strides (s : Shape) : List Nat := s.axes.strides

/-- The components of a tuple. Other shapes have none. -/
def parts : Shape → List Shape
  | .tuple _ parts => parts
  | _ => []

/-- Every length as a range; a known length is a range of one. -/
def ranges : Shape → List DimRange
  | .strided _ axes => axes.lens.map DimRange.fixed
  | .ranged _ dims => dims
  | .tuple _ _ => []

/-- Number of axes. A tuple has none. -/
def rank : Shape → Nat
  | .strided _ axes => axes.length
  | .ranged _ dims => dims.length
  | .tuple _ _ => 0

def isTuple : Shape → Bool
  | .tuple _ _ => true
  | _ => false

def broadcasted (s : Shape) : Bool := s.axes.broadcasted

mutual

/-- Whether a length is left open, in the shape or in one of its components. -/
def isDynamic : Shape → Bool
  | .strided _ _ => false
  | .ranged _ _ => true
  | .tuple _ parts => anyDynamic parts

def anyDynamic : List Shape → Bool
  | [] => false
  | s :: rest => isDynamic s || anyDynamic rest

end

mutual

/-- Element type, lengths and strides; element type and ranges; or the components in brackets. -/
def text : Shape → String
  | .strided e axes =>
    Text.commaSeparated
      [e.text, Text.inBraces (axes.lens.map toString), Text.inBraces (axes.strides.map toString)]
  | .ranged e dims =>
    Text.commaSeparated
      [e.text, Text.inBraces (dims.map fun d => Text.inBraces [toString d.min, toString d.max])]
  | .tuple _ parts => Text.inBrackets (texts parts)

def texts : List Shape → List String
  | [] => []
  | s :: rest => text s :: texts rest

end

def listText (shapes : List Shape) : String := Text.inBrackets (texts shapes)

end Shape

end TensorGraph
