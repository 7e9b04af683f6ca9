import TensorGraph.Graph.Basic

/-!
# Attributes

What a front end says about an operator besides its inputs. Graphs are shared between attributes, so
each carries a handle, and two attributes hold the same graph when their handles agree.
-/

namespace TensorGraph

inductive Attribute (α : Type)
  | int (value : Int)
  | ints (values : List Int)
  | float (value : α)
  | str (value : String)
  | graph (handle : Nat) (body : Graph α)

/-- Attributes by name. Each name occurs once. -/
abbrev Attributes (α : Type) := List (String × Attribute α)

namespace Attribute

variable {α : Type} [Scalar α]

/-- Whether two attributes hold the same value. Graphs are the same when they are shared. -/
def same : Attribute α → Attribute α → Bool
  | .int a, .int b => a == b
  | .ints a, .ints b => a == b
  | .float a, .float b => Scalar.same a b
  | .str a, .str b => a == b
  | .graph a _, .graph b _ => a == b
  | _, _ => false

/-- The written form of an attribute. A graph has none. -/
def text? : Attribute α → Option String
  | .int value => some s!"Int({value})"
  | .ints values => some s!"Ints({Text.intList values})"
  | .float value => some s!"Float({Scalar.text value})"
  | .str value => some s!"Str({Text.quoted value})"
  | .graph _ _ => none

end Attribute

end TensorGraph
