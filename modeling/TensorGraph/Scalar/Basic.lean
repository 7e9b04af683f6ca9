/-!
# Scalars

What tensors are made of. Everything above this module is stated for any scalar type, so the same
operators and graphs can be run on 32-bit floating point numbers and reasoned about over exact ones.
-/

namespace TensorGraph

inductive UnaryFn
  | neg
  | exp
  | relu
  | sqrt
  | recip
deriving DecidableEq, Repr

inductive BinaryFn
  | add
  | sub
  | mul
  | div
  | max
deriving DecidableEq, Repr

/-- A type of tensor elements. -/
class Scalar (α : Type) where
  /-- Content of a fresh buffer and start of a product sum. -/
  zero : α
  /-- The sum of no elements, from which every sum starts. -/
  emptySum : α
  unary : UnaryFn → α → α
  binary : BinaryFn → α → α → α
  /-- The element that stores a position. -/
  ofNat : Nat → α
  /-- The integer part of an element, held to the 64-bit range. -/
  truncate : α → Int
  isNegative : α → Bool
  same : α → α → Bool
  text : α → String

namespace Scalar

variable {α : Type} [Scalar α]

def add (a b : α) : α := binary .add a b

def mul (a b : α) : α := binary .mul a b

end Scalar

end TensorGraph
