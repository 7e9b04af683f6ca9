import TensorGraph.Fault

/-!
# 64-bit arithmetic

Lengths, strides and offsets are natural numbers below `2^64`. The operations compute exactly and
fault when the exact result does not fit. Sums and products run from the left, which decides whether
an intermediate value faults: a zero early in a product hides the factors after it.
-/

namespace TensorGraph.Word

/-- One more than the greatest unsigned value. -/
def limit : Nat := 18446744073709551616

/-- One more than the greatest signed value. -/
def signedLimit : Nat := 9223372036854775808

/-- An exact result, if it fits. -/
def ofNat (value : Nat) : Checked Nat :=
  if value < limit then .ok value else .error .overflow

def add (a b : Nat) : Checked Nat := ofNat (a + b)

def mul (a b : Nat) : Checked Nat := ofNat (a * b)

def sum (values : List Nat) : Checked Nat := values.foldlM add 0

def product (values : List Nat) : Checked Nat := values.foldlM mul 1

/-- The signed reading of an unsigned value of 64 bits. -/
def toSigned (value : Nat) : Int :=
  if value < signedLimit then (value : Int) else (value : Int) - (limit : Int)

/-- Whether an integer is a signed value of 64 bits. -/
def isSigned (value : Int) : Bool :=
  decide (-(signedLimit : Int) ≤ value) && decide (value < (signedLimit : Int))

def addSigned (a b : Int) : Checked Int :=
  if isSigned (a + b) then .ok (a + b) else .error .overflow

end TensorGraph.Word
