import TensorGraph.Shape.Layout

/-!
# What several shapes agree on

Of several operands: the axis order that most of them share, and the lengths to which all of them
broadcast.
-/

namespace TensorGraph.Shape

/-- Whether one axis order is preferred to another: by more votes, and among equals by coming
earlier in the lexicographic order. -/
def outvotes (votes : List (List Nat)) (order other : List Nat) : Bool :=
  decide (votes.count other < votes.count order) ||
    (votes.count other == votes.count order && decide (order < other))

/-- The most frequent axis order, the lexicographically first of those with equal votes. -/
def elect (votes : List (List Nat)) : Option (List Nat) :=
  votes.foldl
    (fun best order =>
      match best with
      | none => some order
      | some other => if outvotes votes order other then some order else some other)
    none

/-- The axis order that most shapes without a zero stride share. When there is none of them, the
order of the listing at the rank of the first shape. -/
def commonAxisOrder (shapes : List Shape) : List Nat :=
  match shapes with
  | [] => []
  | first :: _ =>
    let votes := (shapes.filter fun s => !s.broadcasted).map axisOrder
    (elect votes).getD (Permutation.identity first.rank)

/-- The length to which two lengths of one axis broadcast: a length of one gives way. -/
def joinLen (a b : Nat) : Option Nat :=
  if a = 1 then some b
  else if b = 1 ∨ b = a then some a
  else none

/-- Lengths with ones in front up to this rank. -/
def padLens (rank : Nat) (lens : List Nat) : List Nat :=
  List.replicate (rank - lens.length) 1 ++ lens

def joinLens (xs ys : List Nat) : Option (List Nat) :=
  (xs.zip ys).mapM fun (a, b) => joinLen a b

/-- The lengths to which all shapes broadcast, aligned at the innermost axis. There are none for an
empty list, nor when two lengths other than one differ on some axis. -/
def commonLens (shapes : List Shape) : Option (List Nat) := do
  let rank ← (shapes.map rank).max?
  shapes.foldlM (fun joined s => joinLens joined (padLens rank s.lens)) (List.replicate rank 1)

end TensorGraph.Shape
