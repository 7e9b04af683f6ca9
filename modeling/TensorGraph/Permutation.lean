import TensorGraph.Fault

/-!
# Permutations

A permutation of rank `n` is a list that names each of `0, …, n - 1` once. Applied to a list it
says, position by position, which entry comes there.
-/

namespace TensorGraph.Permutation

/-- Each position below the length occurs, and no position occurs twice. -/
def isPermutation (axes : List Nat) : Bool :=
  axes.all (· < axes.length) && decide axes.Nodup

/-- Each position stays where it is. -/
def isIdentity (axes : List Nat) : Bool :=
  axes == List.range axes.length

def identity (rank : Nat) : List Nat := List.range rank

/-- Where each position is named: entry `axes[i]` of the result is `i`. A position that is named
twice keeps its last place, one that is not named gets zero. -/
def inverse (axes : List Nat) : Checked (List Nat) :=
  axes.zipIdx.foldlM
    (fun result (axis, place) =>
      if axis < axes.length then .ok (result.set axis place) else .error .outOfBounds)
    (List.replicate axes.length 0)

/-- Entry `i` of the result is entry `axes[i]` of the list. -/
def reorder {α : Type} (items : List α) (axes : List Nat) : Checked (List α) :=
  axes.mapM (fetch items)

end TensorGraph.Permutation
