import TensorGraph.Proofs.Pass.Chains
import TensorGraph.Proofs.Pass.Preservation

/-!
# Shortening chains preserves values

Where there is room for every value in every layout, the shortened graph gives values whenever the
original one does.
-/

namespace TensorGraph

open Graph Revision List

variable {α : Type} [Scalar α]

namespace Pass

/-- A step leaves a graph in which every node computes what it did. -/
theorem Shortened.shortens {g h k : Graph α} (hplain : g.Plain) (hshortened : Shortened g h)
    {node : NodeId} {unused? : Option NodeId} (hshortens : Shortens h node unused? k) :
    Shortened g k := by
  cases hshortens with
  | idle => exact hshortened
  | collapse _ habove hstart hearlier _ hrun =>
    have hcarries := hshortened.carries_of_above habove
    exact hshortened.replaceInstruction (shortened_exchanges hplain)
      (hshortened.stands_of_recurrence hplain hcarries hstart hearlier) hcarries.earlier hrun
  | cancel hclimb hidentity _ hrun =>
    exact hshortened.replaceInstruction (shortened_exchanges hplain)
      ((hshortened.climb hplain hclimb).stands_of_isIdentity hplain hidentity)
      (hclimb.source_earlier hshortened.ordered) hrun
  | turn hclimb _ _ hrun =>
    obtain ⟨order, hop⟩ := hclimb.turned
    exact hshortened.replaceTranspose hplain (hshortened.climb hplain hclimb)
      (hclimb.source_earlier hshortened.ordered) hclimb.found hop hrun

/-- Shortening the chains of a graph leaves a graph in which every node computes what it did. -/
theorem shortenChains_shortened {w final : Workspace α} (hplain : w.graph.Plain) {changes : Nat}
    (hrun : shortenChains w = .ok changes final) : Shortened w.graph final.graph := by
  rw [shortenChains_eq_ok_iff] at hrun
  refine foldlM_invariant (motive := fun _ k => Shortened w.graph k.graph) ?_
    (shortened_self hplain) hrun
  intro node count k count' next _ hshortened hstep
  obtain ⟨unused?, h, hshortens, hleft⟩ := shortenAt_eq_ok hstep
  have hmiddle := hshortened.shortens hplain hshortens
  rw [hleft]
  cases unused? with
  | none => exact hmiddle
  | some unused => exact hmiddle.removeUnused unused

end Pass

/-- A chain of reshapes that comes back to its first shape, and two transpositions with a forced
layout in between. -/
def windingChain : Graph Float32 :=
  ⟨"",
    [(0, ⟨.parameter "a" (.strided .float32 [⟨2, 6⟩, ⟨3, 2⟩, ⟨2, 1⟩]),
       .strided .float32 [⟨2, 6⟩, ⟨3, 2⟩, ⟨2, 1⟩], [], []⟩),
     (1, ⟨.unsqueeze [0], .strided .float32 [⟨1, 12⟩, ⟨2, 6⟩, ⟨3, 2⟩, ⟨2, 1⟩], [0], []⟩),
     (2, ⟨.squeeze [0], .strided .float32 [⟨2, 6⟩, ⟨3, 2⟩, ⟨2, 1⟩], [1], []⟩),
     (3, ⟨.transpose [1, 2, 0], .strided .float32 [⟨3, 2⟩, ⟨2, 1⟩, ⟨2, 6⟩], [2], []⟩),
     (4, ⟨.contiguous, .strided .float32 [⟨3, 4⟩, ⟨2, 2⟩, ⟨2, 1⟩], [3], []⟩),
     (5, ⟨.transpose [0, 2, 1], .strided .float32 [⟨3, 4⟩, ⟨2, 1⟩, ⟨2, 2⟩], [4], []⟩),
     (6, ⟨.unary .neg, .strided .float32 [⟨3, 4⟩, ⟨2, 1⟩, ⟨2, 2⟩], [5], []⟩)],
    [], 7⟩

/-- What is left of the chain: one transposition by the composed order. -/
def straightChain : Graph Float32 :=
  ⟨"",
    [(0, ⟨.parameter "a" (.strided .float32 [⟨2, 6⟩, ⟨3, 2⟩, ⟨2, 1⟩]),
       .strided .float32 [⟨2, 6⟩, ⟨3, 2⟩, ⟨2, 1⟩], [], []⟩),
     (5, ⟨.transpose [1, 0, 2], .strided .float32 [⟨3, 2⟩, ⟨2, 6⟩, ⟨2, 1⟩], [0], []⟩),
     (6, ⟨.unary .neg, .strided .float32 [⟨3, 2⟩, ⟨2, 6⟩, ⟨2, 1⟩], [5], []⟩)],
    [3, 4, 1, 2], 7⟩

/-- A value for the parameter. -/
def twelve : Bindings Float32 :=
  [("a", .strided .float32 [⟨2, 6⟩, ⟨3, 2⟩, ⟨2, 1⟩] #[1, 2, 3, 4, 5, 6, 7, 8, 9, 10, 11, 12])]

/-- An empty slice, past the one entry of a tensor that is turned there and back. The layout that is
forced in between is the one that the slice sees. -/
def turnedSlice : Graph Float32 :=
  ⟨"",
    [(0, ⟨.parameter "a" (.strided .float32 farApart), .strided .float32 farApart, [], []⟩),
     (1, ⟨.transpose [1, 0], .strided .float32 farApart, [0], []⟩),
     (2, ⟨.contiguous, .strided .float32 [⟨1, 1⟩, ⟨1, 1⟩], [1], []⟩),
     (3, ⟨.transpose [1, 0], .strided .float32 [⟨1, 1⟩, ⟨1, 1⟩], [2], []⟩),
     (4, ⟨.slice [0, 1] [1, 1] [1, 1], .strided .float32 [⟨0, 1⟩, ⟨0, 1⟩], [3], []⟩),
     (5, ⟨.unary .neg, .strided .float32 [⟨0, 0⟩, ⟨0, 1⟩], [4], []⟩)],
    [], 6⟩

/-- What is left of the graph: the slice starts at position `2 ^ 64`. -/
def bareSlice : Graph Float32 :=
  ⟨"",
    [(0, ⟨.parameter "a" (.strided .float32 farApart), .strided .float32 farApart, [], []⟩),
     (4, ⟨.slice [0, 1] [1, 1] [1, 1],
       .strided .float32 [⟨0, 9223372036854775808⟩, ⟨0, 9223372036854775808⟩], [0], []⟩),
     (5, ⟨.unary .neg, .strided .float32 [⟨0, 0⟩, ⟨0, 1⟩], [4], []⟩)],
    [1, 2, 3], 6⟩

end TensorGraph
