import TensorGraph.Proofs.Operator.Listings
import TensorGraph.Proofs.Pass.Matching

/-!
# Eliminating forced layouts preserves values

A graph and what an elimination makes of it give the same values for the same bindings, where there is
room for every value in every layout.
-/

namespace TensorGraph

open Graph List

variable {α : Type} [Scalar α]

namespace Pass

variable {g h k : Graph α} {origin : NodeId → NodeId}

theorem Tracks.exists_of_swept (hplain : g.Plain) (htracks : Tracks g h origin)
    (hswept : Swept "contiguous" h k) : ∃ origin', Tracks g k origin' :=
  htracks.exists_of_swept_of_looped hplain.looped hswept

/-- What a tracked graph returns. -/
theorem Tracks.run_twins (hplain : g.Plain) (htracks : Tracks g h origin) {bindings : Bindings α}
    (hadmits : g.Admits bindings) {outs : List (Tensor α)} (hrun : g.run bindings = .ok outs) :
    Delivers g.Roomy (Forall₂ Tensor.Twin outs) (h.run bindings) :=
  (htracks.follows hplain).run_twins hadmits hrun

end Pass

/-- A matrix stored by columns that is forced into the standard layout, negated and summed up. -/
def forcedSum : Graph Float32 :=
  ⟨"",
    [(0, ⟨.parameter "a" (.strided .float32 [⟨2, 1⟩, ⟨3, 2⟩]),
       .strided .float32 [⟨2, 1⟩, ⟨3, 2⟩], [], []⟩),
     (1, ⟨.contiguous, .strided .float32 [⟨2, 3⟩, ⟨3, 1⟩], [0], []⟩),
     (2, ⟨.unary .neg, .strided .float32 [⟨2, 3⟩, ⟨3, 1⟩], [1], []⟩),
     (3, ⟨.reduceSum [0, 1], .strided .float32 [⟨1, 1⟩, ⟨1, 1⟩], [2], []⟩)],
    [], 4⟩

/-- A value for the parameter. -/
def columns : Bindings Float32 :=
  [("a", .strided .float32 [⟨2, 1⟩, ⟨3, 2⟩] #[1, 2, 3, 4, 5, 6])]

/-- The graph after its forced layout was bypassed. -/
def bypassedSum : Graph Float32 :=
  ⟨"",
    [(0, ⟨.parameter "a" (.strided .float32 [⟨2, 1⟩, ⟨3, 2⟩]),
       .strided .float32 [⟨2, 1⟩, ⟨3, 2⟩], [], []⟩),
     (1, ⟨.contiguous, .strided .float32 [⟨2, 3⟩, ⟨3, 1⟩], [0], []⟩),
     (2, ⟨.unary .neg, .strided .float32 [⟨2, 1⟩, ⟨3, 2⟩], [0], []⟩),
     (3, ⟨.reduceSum [0, 1], .strided .float32 [⟨1, 1⟩, ⟨1, 1⟩], [2], []⟩)],
    [], 4⟩

/-- One entry, at strides of which two do not fit into 64 bits. -/
def farApart : Layout := [⟨1, 9223372036854775808⟩, ⟨1, 9223372036854775808⟩]

/-- An empty slice, past the one entry of a tensor that is forced into the standard layout. -/
def forcedSlice : Graph Float32 :=
  ⟨"",
    [(0, ⟨.parameter "a" (.strided .float32 farApart), .strided .float32 farApart, [], []⟩),
     (1, ⟨.contiguous, .strided .float32 [⟨1, 1⟩, ⟨1, 1⟩], [0], []⟩),
     (2, ⟨.slice [0, 1] [1, 1] [1, 1], .strided .float32 [⟨0, 1⟩, ⟨0, 1⟩], [1], []⟩),
     (3, ⟨.unary .neg, .strided .float32 [⟨0, 0⟩, ⟨0, 1⟩], [2], []⟩)],
    [], 4⟩

/-- The graph after its forced layout was bypassed: the slice starts at position `2 ^ 64`. -/
def bypassedSlice : Graph Float32 :=
  ⟨"",
    [(0, ⟨.parameter "a" (.strided .float32 farApart), .strided .float32 farApart, [], []⟩),
     (1, ⟨.contiguous, .strided .float32 [⟨1, 1⟩, ⟨1, 1⟩], [0], []⟩),
     (2, ⟨.slice [0, 1] [1, 1] [1, 1],
       .strided .float32 [⟨0, 9223372036854775808⟩, ⟨0, 9223372036854775808⟩], [0], []⟩),
     (3, ⟨.unary .neg, .strided .float32 [⟨0, 0⟩, ⟨0, 1⟩], [2], []⟩)],
    [], 4⟩

/-- A value for the parameter. -/
def oneEntry : Bindings Float32 := [("a", .strided .float32 farApart #[1])]

end TensorGraph
