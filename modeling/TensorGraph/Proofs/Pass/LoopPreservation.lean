import TensorGraph.Proofs.Pass.Preservation

/-!
# Eliminating forced layouts in front of loops

A forced layout in front of a loop is always bypassed, and the body may refuse the layout that it meets
then. What can go wrong is confined to nodes that are loops or depend on one and that read other nodes than
before.
-/

namespace TensorGraph

open Graph List

variable {α : Type} [Scalar α]

/-- A matrix stored by columns that is forced into the standard layout in front of a loop, which runs
once. -/
def forcedLoop (body : Graph Float32) : Graph Float32 :=
  ⟨"",
    [(0, ⟨.parameter "a" (.strided .float32 [⟨2, 1⟩, ⟨3, 2⟩]),
       .strided .float32 [⟨2, 1⟩, ⟨3, 2⟩], [], []⟩),
     (1, ⟨.contiguous, .strided .float32 [⟨2, 3⟩, ⟨3, 1⟩], [0], []⟩),
     (2, ⟨.scan 1 0 1, .tuple .float32 [.strided .float32 [⟨2, 3⟩, ⟨3, 1⟩]], [1], [body]⟩),
     (3, ⟨.tupleElem 0, .strided .float32 [⟨2, 3⟩, ⟨3, 1⟩], [2], []⟩)],
    [], 4⟩

/-- The graph after its forced layout was bypassed. -/
def bypassedLoop (body : Graph Float32) : Graph Float32 :=
  ⟨"",
    [(0, ⟨.parameter "a" (.strided .float32 [⟨2, 1⟩, ⟨3, 2⟩]),
       .strided .float32 [⟨2, 1⟩, ⟨3, 2⟩], [], []⟩),
     (1, ⟨.contiguous, .strided .float32 [⟨2, 3⟩, ⟨3, 1⟩], [0], []⟩),
     (2, ⟨.scan 1 0 1, .tuple .float32 [.strided .float32 [⟨2, 3⟩, ⟨3, 1⟩]], [0], [body]⟩),
     (3, ⟨.tupleElem 0, .strided .float32 [⟨2, 3⟩, ⟨3, 1⟩], [2], []⟩)],
    [], 4⟩

/-- The negation of a matrix. -/
def negation : Graph Float32 :=
  ⟨"",
    [(0, ⟨.parameter "x" (.strided .float32 [⟨2, 3⟩, ⟨3, 1⟩]),
       .strided .float32 [⟨2, 3⟩, ⟨3, 1⟩], [], []⟩),
     (1, ⟨.unary .neg, .strided .float32 [⟨2, 3⟩, ⟨3, 1⟩], [0], []⟩)],
    [], 2⟩

/-- A matrix laid out as a vector and back. -/
def flattening : Graph Float32 :=
  ⟨"",
    [(0, ⟨.parameter "x" (.strided .float32 [⟨2, 3⟩, ⟨3, 1⟩]),
       .strided .float32 [⟨2, 3⟩, ⟨3, 1⟩], [], []⟩),
     (1, ⟨.reshape [6], .strided .float32 [⟨6, 1⟩], [0], []⟩),
     (2, ⟨.reshape [2, 3], .strided .float32 [⟨2, 3⟩, ⟨3, 1⟩], [1], []⟩)],
    [], 3⟩

theorem looped_forcedLoop {body : Graph Float32} (hbody : body = negation ∨ body = flattening) :
    (forcedLoop body).Looped := by
  have hall : ∀ node stored, (forcedLoop body).find? node = some stored → PlainInstruction stored ∨
      stored.op.isScan = true ∧ ∀ m ∈ stored.modules, ∀ node stored,
        m.find? node = some stored → PlainInstruction stored := by
    rcases hbody with rfl | rfl <;> decide
  refine looped_of_instructions fun node stored hfound => (hall node stored hfound).imp_right ?_
  rintro ⟨hscan, hplain⟩
  exact ⟨hscan, fun m hm => looped_of_instructions fun _ _ hfound => .inl (hplain m hm _ _ hfound)⟩

theorem pliantInstruction_forcedLoop {node : NodeId} {instruction : Instruction Float32 (Graph Float32)}
    (hfound : (forcedLoop negation).find? node = some instruction) : PliantInstruction instruction := by
  have hpliant : negation.Pliant := by
    refine pliant_of_instructions fun node instruction hfound => ?_
    have hmem := mem_nodes_of_find? hfound
    simp only [negation, mem_cons, not_mem_nil, or_false, Prod.mk.injEq] at hmem
    rcases hmem with ⟨-, rfl⟩ | ⟨-, rfl⟩ <;> exact ⟨⟨rfl, trivial⟩, nofun⟩
  have hmem := mem_nodes_of_find? hfound
  simp only [forcedLoop, mem_cons, not_mem_nil, or_false, Prod.mk.injEq] at hmem
  rcases hmem with ⟨-, rfl⟩ | ⟨-, rfl⟩ | ⟨-, rfl⟩ | ⟨-, rfl⟩
  · exact ⟨rfl, nofun⟩
  · exact ⟨rfl, nofun⟩
  · exact ⟨rfl, fun _ => by simpa using hpliant⟩
  · exact ⟨rfl, nofun⟩

/-- The shapes of the values of the graph. -/
def loopShapes : List Shape :=
  [.strided .float32 [⟨2, 1⟩, ⟨3, 2⟩], .strided .float32 [⟨2, 3⟩, ⟨3, 1⟩],
    .tuple .float32 [.strided .float32 [⟨2, 3⟩, ⟨3, 1⟩]]]

theorem shape_mem_loopShapes {node : NodeId} {t : Tensor Float32}
    (hyields : Yields (forcedLoop negation).moduleRunner (forcedLoop negation) columns node t) :
    t.shape ∈ loopShapes := by
  have hchecked : ((forcedLoop negation).valuesWith (forcedLoop negation).moduleRunner columns
      (forcedLoop negation).order).toOption.any (·.all (·.shape ∈ loopShapes)) = true := by
    decide +kernel
  cases hrun : (forcedLoop negation).valuesWith (forcedLoop negation).moduleRunner columns
      (forcedLoop negation).order with
  | error =>
    rw [hrun] at hchecked
    cases hchecked
  | ok values =>
    rw [hrun] at hchecked
    obtain ⟨u, hu, hyields'⟩ :=
      exists_mem_right_of_forall₂ (valuesWith_yields hrun) hyields.mem_order
    rw [hyields.unique hyields']
    exact of_decide_eq_true (all_eq_true.1 hchecked u hu)

theorem roomyOn_forcedLoop : (forcedLoop negation).RoomyOn columns := by
  intro node instruction t hfound hyields
  have hroom : ∀ shape ∈ loopShapes, volume shape.lens ≤ largestListing := by decide
  have hmem := mem_nodes_of_find? hfound
  simp only [forcedLoop, mem_cons, not_mem_nil, or_false, Prod.mk.injEq] at hmem
  rcases hmem with ⟨-, rfl⟩ | ⟨-, rfl⟩ | ⟨-, rfl⟩ | ⟨-, rfl⟩
  · trivial
  · exact hroom _ (shape_mem_loopShapes hyields)
  · trivial
  · trivial

theorem filledOn_forcedLoop : (forcedLoop negation).FilledOn columns := by
  intro node t hyields
  have hshape := shape_mem_loopShapes hyields
  simp only [loopShapes, mem_cons, not_mem_nil, or_false] at hshape
  rcases hshape with hshape | hshape | hshape
  · exact (Tensor.filled_iff_of_shape hshape).2 (by decide)
  · exact (Tensor.filled_iff_of_shape hshape).2 (by decide)
  · cases t with
    | strided => cases hshape
    | tuple parts =>
      obtain ⟨part, rfl, hpart⟩ := Tensor.exists_of_shapes_eq_one (Shape.tuple.inj hshape).2
      refine .tuple fun part hmem => ?_
      cases mem_singleton.1 hmem
      exact (Tensor.filled_iff_of_shape hpart).2 (by decide)

end TensorGraph
