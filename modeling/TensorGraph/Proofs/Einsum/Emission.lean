import TensorGraph.Einsum.Lowering
import TensorGraph.Proofs.Einsum.Definition
import TensorGraph.Proofs.Graph.Growth
import TensorGraph.Proofs.Operator.Acceptance

/-!
# What emitted nodes mean

`F.Means g node axes place f` says what a node holds in all graphs that the present one grows into, for all
values of the operands. Each instruction has one rule.
-/

namespace TensorGraph.Einsum

open Graph Inference Layout List

variable {α R β : Type} [Scalar α] [CommSemiring R] {emission : Emit α NodeId}

/-- What a lowering starts from, and how its result is looked at. -/
structure Frame (α R : Type) [Scalar α] [CommSemiring R] where
  val : α → R
  args : List NodeId
  shapes : List Shape
  elem : ElementType
  len : Nat → Nat
  /-- When values are sure to be computed. -/
  sure : Prop

namespace Frame

variable {F : Frame α R} {property : List (Tensor α) → Tensor α → Prop} {shape : Shape}

/-- The operands have these values, and elements are seen exactly. -/
structure Supplies (F : Frame α R) (run : Runner α) (g : Graph α) (bindings : Bindings α)
    (tensors : List (Tensor α)) : Prop where
  exact : Exact F.val
  yields : Forall₂ (Yields run g bindings) F.args tensors
  shapes_eq : Tensor.shapes tensors = F.shapes
  valid : ∀ t ∈ tensors, t.Valid

/-- However the graph grows, a node has this shape and a value with this property, which is sure to be
there when all values are. -/
def Gives (F : Frame α R) (g : Graph α) (node : NodeId) (shape : Shape)
    (property : List (Tensor α) → Tensor α → Prop) : Prop :=
  g.shape node = .ok shape ∧
    ∀ ⦃h run bindings tensors⦄, g.Extends h → F.Supplies run h bindings tensors →
      Produces run h bindings F.sure node fun t => t.shape = shape ∧ t.Valid ∧ property tensors t

theorem Gives.mono {g h : Graph α} {node : NodeId} (hgives : F.Gives g node shape property)
    (hextends : g.Extends h) : F.Gives h node shape property :=
  ⟨hextends.shape hgives.1, fun _ _ _ _ hgrown hsupplies =>
    hgives.2 (hextends.trans hgrown) hsupplies⟩

theorem Gives.imp {g : Graph α} {node : NodeId} {property' : List (Tensor α) → Tensor α → Prop}
    (hgives : F.Gives g node shape property)
    (himp : ∀ tensors t, t.shape = shape → property tensors t → property' tensors t) :
    F.Gives g node shape property' := by
  refine ⟨hgives.1, fun h run bindings tensors hextends hsupplies => ?_⟩
  have hproduces := hgives.2 hextends hsupplies
  refine ⟨fun hyields => ?_, hproduces.runs⟩
  obtain ⟨hshape, hvalid, hproperty⟩ := hproduces.post hyields
  exact ⟨hshape, hvalid, himp tensors _ hshape hproperty⟩

/-- A shape with a property of the values that have it. -/
abbrev Part (α : Type) := Shape × (List (Tensor α) → Tensor α → Prop)

/-- What a value of a part is like. -/
def Part.Fits (part : Part α) (tensors : List (Tensor α)) (t : Tensor α) : Prop :=
  t.shape = part.1 ∧ t.Valid ∧ part.2 tensors t

/-- An operator with a formula gives what its formula makes of its inputs. -/
theorem gives_add {e : Emission α} {op : Operator α} {inputs : List NodeId}
    {parts : List (Part α)} {out : Shape} (hformula : op.hasFormula = true) (hproper : op.Proper)
    (hinputs : Forall₂ (fun node part => F.Gives e.graph node part.1 part.2) inputs parts)
    (hinfer : op.infer (parts.map Prod.fst) [] = .ok out)
    (hfits : Exact F.val → F.sure → ∀ tensors ts,
      Forall₂ (fun part t => part.Fits tensors t) parts ts → op.Fits out.lens ts)
    (hproperty : Exact F.val → ∀ tensors ts t,
      Forall₂ (fun part t => part.Fits tensors t) parts ts →
        t.Holds out (op.formula out.lens (ts.map Tensor.reading)) → property tensors t) :
    Emits e (Emit.add op inputs []) fun node g => F.Gives g node out property := by
  have hshapes : e.graph.shapes inputs = .ok (parts.map Prod.fst) := by
    rw [Graph.shapes, mapM_eq_ok_iff, forall₂_map_right_iff]
    apply hinputs.imp
    intro node part hgives
    exact hgives.1
  have hop : op.isParameter = false := by cases op <;> first | rfl | cases hformula
  apply (Emits.add hshapes hinfer).mono
  intro node g hextends hfound
  refine ⟨shape_of_find? hfound, ?_⟩
  intro h run bindings tensors hgrown hsupplies
  have hproduces : Forall₂ (Produces run h bindings F.sure) inputs
      (parts.map fun part t => part.Fits tensors t) := by
    rw [forall₂_map_right_iff]
    apply hinputs.imp
    intro input part hgives
    exact hgives.2 (hextends.trans hgrown) hsupplies
  apply Produces.apply (hgrown hfound) hop rfl hproduces
  intro ts hts
  rw [forall₂_map_left_iff] at hts
  have hvalid : ∀ t ∈ ts, t.Valid := by
    intro t ht
    obtain ⟨part, -, hpart⟩ := exists_mem_right_of_forall₂ hts.flip ht
    exact hpart.2.1
  have hshapes : Tensor.shapes ts = parts.map Prod.fst := by
    rw [Tensor.shapes_eq_map, ← forall₂_eq_eq_eq, forall₂_map_left_iff,
      forall₂_map_right_iff]
    apply hts.flip.imp
    intro t part hpart
    exact hpart.1
  rw [← hshapes] at hinfer
  have hfollows := Operator.followsFormula_of_infer [] hformula hproper hvalid hinfer
  constructor
  · intro t happly
    obtain ⟨out', hinfer', hrun⟩ := Operator.apply_eq_ok_iff.1 happly
    cases hinfer.symm.trans hinfer'
    have hholds := hfollows.holds hrun
    exact ⟨hholds.shape_eq, hholds.valid, hproperty hsupplies.exact tensors ts t hts hholds⟩
  · intro hmet
    obtain ⟨t, hrun⟩ := hfollows.exists_iff.2 (hfits hsupplies.exact hmet tensors ts hts)
    exact ⟨t, Operator.apply_eq_ok_iff.2 ⟨out, hinfer, hrun⟩⟩

/-- The same for two inputs. -/
theorem gives_add_two {e : Emission α} (op : Operator α) {first second : NodeId}
    {part part' : Part α} {out : Shape} (hformula : op.hasFormula = true) (hproper : op.Proper)
    (hfirst : F.Gives e.graph first part.1 part.2)
    (hsecond : F.Gives e.graph second part'.1 part'.2)
    (hinfer : op.infer [part.1, part'.1] [] = .ok out)
    (hfits : Exact F.val → F.sure → ∀ tensors t u, part.Fits tensors t → part'.Fits tensors u →
      op.Fits out.lens [t, u])
    (hproperty : Exact F.val → ∀ tensors t u v, part.Fits tensors t → part'.Fits tensors u →
      v.Holds out (op.formula out.lens [t.reading, u.reading]) → property tensors v) :
    Emits e (Emit.add op [first, second] []) fun node g => F.Gives g node out property := by
  have hpair : ∀ {tensors ts}, Forall₂ (fun part t => part.Fits tensors t) [part, part'] ts →
      ∃ t u, ts = [t, u] ∧ part.Fits tensors t ∧ part'.Fits tensors u := by
    intro tensors ts hts
    obtain ⟨t, rest, ht, hrest, rfl⟩ := forall₂_cons_left_iff.1 hts
    obtain ⟨u, rfl, hu⟩ := exists_of_forall₂_one hrest
    exact ⟨t, u, rfl, ht, hu⟩
  have hinputs : Forall₂ (fun node (part : Part α) => F.Gives e.graph node part.1 part.2)
      [first, second] [part, part'] := .cons hfirst (.cons hsecond .nil)
  apply gives_add hformula hproper hinputs hinfer
  · intro hexact hmet tensors ts hts
    obtain ⟨t, u, rfl, ht, hu⟩ := hpair hts
    exact hfits hexact hmet tensors t u ht hu
  · intro hexact tensors ts v hts hholds
    obtain ⟨t, u, rfl, ht, hu⟩ := hpair hts
    exact hproperty hexact tensors t u v ht hu hholds

theorem gives_literal {e : Emission α} {value : Tensor α} (hvalid : value.Valid) :
    Emits e (Emit.literal value) fun node g =>
      F.Gives g node value.shape fun _ t => t = value := by
  apply (Emits.literal value).mono
  intro node g _ hfound
  refine ⟨shape_of_find? hfound, ?_⟩
  intro h run bindings tensors hgrown hsupplies
  have hyields : Yields run h bindings node value := by
    have hnone : Forall₂ (Yields run h bindings) [] [] := .nil
    obtain ⟨hlength, hargs⟩ := forall₂_iff_zip.1 hnone
    exact .apply (hgrown hfound) rfl hlength hargs rfl
  exact hyields.produces ⟨rfl, hvalid, rfl⟩

/-! ## Nodes that hold functions of points -/

/-- Every column has a value below its length. -/
def Bounded (F : Frame α R) (point : Nat → Nat) : Prop := ∀ column, point column < F.len column

/-- A node with this layout holds, at the place of a point, this function of the operands and of the
point. -/
structure Means (F : Frame α R) (g : Graph α) (node : NodeId) (axes : Layout)
    (place : (Nat → Nat) → List Nat) (f : List (Tensor α) → (Nat → Nat) → R) : Prop where
  inRange : ∀ {point}, F.Bounded point → InRange (place point) axes.lens
  gives : F.Gives g node (.strided F.elem axes) fun tensors t =>
    ∀ point, F.Bounded point → F.val (t.entry (place point)) = f tensors point

/-- The same for a node with these lengths, whatever its strides. -/
def Located (F : Frame α R) (g : Graph α) (node : NodeId) (lens : List Nat)
    (place : (Nat → Nat) → List Nat) (f : List (Tensor α) → (Nat → Nat) → R) : Prop :=
  ∃ axes : Layout, axes.lens = lens ∧ F.Means g node axes place f

/-- Lengths that make no trouble: the product of those that are not zero fits into a signed word, and
where values are sure to be computed, memory can address so many entries. -/
structure Roomy (F : Frame α R) (lens : List Nat) : Prop where
  fits : bulk lens < Word.signedLimit
  room : F.sure → bulk lens ≤ largestListing

theorem Roomy.lt_limit {lens : List Nat} (hroomy : F.Roomy lens) : bulk lens < Word.limit :=
  hroomy.fits.trans Word.signedLimit_lt

theorem Roomy.le_listing {lens : List Nat} (hroomy : F.Roomy lens) (hmet : F.sure) :
    volume lens ≤ largestListing :=
  (volume_le_bulk lens).trans (hroomy.room hmet)

theorem Roomy.le_buffer {lens : List Nat} (hroomy : F.Roomy lens) (hmet : F.sure) :
    volume lens ≤ Tensor.largestBuffer :=
  (hroomy.le_listing hmet).trans (by decide)

/-- Lengths that make up no more are as good. -/
theorem Roomy.of_le {lens lens' : List Nat} (hroomy : F.Roomy lens)
    (hle : bulk lens' ≤ bulk lens) : F.Roomy lens' :=
  ⟨hle.trans_lt hroomy.fits, fun hmet => hle.trans (hroomy.room hmet)⟩

variable {e : Emission α} {g h : Graph α} {node : NodeId} {axes : Layout} {lens lens' : List Nat}
  {place place' : (Nat → Nat) → List Nat} {f f' : List (Tensor α) → (Nat → Nat) → R}

theorem Means.mono (hmeans : F.Means g node axes place f) (hextends : g.Extends h) :
    F.Means h node axes place f :=
  ⟨hmeans.inRange, hmeans.gives.mono hextends⟩

theorem Located.mono (hlocated : F.Located g node lens place f) (hextends : g.Extends h) :
    F.Located h node lens place f := by
  obtain ⟨axes, hlens, hmeans⟩ := hlocated
  exact ⟨axes, hlens, hmeans.mono hextends⟩

theorem emits_located (hlens : axes.lens = lens)
    (hemits : Emits e emission fun node g => F.Means g node axes place f) :
    Emits e emission fun node g => F.Located g node lens place f :=
  hemits.mono fun _ _ _ hmeans => ⟨axes, hlens, hmeans⟩

/-- What a node with a standard layout gives is located there. -/
theorem emits_located_of_gives (hrange : ∀ {point}, F.Bounded point → InRange (place point) lens)
    (hemits : Emits e emission fun node g =>
      F.Gives g node (.strided F.elem (Layout.rowMajor lens)) fun tensors t =>
        ∀ point, F.Bounded point → F.val (t.entry (place point)) = f tensors point) :
    Emits e emission fun node g => F.Located g node lens place f := by
  apply hemits.mono
  intro node g _ hgives
  refine ⟨_, lens_rowMajor lens, fun hpoint => ?_, hgives⟩
  rw [lens_rowMajor]
  exact hrange hpoint

theorem Means.congr (hmeans : F.Means g node axes place f)
    (hplace : ∀ point, F.Bounded point → place' point = place point)
    (hf : ∀ tensors point, F.Bounded point → f' tensors point = f tensors point) :
    F.Means g node axes place' f' := by
  constructor
  · intro point hpoint
    rw [hplace point hpoint]
    exact hmeans.inRange hpoint
  · apply hmeans.gives.imp
    intro tensors t _ hvalues point hpoint
    rw [hplace point hpoint, hf tensors point hpoint]
    exact hvalues point hpoint

theorem Located.congr (hlocated : F.Located g node lens place f)
    (hplace : ∀ point, F.Bounded point → place' point = place point)
    (hf : ∀ tensors point, F.Bounded point → f' tensors point = f tensors point) :
    F.Located g node lens place' f' := by
  obtain ⟨axes, hlens, hmeans⟩ := hlocated
  exact ⟨axes, hlens, hmeans.congr hplace hf⟩

/-- What a node holds is what is read there. -/
theorem val_reading {t : Tensor α} (hshape : t.shape = .strided F.elem axes)
    (hrange : ∀ {point}, F.Bounded point → InRange (place point) axes.lens) {k : (Nat → Nat) → R}
    (hvalues : ∀ point, F.Bounded point → F.val (t.entry (place point)) = k point) {point : Nat → Nat}
    (hpoint : F.Bounded point) : F.val (t.reading.value (place point)) = k point := by
  rw [Tensor.value_reading, hvalues point hpoint]
  rw [Tensor.lens_of_shape hshape]
  exact hrange hpoint

/-- The rule of an operator with one input. Its formula changes what is held by `change`. -/
theorem Means.add (hmeans : F.Means e.graph node axes place f) (op : Operator α) {out : Layout}
    (change : ((Nat → Nat) → R) → (Nat → Nat) → R) (hformula : op.hasFormula = true)
    (hproper : op.Proper)
    (hinfer : op.infer [.strided F.elem axes] [] = .ok (.strided F.elem out))
    (hfits : F.sure → ∀ t, t.shape = .strided F.elem axes → op.Fits out.lens [t])
    (hrange : ∀ {point}, F.Bounded point → InRange (place' point) out.lens)
    (hentry : Exact F.val → ∀ (r : Reading α) (k : (Nat → Nat) → R), r.lens = axes.lens →
      (∀ {point}, F.Bounded point → F.val (r.value (place point)) = k point) →
      ∀ {point}, F.Bounded point →
        F.val (op.formula out.lens [r] (place' point)) = change k point) :
    Emits e (Emit.add op [node] []) fun node g =>
      F.Means g node out place' fun tensors => change (f tensors) := by
  have hinputs : Forall₂ (fun node (part : Part α) => F.Gives e.graph node part.1 part.2)
      [node] [(.strided F.elem axes, fun tensors t =>
        ∀ point, F.Bounded point → F.val (t.entry (place point)) = f tensors point)] :=
    .cons hmeans.gives .nil
  refine (gives_add hformula hproper hinputs hinfer ?_ ?_).mono fun _ _ _ hgives => ⟨hrange, hgives⟩
  · intro _ hmet tensors ts hts
    obtain ⟨t, rfl, ht⟩ := exists_of_forall₂_one hts
    exact hfits hmet t ht.1
  · intro hexact tensors ts u hts hholds point hpoint
    obtain ⟨t, rfl, ht⟩ := exists_of_forall₂_one hts
    rw [hholds.entry_eq _ (hrange hpoint)]
    exact hentry hexact t.reading (f tensors) (Tensor.lens_of_shape ht.1)
      (fun hpoint => val_reading ht.1 hmeans.inRange ht.2.2 hpoint) hpoint

/-! ## Movements -/

omit [Scalar α] in
theorem emits_lensOf_bind {next : List Nat → Emit α β} {property : β → Graph α → Prop}
    (hshape : e.graph.shape node = .ok shape) (hnext : Emits e (next shape.lens) property) :
    Emits e (lensOf node >>= next) property := by
  refine .read_bind ?_ hnext
  rw [lensOf]
  exact stateBind_eq_ok_iff.2 ⟨e.graph, e, rfl,
    stateBind_eq_ok_iff.2 ⟨shape, e, by rw [hshape]; rfl, rfl⟩⟩

section Movements

variable (hlocated : F.Located e.graph node lens place f)

include hlocated

theorem emits_contiguous (hroomy : F.Roomy lens) :
    Emits e (emitContiguous node) fun node g =>
      F.Means g node (Layout.rowMajor lens) place f := by
  obtain ⟨axes, rfl, hmeans⟩ := hlocated
  apply Emits.graph_bind
  apply Emits.checked_bind hmeans.gives.1
  apply Emits.checked_bind (isStandard_of_bulk hroomy.lt_limit)
  by_cases hstandard : axes = Layout.rowMajor axes.lens
  · rw [decide_eq_true hstandard, if_pos rfl, ← hstandard]
    exact .pure hmeans
  · rw [decide_eq_false hstandard, if_neg Bool.false_ne_true]
    apply hmeans.add .contiguous (fun k => k) rfl trivial
      (Operator.contiguousShape_iff.2 ⟨_, rfl, rfl, Shape.standard_of_bulk _ hroomy.lt_limit⟩)
    · intro hmet t _
      rw [lens_rowMajor]
      exact .inr (hroomy.le_listing hmet)
    · intro point hpoint
      rw [lens_rowMajor]
      exact hmeans.inRange hpoint
    · intro _ r k _ hvalues point hpoint
      exact hvalues hpoint

theorem Located.lensOf_bind {next : List Nat → Emit α β} {property : β → Graph α → Prop}
    (hnext : Emits e (next lens) property) : Emits e (lensOf node >>= next) property := by
  obtain ⟨axes, rfl, hmeans⟩ := hlocated
  exact emits_lensOf_bind hmeans.gives.1 hnext

/-- Other lengths, under which places keep their row-major positions. -/
theorem emits_reshape (hroomy : F.Roomy lens) (hroomy' : F.Roomy lens') (hzeros : OwnZeros lens lens')
    (hvolume : volume lens' = volume lens)
    (hplace : ∀ {point}, F.Bounded point → InRange (place' point) lens' ∧
      (Layout.rowMajor lens').position (place' point) =
        (Layout.rowMajor lens).position (place point)) :
    Emits e (emitReshape node lens') fun node g => F.Located g node lens' place' f := by
  apply (emits_contiguous hlocated hroomy).bind
  intro node e _ hmeans
  have hrange : ∀ {point}, F.Bounded point → InRange (place point) lens := by
    intro point hpoint
    rw [← lens_rowMajor lens]
    exact hmeans.inRange hpoint
  apply emits_lensOf_bind hmeans.gives.1
  rw [Shape.lens_strided, lens_rowMajor]
  by_cases hsame : lens = lens'
  · subst hsame
    rw [if_pos rfl]
    refine .pure ⟨_, lens_rowMajor lens, hmeans.congr ?_ fun _ _ _ => rfl⟩
    intro point hpoint
    exact position_rowMajor_injective (hplace hpoint).1 (hrange hpoint) (hplace hpoint).2
  · rw [if_neg hsame]
    apply emits_located (lens_rowMajor lens')
    apply hmeans.add (.reshape (lens'.map Word.toSigned)) (fun k => k) rfl trivial
      (reshapeShape_of_bulk hzeros hroomy.fits hroomy'.fits hvolume)
    · intro _ t _
      trivial
    · intro point hpoint
      rw [lens_rowMajor]
      exact (hplace hpoint).1
    · intro _ r k hlens hvalues point hpoint
      show F.val (r.value (unflatten r.lens _)) = _
      rw [hlens, lens_rowMajor, lens_rowMajor, (hplace hpoint).2,
        unflatten_position (hrange hpoint)]
      exact hvalues hpoint

/-- Axes in another order. -/
theorem emits_transpose {order : List Nat}
    (hperm : Permutation.isPermutation order = true) (hlength : order.length = lens.length)
    (hlens : Permutation.reorder lens order = .ok lens')
    (hplace : ∀ {point}, F.Bounded point →
      Permutation.reorder (place point) order = .ok (place' point)) :
    Emits e (emitTranspose node order) fun node g => F.Located g node lens' place' f := by
  unfold emitTranspose
  by_cases hidentity : Permutation.isIdentity order = true
  · rw [if_pos hidentity]
    rw [Permutation.isIdentity, beq_iff_eq, hlength] at hidentity
    rw [hidentity, Permutation.reorder_range] at hlens
    cases hlens
    refine .pure (hlocated.congr ?_ fun _ _ _ => rfl)
    intro point hpoint
    obtain ⟨axes, rfl, hmeans⟩ := hlocated
    have hmoved := hplace hpoint
    rw [hidentity, ← (hmeans.inRange hpoint).length_eq, Permutation.reorder_range] at hmoved
    exact (Except.ok.inj hmoved).symm
  · rw [if_neg hidentity]
    obtain ⟨axes, rfl, hmeans⟩ := hlocated
    rw [length_lens] at hlength
    obtain ⟨moved, hinfer, hmoved⟩ := exists_transposeShape hperm hlength
    cases hmoved.symm.trans hlens
    apply emits_located (Eq.refl moved.lens)
    apply hmeans.add (.transpose order) (fun k => k) rfl trivial hinfer
    · intro _ t _
      trivial
    · intro point hpoint
      exact inRange_reorder (hmeans.inRange hpoint) (hplace hpoint) hlens
    · intro _ r k _ hvalues point hpoint
      show F.val (r.value (unpermute order (place' point))) = _
      rw [unpermute_of_reorder hperm _ (hplace hpoint)]
      · exact hvalues hpoint
      · rw [hlength, (hmeans.inRange hpoint).length_eq, length_lens]

/-- Axes of length one come last. -/
theorem emits_unsqueeze {rank : Nat} (hrank : lens.length ≤ rank) :
    Emits e (emitUnsqueeze node rank) fun node g =>
      F.Located g node (lens ++ List.replicate (rank - lens.length) 1)
        (fun point => place point ++ List.replicate (rank - lens.length) 0) f := by
  obtain ⟨axes, rfl, hmeans⟩ := hlocated
  rw [length_lens] at hrank ⊢
  apply Emits.graph_bind
  apply Emits.checked_bind hmeans.gives.1
  rw [Shape.rank_strided]
  by_cases hfull : rank ≤ axes.length
  · rw [if_pos hfull, Nat.sub_eq_zero_of_le hfull, replicate_zero, append_nil]
    refine .pure ⟨axes, rfl, hmeans.congr ?_ fun _ _ _ => rfl⟩
    intro point _
    rw [replicate_zero, append_nil]
  · rw [if_neg hfull]
    have hlens : Layout.lens (axes ++ List.replicate (rank - axes.length) ⟨1, 1⟩) =
        axes.lens ++ List.replicate (rank - axes.length) 1 := by
      rw [Layout.lens, map_append, map_replicate]
      rfl
    apply emits_located hlens
    apply hmeans.add (.unsqueeze (List.range' axes.length (rank - axes.length))) (fun k => k) rfl
      trivial (unsqueezeShape_after (rank - axes.length))
    · intro _ t _
      trivial
    · intro point hpoint
      rw [hlens]
      apply rel_append (hmeans.inRange hpoint)
      rw [forall₂_iff_get]
      simp
    · intro _ r k hr hvalues point hpoint
      have hlength : (place point).length = axes.length := by
        rw [(hmeans.inRange hpoint).length_eq, length_lens]
      have hdrop := @dropAt_after (List.range' axes.length (rank - axes.length)) Nat
        (place point) (List.replicate (rank - axes.length) 0) (by rw [hlength, length_replicate])
      rw [hlength, length_replicate] at hdrop
      show F.val (r.value (dropAt _ (List.range (r.lens.length +
        (List.range' axes.length (rank - axes.length)).length)) _)) = _
      rw [hr, length_lens, length_range', hdrop]
      exact hvalues hpoint

/-- Axes of length one are repeated. -/
theorem emits_broadcast (hlens : Forall₂ (fun len len' => len = len' ∨ len = 1) lens lens')
    (hplace : ∀ {point}, F.Bounded point → InRange (place' point) lens' ∧
      List.zipWith (fun len i => if len = 1 then 0 else i) lens (place' point) = place point) :
    Emits e (emitBroadcast node lens') fun node g => F.Located g node lens' place' f := by
  apply hlocated.lensOf_bind
  by_cases hsame : lens = lens'
  · subst hsame
    rw [if_pos rfl]
    refine .pure (hlocated.congr ?_ fun _ _ _ => rfl)
    intro point hpoint
    rw [← (hplace hpoint).2, zipWith_unit_of_inRange (hplace hpoint).1]
  · rw [if_neg hsame]
    obtain ⟨axes, rfl, hmeans⟩ := hlocated
    obtain ⟨inner, hinfer, rfl⟩ := broadcastShape_of_spreads hlens
    apply emits_located (Eq.refl inner.lens)
    apply hmeans.add (.broadcast inner.lens) (fun k => k) rfl trivial hinfer
    · intro _ t _
      trivial
    · intro point hpoint
      exact (hplace hpoint).1
    · intro _ r k hr hvalues point hpoint
      show F.val (r.value (broadcastSource r.lens (place' point))) = _
      rw [broadcastSource, hr, (hplace hpoint).1.length_eq, hlens.length_eq, Nat.sub_self,
        drop_zero, (hplace hpoint).2]
      exact hvalues hpoint

end Movements

/-- Axes of length one that come last are dropped. -/
theorem emits_squeeze {count : Nat} (hcount : 0 < count)
    (hlocated : F.Located e.graph node (lens ++ List.replicate count 1)
      (fun point => place point ++ List.replicate count 0) f)
    (hrange : ∀ {point}, F.Bounded point → InRange (place point) lens) :
    Emits e (Emit.add (.squeeze (List.range' lens.length count)) [node] []) fun node g =>
      F.Located g node lens place f := by
  obtain ⟨axes, hlens, hmeans⟩ := hlocated
  have hnonempty : List.range' lens.length count ≠ [] := by
    rw [ne_eq, range'_eq_nil_iff]
    omega
  have hunits : ∀ axis ∈ List.range' lens.length count, axes.lens[axis]? = some 1 := by
    intro axis haxis
    rw [mem_range'_1] at haxis
    rw [hlens, getElem?_append_right haxis.1, getElem?_replicate, if_pos (by omega)]
  have hrank : axes.length = lens.length + count := by
    rw [← length_lens, hlens, length_append, length_replicate]
  have hkept : (axes.zipIdx.filter fun entry =>
      !(List.range' lens.length count).contains entry.2).map Prod.fst = axes.take lens.length := by
    have hlength : (axes.take lens.length).length = lens.length := by
      rw [length_take, hrank]
      omega
    have hlength' : (axes.drop lens.length).length = count := by
      rw [length_drop, hrank]
      omega
    have hdrop := @dropAt_after (List.range' lens.length count) Axis (axes.take lens.length)
      (axes.drop lens.length) (by rw [hlength, hlength'])
    rw [hlength, hlength', ← hrank, take_append_drop] at hdrop
    rw [← dropAt_eq_filter, ← range_eq_range', hdrop]
  have hout : Layout.lens (axes.take lens.length) = lens := by
    rw [Layout.lens, map_take]
    show axes.lens.take lens.length = lens
    rw [hlens, take_left]
  have hinfer := @Inference.squeezeShape_of_units
    (Operator.squeeze (List.range' lens.length count) : Operator α).name F.elem axes _ hnonempty
    hunits
  rw [hkept] at hinfer
  apply emits_located hout
  apply hmeans.add (.squeeze (List.range' lens.length count)) (fun k => k) rfl trivial hinfer
  · intro _ t _
    trivial
  · intro point hpoint
    rw [hout]
    exact hrange hpoint
  · intro _ r k hr hvalues point hpoint
    have hremoved : squeezedAxes r.shape (List.range' lens.length count) =
        List.range' lens.length count := by
      rw [squeezedAxes, if_neg (by rw [List.isEmpty_iff]; exact hnonempty)]
    show F.val (r.value (restoreAt (squeezedAxes r.shape _) _ _)) = _
    have hlength := (hrange hpoint).length_eq
    rw [hremoved, hr, length_lens, hrank, ← hlength, restoreAt_after]
    exact hvalues hpoint

end Frame

end TensorGraph.Einsum
