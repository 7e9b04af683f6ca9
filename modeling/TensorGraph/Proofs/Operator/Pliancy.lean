import TensorGraph.Proofs.Operator.Acceptance
import TensorGraph.Proofs.Operator.AxisOrders
import TensorGraph.Proofs.Operator.Peers

/-!
# Operators that take every layout

Every operator but reshaping and inserting axes accepts its arguments in any layout, as long as its result
is not empty.
-/

namespace TensorGraph

open Inference List

variable {elem : ElementType} {axes : Layout} {axis : Int} {view : Shape → Shape}

namespace Inference

/-- Reduced axes have length one, so reducing leaves no length of zero where there was none. -/
theorem notMem_foldl_set {lens : List Nat} (reduced : List Nat) (hpos : 0 ∉ lens) :
    0 ∉ reduced.foldl (fun lens axis => lens.set axis 1) lens := by
  induction reduced generalizing lens with
  | nil => exact hpos
  | cons axis reduced ih =>
    refine ih fun hzero => ?_
    rcases mem_or_eq_of_mem_set hzero with hinside | hone
    · exact hpos hinside
    · cases hone

/-! ## Dense results -/

theorem exists_unaryShape (op : String) (elem : ElementType) {n : Nat}
    (hspace : axes.space = .ok n) (hpos : 0 ∉ axes.lens) (hfits : volume axes.lens < Word.limit) :
    ∃ out, unaryShape op [.strided elem axes] = .ok out := by
  obtain ⟨dense, hdense⟩ := Shape.exists_permuted elem
    (by simpa using axes.axisOrder_perm : (Shape.strided elem axes).axisOrder.Perm _) hpos hfits
  have hstandard : (Shape.strided elem axes).asStandard =
      .ok (.strided elem (Layout.rowMajor axes.lens)) :=
    bind_eq_ok_iff.2 ⟨_, Layout.standard_of_pos hpos hfits, rfl⟩
  have hpacked : (Shape.strided elem axes).isPacked = .ok (volume axes.lens == n) := by
    rw [Shape.isPacked, Layout.isPacked, Layout.elements, Word.product_of_pos hpos hfits, hspace]
    rfl
  change ∃ out, (liftM (Shape.strided elem axes).isPacked >>= fun packed =>
    if packed then liftM ((Shape.strided elem axes).withLens axes.lens)
    else liftM (Shape.strided elem axes).asStandard : Outcome ShapeError Shape) = .ok out
  rw [Outcome.lift_eq_ok_iff.2 hpacked, ok_bind]
  split_ifs
  · exact ⟨dense, Outcome.lift_eq_ok_iff.2 hdense⟩
  · exact ⟨_, Outcome.lift_eq_ok_iff.2 hstandard⟩

section Dense

variable {op : String} {lens : List Nat} (hpos : 0 ∉ lens) (hfits : volume lens < Word.limit)

include hpos hfits

theorem exists_elementwiseShape {elem : ElementType} {shapes : List Shape} (hne : shapes ≠ [])
    (hshapes : ∀ s ∈ shapes, ∃ axes, s = .strided elem axes ∧ axes.lens = lens) :
    ∃ out, elementwiseShape op shapes = .ok out := by
  have hperm : (Shape.commonAxisOrder shapes).Perm (List.range lens.length) := by
    refine Shape.commonAxisOrder_perm hne fun s hmem => ?_
    obtain ⟨own, hshape, hown⟩ := hshapes s hmem
    exact ⟨elem, own, hshape, by rw [← hown, Layout.length_lens]⟩
  obtain ⟨out, hout⟩ := Shape.exists_permuted elem hperm hpos hfits
  rw [elementwiseShape_of_strided hne hshapes]
  exact ⟨out, Outcome.lift_eq_ok_iff.2 hout⟩

theorem exists_concatShape {place : Nat} {inputs : List Shape}
    (hjoin : joinLens op inputs axis = .ok (place, lens))
    (helems : allEqual (inputs.map Shape.elem) = true) :
    ∃ out, concatShape op axis inputs = .ok out := by
  obtain ⟨first, rest, rfl, hstrided, -, hagree, -, hlens⟩ := joinLens_eq_ok_iff.1 hjoin
  have hperm : (Shape.commonAxisOrder (first :: rest)).Perm (List.range lens.length) := by
    refine Shape.commonAxisOrder_perm (cons_ne_nil _ _) fun s hmem => ?_
    obtain ⟨elem, axes, rfl⟩ := hstrided s hmem
    refine ⟨elem, axes, rfl, ?_⟩
    rw [hlens, length_set, ← (hagree _ hmem).1, Shape.lens_strided, Layout.length_lens]
  obtain ⟨out, hout⟩ := Shape.exists_permuted first.elem hperm hpos hfits
  refine ⟨out, ?_⟩
  rw [concatShape, helems, Bool.not_true, if_neg Bool.false_ne_true, hjoin, ok_bind]
  exact Outcome.lift_eq_ok_iff.2 hout

end Dense

end Inference

variable {α : Type} {lens : List Nat} {modules : List (Callable α)}

/-! ## Values that are not empty -/

/-- No part of the tensor is empty. -/
inductive Tensor.Filled : Tensor α → Prop
  | strided {elem : ElementType} {axes : Layout} {data : Array α} (hpos : 0 ∉ axes.lens) :
      Filled (.strided elem axes data)
  | tuple {parts : List (Tensor α)} (hparts : ∀ part ∈ parts, Filled part) : Filled (.tuple parts)

theorem Tensor.filled_iff_of_shape {t : Tensor α}
    (hshape : t.shape = .strided elem axes) : t.Filled ↔ 0 ∉ axes.lens := by
  rw [Tensor.eq_strided_of_shape hshape]
  constructor
  · rintro ⟨hpos⟩
    exact hpos
  · exact .strided

theorem Tensor.filled_iff_of_dense {t : Tensor α}
    (hdense : t.shape.IsDense elem lens) : t.Filled ↔ 0 ∉ lens := by
  obtain ⟨axes, hshape, rfl, -⟩ := hdense
  exact Tensor.filled_iff_of_shape hshape

theorem Tensor.volume_lt_of_dense {t : Tensor α} (hvalid : t.Valid)
    (hdense : t.shape.IsDense elem lens) : volume lens < Word.limit := by
  obtain ⟨axes, hshape, rfl, hdense⟩ := hdense
  rw [Tensor.eq_strided_of_shape hshape] at hvalid
  obtain ⟨n, hspace, -⟩ := hvalid.exists_space
  rw [← hdense.space_eq_volume hspace]
  exact Layout.space_lt hspace

variable [Scalar α]

namespace Operator

/-! ## Arguments in every layout -/

/-- Whether the operator takes its arguments in every layout. -/
def isPliant : Operator α → Bool
  | .reshape _ | .unsqueeze _ => false
  | _ => true

omit [Scalar α] in
theorem static_of_shapes {inputs : List (Tensor α)}
    (hstatic : ∀ a : Tensor α, (view a.shape).isDynamic = false) :
    ∀ s ∈ (Tensor.shapes inputs).map view, s.isDynamic = false := by
  rw [Tensor.shapes_eq_map, map_map]
  exact forall_mem_map.2 fun a _ => hstatic a

section Peers

variable {inputs others : List (Tensor α)} (hpeers : Forall₂ Tensor.Peer inputs others)
  {t : Tensor α} {op : String}

include hpeers

theorem exists_strided_of_peers_one {a : Tensor α} (heq : inputs = [a]) {elem : ElementType}
    (hshape : a.shape = .strided elem axes) :
    ∃ axes' n, Tensor.shapes others = [.strided elem axes'] ∧ axes'.lens = axes.lens ∧
      axes'.space = .ok n := by
  subst heq
  obtain ⟨b, rfl, hpeer⟩ := exists_of_forall₂_one hpeers
  obtain ⟨axes', hshape', hlens⟩ := Shape.exists_strided_of_form_eq (hshape ▸ hpeer.form_eq)
  have hvalid := hpeer.symm.valid
  rw [Tensor.eq_strided_of_shape hshape'] at hvalid
  obtain ⟨n, hspace, -⟩ := hvalid.exists_space
  exact ⟨axes', n, by rw [Tensor.shapes, Tensor.shapes, hshape'], hlens, hspace⟩

theorem forms_eq_of_peers :
    (Tensor.shapes others).map Shape.form = (Tensor.shapes inputs).map Shape.form := by
  rw [← forall₂_eq_eq_eq, forall₂_map_left_iff, forall₂_map_right_iff]
  exact (Tensor.forall₂_form Tensor.Peer.form_eq hpeers).flip

/-- Elementwise inference accepts the layouts of peers. -/
theorem exists_elementwise_of_peers
    (hview : ∀ {s s' : Shape}, s'.form = s.form → (view s').form = (view s).form)
    (hstatic : ∀ a : Tensor α, (view a.shape).isDynamic = false) (hvalid : t.Valid)
    (hfilled : t.Filled)
    (hinfer : elementwiseShape op ((Tensor.shapes inputs).map view) = .ok t.shape) :
    ∃ out', elementwiseShape op ((Tensor.shapes others).map view) = .ok out' := by
  obtain ⟨first, rest, hinputs, hstrided, hdense⟩ :=
    elementwiseShape_static (static_of_shapes hstatic) hinfer
  have hforms : Forall₂ (fun s s' : Shape => s'.form = s.form)
      ((Tensor.shapes inputs).map view) ((Tensor.shapes others).map view) := by
    rw [forall₂_map_left_iff, forall₂_map_right_iff]
    exact (Tensor.forall₂_form Tensor.Peer.form_eq hpeers).imp fun _ _ => hview
  have hothers : ∀ s' ∈ (Tensor.shapes others).map view,
      ∃ axes, s' = .strided first.elem axes ∧ axes.lens = first.lens := by
    intro s' hmem
    obtain ⟨s, hs, hform⟩ := exists_mem_right_of_forall₂ hforms.flip hmem
    obtain ⟨own, rfl, hown⟩ := hstrided s hs
    obtain ⟨own', rfl, hown'⟩ := Shape.exists_strided_of_form_eq hform
    exact ⟨own', rfl, hown'.trans hown⟩
  refine exists_elementwiseShape ((Tensor.filled_iff_of_dense hdense).1 hfilled)
    (Tensor.volume_lt_of_dense hvalid hdense) (fun hnone => ?_) hothers
  rw [hinputs, hnone] at hforms
  cases hforms

/-- So does inference for a join. -/
theorem exists_concat_of_peers (hvalid : t.Valid) (hfilled : t.Filled)
    (hinfer : concatShape op axis (Tensor.shapes inputs) = .ok t.shape) :
    ∃ out', concatShape op axis (Tensor.shapes others) = .ok out' := by
  obtain ⟨first, rest, place, lens, hinputs, helems, hjoin, hdense⟩ :=
    concatShape_eq_ok hinfer
  obtain ⟨_, _, -, hstrided, -⟩ := joinLens_eq_ok_iff.1 hjoin
  have hforms := Tensor.forall₂_form Tensor.Peer.form_eq hpeers
  have hjoin' : joinLens op (Tensor.shapes others) axis = .ok (place, lens) := by
    refine joinLens_of_lens op ?_ hjoin
    refine forall₂_imp_mem hforms fun s hmem s' hform => ?_
    obtain ⟨elem, axes, rfl⟩ := hstrided s hmem
    obtain ⟨axes', rfl, hlens⟩ := Shape.exists_strided_of_form_eq hform
    exact ⟨hlens, elem, axes', rfl⟩
  have helems' : allEqual ((Tensor.shapes others).map Shape.elem) = true := by
    have hsame := congrArg (List.map Shape.elem) (forms_eq_of_peers hpeers)
    simp only [map_map, Function.comp_def, Shape.elem_form] at hsame
    rw [hsame, hinputs, map_cons, allEqual]
    simpa using helems
  exact exists_concatShape ((Tensor.filled_iff_of_dense hdense).1 hfilled)
    (Tensor.volume_lt_of_dense hvalid hdense) hjoin' helems'

/-- One packed operand keeps its axis order, and whether it is packed can be found out. -/
theorem exists_unary_of_peers (hvalid : t.Valid) (hfilled : t.Filled)
    (hinfer : unaryShape op (Tensor.shapes inputs) = .ok t.shape) :
    ∃ out', unaryShape op (Tensor.shapes others) = .ok out' := by
  obtain ⟨a, elem, axes, heq, hshape, hdense⟩ := unaryShape_static hinfer
  obtain ⟨axes', n, hs', hlens, hspace⟩ := exists_strided_of_peers_one hpeers heq hshape
  rw [← hlens] at hdense
  rw [hs']
  exact exists_unaryShape _ elem hspace ((Tensor.filled_iff_of_dense hdense).1 hfilled)
    (Tensor.volume_lt_of_dense hvalid hdense)

theorem exists_binary_of_peers (hvalid : t.Valid) (hfilled : t.Filled)
    (hinfer : binaryShape op (Tensor.shapes inputs) = .ok t.shape) :
    ∃ out', binaryShape op (Tensor.shapes others) = .ok out' := by
  obtain ⟨s, s', hs, hself⟩ := binaryShape_eq_ok hinfer
  rw [← hs, ← map_id (Tensor.shapes inputs)] at hself
  have hview {s s' : Shape} (hform : s'.form = s.form) : (id s').form = (id s).form := hform
  have hstatic (a : Tensor α) : (id a.shape).isDynamic = false := a.isDynamic_shape
  obtain ⟨out', hout'⟩ := exists_elementwise_of_peers hpeers hview hstatic hvalid hfilled hself
  rw [map_id] at hout'
  have hlength := (Tensor.forall₂_form Tensor.Peer.form_eq hpeers).length_eq
  rw [hs] at hlength
  obtain ⟨b, b', hothers⟩ := length_eq_two.1 hlength.symm
  rw [hothers] at hout' ⊢
  exact ⟨out', hout'⟩

theorem exists_pointwise_of_peers {signatures : List Signature} (hvalid : t.Valid)
    (hfilled : t.Filled)
    (hinfer : pointwiseShape op (Tensor.shapes inputs) signatures = .ok t.shape) :
    ∃ out', pointwiseShape op (Tensor.shapes others) signatures = .ok out' := by
  obtain ⟨module, elem, rfl, harity, helem, hself⟩ := pointwiseShape_eq_ok hinfer
  have hview {s s' : Shape} (hform : s'.form = s.form) :
      (s'.withElem elem).form = (s.withElem elem).form := by
    rw [Shape.form_withElem, hform, Shape.form_withElem]
  have hstatic (a : Tensor α) : (a.shape.withElem elem).isDynamic = false := by
    rw [Shape.isDynamic_withElem, a.isDynamic_shape]
  obtain ⟨out', hout'⟩ := exists_elementwise_of_peers hpeers hview hstatic hvalid hfilled hself
  have hlength := (Tensor.forall₂_form Tensor.Peer.form_eq hpeers).length_eq
  refine ⟨out', ?_⟩
  change (if module.arity ≠ (Tensor.shapes others).length then _ else _ :
    Outcome ShapeError Shape) = _
  rw [if_neg (not_not.2 (harity.trans hlength)), helem, ok_bind]
  exact hout'

/-- Inference accepts the layouts of peers where the result is not empty. -/
theorem exists_infer_of_peers {op : Operator α}
    (hpliant : op.isPliant = true) (htame : op.Tame modules)
    (hrun : op.apply inputs modules = .ok t) (hfilled : t.Filled) :
    ∃ out', op.infer (Tensor.shapes others) (modules.map Callable.signature) = .ok out' := by
  have hargs : ∀ a ∈ inputs, a.Valid := fun a hmem =>
    (exists_mem_right_of_forall₂ hpeers hmem).elim fun _ hpeer => hpeer.2.valid
  obtain ⟨hvalid, hinfer⟩ := apply_sound htame hargs hrun
  have hforms := forms_eq_of_peers hpeers
  cases op with
  | literal value =>
    obtain ⟨_, hnone, -⟩ := bind_eq_ok_iff.1 hinfer
    cases hpeers with
    | nil => exact ⟨value.shape, rfl⟩
    | cons => cases hnone
  | identity =>
    obtain ⟨a, rfl, -⟩ := Tensor.exists_of_shapes_eq_one (oneInput_iff.1 hinfer)
    obtain ⟨b, rfl, -⟩ := exists_of_forall₂_one hpeers
    exact ⟨b.shape, rfl⟩
  | contiguous =>
    exact (contiguousShape_sees hforms hinfer).imp fun _ => And.left
  | unary fn => exact exists_unary_of_peers hpeers hvalid hfilled hinfer
  | binary fn => exact exists_binary_of_peers hpeers hvalid hfilled hinfer
  | reduceSum axes => exact (reduceSumShape_sees hforms hinfer).imp fun _ => And.left
  | dot => exact (dotShape_sees hforms hinfer).imp fun _ => And.left
  | transpose order =>
    obtain ⟨a, elem, axes, moved, heq, hshape, hperm, hlength, -⟩ := transposeShape_static hinfer
    obtain ⟨axes', -, hs', hlens, -⟩ := exists_strided_of_peers_one hpeers heq hshape
    have hrank : axes'.length = axes.length := by simpa using congrArg List.length hlens
    rw [hs']
    exact (exists_transposeShape hperm (hlength.trans hrank.symm)).elim
      fun _ hmoved => ⟨_, hmoved.1⟩
  | squeeze axes => exact (squeezeShape_sees hforms hinfer).imp fun _ => And.left
  | slice axes starts ends => exact (sliceShape_sees hforms hinfer).imp fun _ => And.left
  | broadcast lens => exact (broadcastShape_sees hforms hinfer).imp fun _ => And.left
  | gather axis => exact (gatherShape_sees hforms hinfer).imp fun _ => And.left
  | concat axis => exact exists_concat_of_peers hpeers hvalid hfilled hinfer
  | pointwise => exact exists_pointwise_of_peers hpeers hvalid hfilled hinfer
  | tupleElem index => exact (tupleElemShape_sees hforms hinfer).imp fun _ => And.left
  | reshape | unsqueeze => cases hpliant
  | parameter | returns | fusedConcat | scan => cases htame.isBasic hrun

/-- A pliant operator cannot tell peers apart, where its result is not empty. -/
theorem apply_peers_of_filled {op : Operator α}
    (hpliant : op.isPliant = true) (htame : op.Tame modules)
    (hrun : op.apply inputs modules = .ok t) (hfilled : t.Filled) :
    Delivers (op.Roomy t.lens) t.Peer (op.apply others modules) := by
  obtain ⟨out', hinfer'⟩ := exists_infer_of_peers hpeers hpliant htame hrun hfilled
  exact (apply_peers htame hpeers hinfer' hrun).mono id fun _ hboth => hboth.1

end Peers

/-! ## Operators that do not cut -/

/-- Operators that make no empty value of others, and need no room for a listing. -/
def Fills : Operator α → Prop
  | .contiguous | .slice .. => False
  | .broadcast lens => 0 ∉ lens
  | .literal value => value.Filled
  | _ => True

omit [Scalar α] in
theorem roomy_of_fills {op : Operator α} (hfills : op.Fills) {t : Tensor α} (hfilled : t.Filled) :
    op.Roomy t.lens := by
  cases op with
  | contiguous => exact hfills.elim
  | slice => exact hfills.elim
  | pointwise =>
    cases hfilled with
    | strided hpos => exact hpos
    | tuple => exact not_mem_nil
  | _ => trivial

section Filled

variable {inputs : List (Tensor α)} (hfilled : ∀ a ∈ inputs, a.Filled) {t : Tensor α} {op : String}

include hfilled

omit [Scalar α] in
theorem notMem_lens_of_filled {elem : ElementType}
    (hmem : .strided elem axes ∈ Tensor.shapes inputs) : 0 ∉ axes.lens := by
  rw [Tensor.shapes_eq_map] at hmem
  obtain ⟨a, ha, hshape⟩ := mem_map.1 hmem
  exact (Tensor.filled_iff_of_shape hshape).1 (hfilled a ha)

omit hfilled [Scalar α] in
/-- Joining parts that are not all empty gives a value that is not empty. -/
theorem notMem_joinLens {place : Nat} {part : Tensor α}
    (hjoin : joinLens op (Tensor.shapes inputs) axis = .ok (place, lens)) (hmem : part ∈ inputs)
    (hpart : 0 ∉ part.lens) : 0 ∉ lens := by
  obtain ⟨hplace, hparts, hextent⟩ := parts_of_joinLens hjoin
  obtain ⟨_, axes, hshape, hagree⟩ := hparts part hmem
  rw [← Tensor.lens_of_shape hshape] at hagree
  intro hzero
  obtain ⟨k, hlen⟩ := mem_iff_getElem?.1 hzero
  by_cases hk : k = place
  · -- The total is at least the length of the part.
    subst hk
    have hbelow : k < part.lens.length := hagree.1 ▸ hplace
    have hle : part.lens.getD k 0 ≤ lens.getD k 0 :=
      hextent ▸ Word.le_total_of_mem (mem_map_of_mem hmem)
    rw [getD_eq_getElem?_getD, getD_eq_getElem?_getD, hlen, getElem?_eq_getElem hbelow,
      Option.getD_some, Option.getD_some] at hle
    exact hpart (Nat.le_zero.1 hle ▸ getElem_mem hbelow)
  · exact hpart (mem_of_getElem? (hagree.2 k hk ▸ hlen))

omit [Scalar α] in
/-- Elementwise inference keeps lengths. -/
theorem filled_of_elementwise
    (hview : ∀ {s elem axes}, view s = .strided elem axes → ∃ own, s = .strided own axes)
    (hstatic : ∀ a : Tensor α, (view a.shape).isDynamic = false)
    (hinfer : elementwiseShape op ((Tensor.shapes inputs).map view) = .ok t.shape) :
    t.Filled := by
  obtain ⟨first, rest, hinputs, hstrided, hdense⟩ :=
    elementwiseShape_static (static_of_shapes hstatic) hinfer
  have hfirst : first ∈ (Tensor.shapes inputs).map view := hinputs ▸ mem_cons_self
  obtain ⟨own, hown, hlens⟩ := hstrided first hfirst
  obtain ⟨s, hs, hsame⟩ := mem_map.1 hfirst
  obtain ⟨elem, rfl⟩ := hview (hsame.trans hown)
  rw [Tensor.filled_iff_of_dense hdense, ← hlens]
  exact notMem_lens_of_filled hfilled hs

omit [Scalar α] in
theorem filled_of_unary (hinfer : unaryShape op (Tensor.shapes inputs) = .ok t.shape) :
    t.Filled := by
  obtain ⟨a, elem, axes, rfl, hshape, hdense⟩ := unaryShape_static hinfer
  rw [Tensor.filled_iff_of_dense hdense]
  exact (Tensor.filled_iff_of_shape hshape).1 (hfilled a mem_cons_self)

omit [Scalar α] in
theorem filled_of_dot (hinfer : dotShape op (Tensor.shapes inputs) = .ok t.shape) :
    t.Filled := by
  obtain ⟨elem, a, b, batch, rows, inner, columns, hs, ha, hb, hstandard⟩ :=
    dotShape_iff.1 hinfer
  have hfirst : 0 ∉ a.lens := notMem_lens_of_filled hfilled (hs ▸ mem_cons_self)
  have hsecond : 0 ∉ b.lens :=
    notMem_lens_of_filled hfilled (hs ▸ mem_cons_of_mem _ mem_cons_self)
  rw [Tensor.filled_iff_of_dense (Shape.isDense_of_standard hstandard)]
  rw [ha] at hfirst
  rw [hb] at hsecond
  simp only [mem_append, mem_cons, not_mem_nil, or_false, not_or] at hfirst hsecond ⊢
  exact ⟨hfirst.1, hfirst.2.1, hsecond.2.2⟩

omit [Scalar α] in
theorem filled_of_transpose {order : List Nat}
    (hinfer : transposeShape op order (Tensor.shapes inputs) = .ok t.shape) :
    t.Filled := by
  obtain ⟨a, elem, axes, moved, rfl, hshape, -, -, hmoved, hout⟩ := transposeShape_static hinfer
  rw [Tensor.filled_iff_of_shape hout]
  intro hzero
  have hall := Permutation.reorder_eq_ok_iff.1 (reorder_lens hmoved)
  obtain ⟨i, -, hentry⟩ := exists_mem_right_of_forall₂ hall.flip hzero
  exact (Tensor.filled_iff_of_shape hshape).1 (hfilled a mem_cons_self) (mem_of_getElem? hentry)

omit [Scalar α] in
theorem filled_of_squeeze {listed : List Nat}
    (hinfer : squeezeShape op listed (Tensor.shapes inputs) = .ok t.shape) :
    t.Filled := by
  obtain ⟨elem, axes, hs, -, hshape⟩ := squeezeShape_iff.1 hinfer
  rw [Tensor.filled_iff_of_shape hshape]
  intro hzero
  obtain ⟨axis, haxis, hlen⟩ := mem_map.1 hzero
  obtain ⟨entry, hentry, rfl⟩ := mem_map.1 haxis
  have hmem : entry.1 ∈ axes := fst_mem_of_mem_zipIdx (mem_filter.1 hentry).1
  exact notMem_lens_of_filled hfilled (hs ▸ mem_cons_self) (hlen ▸ mem_map_of_mem hmem)

omit [Scalar α] in
theorem filled_of_gather
    (hinfer : gatherShape op axis (Tensor.shapes inputs) = .ok t.shape) : t.Filled := by
  obtain ⟨elem, data, elem', picks, place, hs, -, hstandard⟩ := gatherShape_iff.1 hinfer
  have hdata : 0 ∉ data.lens := notMem_lens_of_filled hfilled (hs ▸ mem_cons_self)
  have hpicks : 0 ∉ picks.lens :=
    notMem_lens_of_filled hfilled (hs ▸ mem_cons_of_mem _ mem_cons_self)
  rw [Tensor.filled_iff_of_dense (Shape.isDense_of_standard hstandard), mem_append,
    mem_append]
  rintro ((hzero | hzero) | hzero)
  · exact hdata (mem_of_mem_take hzero)
  · exact hpicks hzero
  · exact hdata (mem_of_mem_drop hzero)

/-- A component of a tuple is not empty when the tuple is not. -/
theorem filled_of_tupleElem {index : Nat}
    (hrun : (tupleElem index).apply inputs modules = .ok t) : t.Filled := by
  obtain ⟨out, hout, hevaluate⟩ := apply_eq_ok_iff.1 hrun
  obtain ⟨parts, _, rfl, -, -⟩ := exists_component hout
  cases hfilled _ mem_cons_self with
  | tuple hparts => exact hparts _ (mem_of_getElem? (tupleElem_eq_ok_iff.1 hevaluate))

/-- Such operators give a value that is not empty on arguments that are not. -/
theorem filled_of_apply {op : Operator α} (hfills : op.Fills)
    (hpliant : op.isPliant = true) (htame : op.Tame modules)
    (hinfer : op.infer (Tensor.shapes inputs) (modules.map Callable.signature) = .ok t.shape)
    (hrun : op.apply inputs modules = .ok t) : t.Filled := by
  cases op with
  | literal value =>
    obtain ⟨_, -, hevaluate⟩ := apply_eq_ok_iff.1 hrun
    cases hevaluate
    exact hfills
  | identity =>
    obtain ⟨out, hout, hevaluate⟩ := apply_eq_ok_iff.1 hrun
    obtain ⟨a, rfl, -⟩ := Tensor.exists_of_shapes_eq_one (oneInput_iff.1 hout)
    cases hevaluate
    exact hfilled _ mem_cons_self
  | unary fn => exact filled_of_unary hfilled hinfer
  | binary fn =>
    obtain ⟨s, s', hs, hself⟩ := binaryShape_eq_ok hinfer
    rw [← hs, ← map_id (Tensor.shapes inputs)] at hself
    exact filled_of_elementwise hfilled (fun heq => ⟨_, heq⟩) (fun a => a.isDynamic_shape) hself
  | reduceSum axes =>
    obtain ⟨elem, layout, hs, -, hstandard⟩ := reduceSumShape_iff.1 hinfer
    rw [Tensor.filled_iff_of_dense (Shape.isDense_of_standard hstandard)]
    exact notMem_foldl_set axes
      (notMem_lens_of_filled hfilled (hs ▸ mem_cons_self))
  | dot => exact filled_of_dot hfilled hinfer
  | transpose order => exact filled_of_transpose hfilled hinfer
  | squeeze axes => exact filled_of_squeeze hfilled hinfer
  | broadcast lens =>
    have hlens := broadcastShape_lens hinfer
    obtain ⟨elem, layout, inner, -, -, -, hshape⟩ := broadcastShape_iff.1 hinfer
    rw [hshape, Shape.lens_strided] at hlens
    rw [Tensor.filled_iff_of_shape hshape, hlens]
    exact hfills
  | gather axis => exact filled_of_gather hfilled hinfer
  | concat axis =>
    obtain ⟨first, rest, place, lens, hs, -, hjoin, hdense⟩ := concatShape_eq_ok hinfer
    rw [Tensor.shapes_eq_map] at hs
    obtain ⟨a, _, rfl, -, -⟩ := map_eq_cons_iff.1 hs
    obtain ⟨_, axes, hshape, -⟩ := (parts_of_joinLens hjoin).2.1 a mem_cons_self
    refine (Tensor.filled_iff_of_dense hdense).2 (notMem_joinLens hjoin mem_cons_self ?_)
    rw [Tensor.lens_of_shape hshape]
    exact (Tensor.filled_iff_of_shape hshape).1 (hfilled a mem_cons_self)
  | pointwise =>
    obtain ⟨module, elem, -, -, -, hself⟩ := pointwiseShape_eq_ok hinfer
    refine filled_of_elementwise hfilled Shape.exists_of_withElem_eq (fun a => ?_) hself
    rw [Shape.isDynamic_withElem, a.isDynamic_shape]
  | tupleElem index => exact filled_of_tupleElem hfilled hrun
  | contiguous | slice => exact hfills.elim
  | reshape | unsqueeze => cases hpliant
  | parameter | returns | fusedConcat | scan => cases htame.isBasic hrun

end Filled

end Operator

end TensorGraph
