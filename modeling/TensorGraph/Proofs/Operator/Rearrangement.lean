import TensorGraph.Pass.Reshapes
import TensorGraph.Proofs.Operator.Alike

/-!
# Rearranged values

Tensors along a chain of reshape, contiguous, squeeze and unsqueeze are twins as soon as they have the
same lengths. Transpositions one after another are one by the composed order.
-/

namespace TensorGraph

open Inference Layout List Shape Tensor

section UnitAxes

variable {removed places axes : List Nat} {lens : List Nat} {inputs : List Shape}

theorem map_dropAt {β γ : Type} (f : β → γ) (removed places : List Nat) (items : List β) :
    (dropAt removed places items).map f = dropAt removed places (items.map f) := by
  induction places generalizing items with
  | nil => rfl
  | cons place places ih =>
    cases items with
    | nil => rfl
    | cons item items =>
      rw [map_cons, dropAt, dropAt, ← ih]
      split_ifs <;> rfl

theorem lens_dropAt (removed places : List Nat) (axes : Layout) :
    Layout.lens (dropAt removed places axes) = dropAt removed places axes.lens :=
  map_dropAt _ _ _ _

theorem volume_dropAt (hunits : UnitsAt removed places lens) :
    volume (dropAt removed places lens) = volume lens := by
  induction hunits with
  | nil => rfl
  | cons hunit _ ih =>
    rw [dropAt]
    split_ifs with hmem
    · rw [volume, hunit hmem, ih, Nat.one_mul]
    · rw [volume, volume, ih]

/-- Leaving out unit axes of a row-major layout gives a row-major layout again. -/
theorem dropAt_rowMajor (hunits : UnitsAt removed places lens) :
    dropAt removed places (Layout.rowMajor lens) =
      Layout.rowMajor (dropAt removed places lens) := by
  induction hunits with
  | nil => rfl
  | cons hunit hunits ih =>
    rw [Layout.rowMajor, dropAt, dropAt, ih]
    split_ifs with hmem
    · rfl
    · rw [Layout.rowMajor, volume_dropAt hunits]

/-- Squeezing keeps the row-major positions. -/
theorem traces_rowMajor_squeeze (hunits : UnitsAt removed places lens) :
    (Layout.rowMajor (dropAt removed places lens)).Traces (Layout.rowMajor lens) 0
      (restoreAt removed places) := by
  intro index hrange
  rw [← dropAt_rowMajor hunits] at hrange ⊢
  rw [Nat.zero_add]
  exact restoreAt_traces (by rwa [lens_rowMajor]) hrange

/-- Unsqueezing keeps the row-major positions. -/
theorem traces_rowMajor_unsqueeze (hunits : UnitsAt removed places lens) :
    (Layout.rowMajor lens).Traces (Layout.rowMajor (dropAt removed places lens)) 0
      (dropAt removed places) := by
  intro index hrange
  rw [← dropAt_rowMajor hunits, Nat.zero_add]
  exact position_dropAt (by rwa [lens_rowMajor]) hrange

/-- Squeezing leaves out unit axes. -/
theorem squeezeShape_units {op : String} {out : Shape}
    (hinfer : squeezeShape op axes inputs = .ok out) :
    ∃ elem layout removed, inputs = [.strided elem layout] ∧
      removed = squeezedAxes (.strided elem layout) axes ∧
      UnitsAt removed (List.range layout.length) layout.lens ∧
      out = .strided elem (dropAt removed (List.range layout.length) layout) := by
  obtain ⟨elem, layout, rfl, hunits, rfl⟩ := squeezeShape_iff.1 hinfer
  have hunits := unitsAt_range_iff.2 fun axis hmem _ => hunits axis hmem
  rw [length_lens] at hunits
  refine ⟨elem, layout, _, rfl, rfl, hunits, ?_⟩
  rw [range_eq_range', dropAt_eq_filter]

/-- Unsqueezing puts in unit axes. -/
theorem unsqueezeShape_units {op : String} {out : Shape}
    (hinfer : unsqueezeShape op axes inputs = .ok out) :
    ∃ elem layout widened, inputs = [.strided elem layout] ∧ out = .strided elem widened ∧
      insertUnits axes (List.range (layout.length + axes.length)) layout = .ok widened ∧
      UnitsAt axes (List.range (layout.length + axes.length)) widened.lens ∧
      dropAt axes (List.range (layout.length + axes.length)) widened = layout := by
  obtain ⟨elem, layout, widened, rfl, hbelow, hnodup, hrun, rfl⟩ := unsqueezeShape_eq_ok hinfer
  exact ⟨elem, layout, widened, rfl, rfl, hrun,
    insertUnits_units (length_filter_range hbelow hnodup) hrun⟩

end UnitAxes

variable {α : Type} [Scalar α] {elem : ElementType}

namespace Tensor

variable {t u : Tensor α}

/-- The entry at a position of the row-major order. -/
def nth (t : Tensor α) (k : Nat) : α := t.reading.value (unflatten t.lens k)

/-- Tensors of one element type with the same entries in row-major order. -/
structure SameOrder (t u : Tensor α) : Prop where
  elem_eq : t.shape.elem = u.shape.elem
  volume_eq : volume t.lens = volume u.lens
  nth_eq : ∀ k < volume t.lens, t.nth k = u.nth k

theorem SameOrder.trans {v : Tensor α} (hfirst : t.SameOrder u) (hsecond : u.SameOrder v) :
    t.SameOrder v where
  elem_eq := hfirst.elem_eq.trans hsecond.elem_eq
  volume_eq := hfirst.volume_eq.trans hsecond.volume_eq
  nth_eq := fun k hk => (hfirst.nth_eq k hk).trans (hsecond.nth_eq k (hfirst.volume_eq ▸ hk))

theorem Twin.sameOrder (htwin : t.Twin u) : t.SameOrder u where
  elem_eq := htwin.alike.elem_eq
  volume_eq := by rw [htwin.alike.lens_eq]
  nth_eq := fun k _ => by rw [nth, nth, htwin.alike.reading_eq, htwin.alike.lens_eq]

theorem nth_position {index : List Nat} (hrange : InRange index t.lens) :
    t.nth ((Layout.rowMajor t.lens).position index) = t.reading.value index := by
  obtain ⟨hrange', hposition⟩ := unflatten_spec (position_rowMajor_lt hrange)
  rw [nth, position_rowMajor_injective hrange' hrange hposition]

/-- Tensors in the same order and of one form are twins. -/
theorem SameOrder.twin (hsame : t.SameOrder u) (hform : u.shape.form = t.shape.form)
    (hstrided : u.shape.isTuple = false) (hvalid : t.Valid) (hvalid' : u.Valid) : t.Twin u := by
  rw [← isTuple_form, hform, isTuple_form] at hstrided
  cases t with
  | tuple parts => cases hstrided
  | strided elem axes data =>
    obtain ⟨axes', hshape, hlens⟩ := exists_strided_of_form_eq hform
    rw [eq_strided_of_shape hshape] at hsame hvalid' ⊢
    refine ⟨.strided (Reading.of_congr rfl hlens.symm fun index hrange => ?_), hvalid, hvalid'⟩
    have hlens' : (Tensor.strided elem axes' u.data).lens = (Tensor.strided elem axes data).lens :=
      hlens
    have hrange' : InRange index (Tensor.strided elem axes' u.data).lens := hlens' ▸ hrange
    rw [← value_reading hrange, ← value_reading hrange', ← nth_position hrange,
      ← nth_position hrange', hlens']
    exact hsame.nth_eq _ (position_rowMajor_lt hrange)

theorem Holds.isTuple_eq {out : Shape} {f : List Nat → α} (hholds : t.Holds out f) :
    t.shape.isTuple = false := by
  obtain ⟨elem, axes, hout⟩ := hholds.strided
  rw [hholds.shape_eq, hout]
  rfl

/-- A tensor whose entries are looked up at the same row-major positions of another one. -/
theorem sameOrder_of_traces {a : Tensor α} {out : Shape} {source : List Nat → List Nat}
    (hholds : t.Holds out fun index => a.reading.value (source index))
    (helem : out.elem = a.shape.elem) (hvolume : volume out.lens = volume a.lens)
    (htraces : (Layout.rowMajor out.lens).Traces (Layout.rowMajor a.lens) 0 source) :
    a.SameOrder t := by
  have hlens : t.lens = out.lens := by rw [lens, hholds.shape_eq]
  refine ⟨by rw [hholds.shape_eq, helem], by rw [hlens, hvolume], fun k hk => ?_⟩
  rw [← hvolume] at hk
  obtain ⟨hrange, hposition⟩ := unflatten_spec hk
  obtain ⟨hrange', hposition'⟩ := htraces _ (by rwa [lens_rowMajor])
  rw [lens_rowMajor] at hrange'
  rw [Nat.zero_add, hposition] at hposition'
  calc a.nth k
      = a.reading.value (source (unflatten out.lens k)) := by
        rw [← nth_position hrange', hposition']
    _ = t.entry (unflatten out.lens k) := (hholds.entry_eq _ hrange).symm
    _ = t.nth k := by rw [nth, hlens, value_reading (hlens ▸ hrange)]

end Tensor

namespace Operator

/-- Operators that keep the row-major order read one tensor and give a strided one in the same
order. -/
theorem apply_sameOrder {op : Operator α} (hkeeps : Pass.keepsRowMajor op = true)
    {inputs : List (Tensor α)} {modules : List (Callable α)} {t : Tensor α}
    (hvalid : ∀ a ∈ inputs, a.Valid) (hrun : op.apply inputs modules = .ok t) :
    ∃ a, inputs = [a] ∧ a.SameOrder t ∧ t.shape.isTuple = false := by
  obtain ⟨out, hinfer, hrun⟩ := apply_eq_ok_iff.1 hrun
  cases op with
  | contiguous =>
    obtain ⟨s, hs, htuple, hstandard⟩ := contiguousShape_iff.1 hinfer
    obtain ⟨a, rfl, rfl⟩ := exists_of_shapes_eq_one hs
    have hholds := (contiguous_follows hvalid hinfer).holds hrun
    have hform := form_asStandard hstandard
    have hlens : out.lens = a.lens := by rw [← lens_form out, hform, lens_form]; rfl
    refine ⟨a, rfl, sameOrder_of_traces hholds ?_ (by rw [hlens]) ?_, hholds.isTuple_eq⟩
    · rw [← elem_form out, hform, elem_form]
    · rw [hlens]
      exact fun index hrange => ⟨hrange, (Nat.zero_add _).symm⟩
  | reshape dims =>
    obtain ⟨elem, axes, lens, hs, -, hvolume, hstandard⟩ := reshapeShape_eq_ok hinfer
    obtain ⟨a, rfl, hshape⟩ := exists_of_shapes_eq_one hs
    have hholds := (reshape_follows _ hvalid hinfer).holds hrun
    obtain ⟨rfl, -⟩ := standard_eq_ok hstandard
    rw [map_singleton, formula_reshape hshape, lens_strided, lens_rowMajor]
      at hholds
    refine ⟨a, rfl, sameOrder_of_traces hholds ?_ ?_ ?_, hholds.isTuple_eq⟩
    · rw [hshape]
      rfl
    · rw [lens_strided, lens_rowMajor, hvolume, lens_of_shape hshape]
    · rw [lens_strided, lens_rowMajor, lens_of_shape hshape]
      exact traces_reshape hvolume
  | squeeze axes =>
    obtain ⟨elem, layout, removed, hs, hremoved, hunits, rfl⟩ := squeezeShape_units hinfer
    obtain ⟨a, rfl, hshape⟩ := exists_of_shapes_eq_one hs
    have hholds := (squeeze_follows _ hvalid hinfer).holds hrun
    rw [map_singleton, formula_squeeze hshape, ← hremoved] at hholds
    refine ⟨a, rfl, sameOrder_of_traces hholds ?_ ?_ ?_, hholds.isTuple_eq⟩
    · rw [hshape]
      rfl
    · rw [lens_strided, lens_dropAt, volume_dropAt hunits, lens_of_shape hshape]
    · rw [lens_strided, lens_dropAt, lens_of_shape hshape]
      exact traces_rowMajor_squeeze hunits
  | unsqueeze axes =>
    obtain ⟨elem, layout, widened, hs, rfl, -, hunits, hdropped⟩ := unsqueezeShape_units hinfer
    obtain ⟨a, rfl, hshape⟩ := exists_of_shapes_eq_one hs
    have hholds := (unsqueeze_follows _ hvalid hinfer).holds hrun
    rw [map_singleton, formula_unsqueeze hshape] at hholds
    have hlens : dropAt axes (List.range (layout.length + axes.length)) widened.lens = a.lens := by
      rw [← lens_dropAt, hdropped, lens_of_shape hshape]
    refine ⟨a, rfl, sameOrder_of_traces hholds ?_ ?_ ?_, hholds.isTuple_eq⟩
    · rw [hshape]
      rfl
    · rw [lens_strided, ← hlens, volume_dropAt hunits]
    · rw [lens_strided, ← hlens]
      exact traces_rowMajor_unsqueeze hunits
  | _ => cases hkeeps

end Operator

namespace Permutation

variable {β : Type} {items : List β} {order : List Nat}

theorem reorder_eq_ok_iff {moved : List β} :
    reorder items order = .ok moved ↔
      Forall₂ (fun i item => items[i]? = some item) order moved := by
  rw [reorder, mapM_eq_ok_iff]
  simp only [fetch_eq_ok_iff]

/-- A list can be reordered by any permutation of its positions. -/
theorem exists_reorder (hperm : isPermutation order = true) (hlength : order.length = items.length) :
    ∃ moved, reorder items order = .ok moved ∧ moved.Perm items := by
  have hself : Forall₂ (fun i item => items[i]? = some item) (List.range order.length) items :=
    forall₂_iff_get.2 ⟨by rw [length_range, hlength], fun i _ hi => by simp [hi]⟩
  obtain ⟨moved, hmoved, hperm⟩ := perm_comp_forall₂ (perm_range_of_isPermutation hperm) hself
  exact ⟨moved, reorder_eq_ok_iff.2 hmoved, hperm⟩

/-- Reordering twice is reordering once by the composed order. -/
theorem reorder_reorder {moved turned : List β} {first second composed : List Nat}
    (hmoved : reorder items first = .ok moved) (hturned : reorder moved second = .ok turned)
    (hcomposed : reorder first second = .ok composed) : reorder items composed = .ok turned := by
  rw [reorder_eq_ok_iff] at hmoved hturned hcomposed ⊢
  apply forall₂_of_common _ hcomposed hturned
  intro j axis item haxis hitem
  obtain ⟨axis', haxis', hfound⟩ := exists_getElem?_of_forall₂ hmoved hitem
  cases haxis.symm.trans haxis'
  exact hfound

theorem isPermutation_reorder {first second composed : List Nat}
    (hfirst : isPermutation first = true) (hsecond : isPermutation second = true)
    (hlength : second.length = first.length) (hcomposed : reorder first second = .ok composed) :
    isPermutation composed = true ∧ composed.length = first.length := by
  obtain ⟨moved, hmoved, hperm⟩ := exists_reorder hsecond hlength
  cases hmoved.symm.trans hcomposed
  rw [isPermutation_iff_perm, hperm.length_eq]
  exact ⟨hperm.trans (perm_range_of_isPermutation hfirst), rfl⟩

theorem reorder_range (items : List β) : reorder items (List.range items.length) = .ok items := by
  rw [reorder_eq_ok_iff]
  exact forall₂_iff_get.2 ⟨length_range, fun i _ hi => by simp [hi]⟩

theorem isPermutation_range (rank : Nat) : isPermutation (List.range rank) = true := by
  rw [isPermutation_iff_perm, length_range]

end Permutation

theorem Inference.transposeShape_of_strided (op : String) {order : List Nat}
    {axes moved : Layout} (hperm : Permutation.isPermutation order = true)
    (hlength : order.length = axes.length) (hmoved : Permutation.reorder axes order = .ok moved) :
    transposeShape op order [.strided elem axes] = .ok (.strided elem moved) := by
  have hcheck : (!Permutation.isPermutation order ||
      order.length != (Shape.strided elem axes).rank) = false := by
    simp [hperm, hlength]
  have hstatic : (Shape.strided elem axes).isDynamic = false := rfl
  unfold transposeShape
  show (if _ then _ else if _ then _ else _) = _
  rw [hcheck, if_neg Bool.false_ne_true, hstatic, if_neg Bool.false_ne_true]
  show ((liftM (Permutation.reorder axes order) : Outcome ShapeError _) >>= _) = _
  rw [hmoved]
  rfl

namespace Operator

/-- A transposition reorders the axes and keeps the buffer. -/
theorem transpose_apply_eq_ok_iff {order : List Nat} {a u : Tensor α} (hvalid : a.Valid) :
    (transpose order).apply [a] [] = .ok u ↔
      ∃ elem axes data moved, a = .strided elem axes data ∧
        Permutation.isPermutation order = true ∧ order.length = axes.length ∧
        Permutation.reorder axes order = .ok moved ∧ u = .strided elem moved data := by
  constructor
  · intro hrun
    obtain ⟨out, hinfer, hrun⟩ := apply_eq_ok_iff.1 hrun
    obtain ⟨_, elem, axes, moved, heq, hshape, hperm, hlength, hmoved, rfl⟩ :=
      @transposeShape_static _ _ [a] _ _ hinfer
    cases heq
    obtain ⟨_, _, _, heq, -, -, rfl⟩ := ofBuffer_eq_ok_iff.1 (Outcome.lift_eq_ok_iff.1 hrun)
    cases heq
    exact ⟨elem, axes, a.data, moved, eq_strided_of_shape hshape, hperm, hlength, hmoved, rfl⟩
  · rintro ⟨elem, axes, data, moved, rfl, hperm, hlength, hmoved, rfl⟩
    apply apply_eq_ok_iff.2
    refine ⟨.strided elem moved, transposeShape_of_strided _ hperm hlength hmoved, ?_⟩
    obtain ⟨t, hrun, -⟩ := hvalid.exists_view (traces_transpose hperm hlength hmoved)
    obtain ⟨_, _, _, heq, -, -, rfl⟩ := ofBuffer_eq_ok_iff.1 hrun
    cases heq
    exact Outcome.lift_eq_ok_iff.2 hrun

end Operator

namespace Tensor

variable {a t : Tensor α} {order : List Nat}

/-- A tensor is another one with its axes in this order, up to the layout. -/
def Turned (order : List Nat) (a t : Tensor α) : Prop :=
  ∃ u, (Operator.transpose order).apply [a] [] = .ok u ∧ u.Twin t

/-- Turning does not depend on the layout. -/
theorem Turned.of_twin {b : Tensor α} (hturned : Turned order b t) (htwin : a.Twin b) :
    Turned order a t := by
  obtain ⟨v, hrun, htwin'⟩ := hturned
  obtain ⟨elem, axes, data, moved, rfl, hperm, hlength, -, -⟩ :=
    (Operator.transpose_apply_eq_ok_iff htwin.valid').1 hrun
  obtain ⟨axes', hshape, hlens⟩ := htwin.alike.symm.exists_strided rfl
  have hlength' : order.length = axes'.length := by
    rw [hlength, ← length_lens, ← hlens, length_lens]
  obtain ⟨moved', hmoved', -⟩ := Permutation.exists_reorder hperm hlength'
  have hinfer : (Operator.transpose order : Operator α).infer (shapes [a]) [] =
      .ok (.strided elem moved') := by
    rw [shapes_eq_map, map_singleton, hshape]
    exact transposeShape_of_strided _ hperm hlength' hmoved'
  have hproper : (Operator.transpose order : Operator α).Proper := trivial
  have hdelivers := Operator.apply_alike hproper.tame (.cons htwin.symm .nil) hinfer hrun
  obtain ⟨w, hw⟩ := hdelivers.runs trivial
  exact ⟨w, hw, (hdelivers.post hw).1.symm.trans htwin'⟩

/-- Turning twice is turning once by the composed order. -/
theorem Turned.comp {first second composed : List Nat} {m : Tensor α} (hvalid : a.Valid)
    (hfirst : Turned first a m) (hsecond : Turned second m t)
    (hcomposed : Permutation.reorder first second = .ok composed) : Turned composed a t := by
  obtain ⟨u, hrun, htwin⟩ := hfirst
  obtain ⟨v, hrun', htwin'⟩ := hsecond.of_twin htwin
  obtain ⟨elem, axes, data, moved, rfl, hperm, hlength, hmoved, rfl⟩ :=
    (Operator.transpose_apply_eq_ok_iff hvalid).1 hrun
  obtain ⟨_, _, _, turned, heq, hperm', hlength', hturned, rfl⟩ :=
    (Operator.transpose_apply_eq_ok_iff htwin.valid).1 hrun'
  cases heq
  have hmovedLength : moved.length = first.length :=
    (Permutation.reorder_eq_ok_iff.1 hmoved).length_eq.symm
  obtain ⟨hperm'', hlength''⟩ :=
    Permutation.isPermutation_reorder hperm hperm' (hlength'.trans hmovedLength) hcomposed
  refine ⟨_, (Operator.transpose_apply_eq_ok_iff hvalid).2 ⟨elem, axes, data, turned, rfl, hperm'',
    hlength''.trans hlength, Permutation.reorder_reorder hmoved hturned hcomposed, rfl⟩, htwin'⟩

/-- The order that moves nothing. -/
theorem turned_identity (hvalid : a.Valid) {axes : Layout}
    (hshape : a.shape = .strided elem axes) : Turned (Permutation.identity axes.length) a a := by
  refine ⟨a, (Operator.transpose_apply_eq_ok_iff hvalid).2 ⟨elem, axes, a.data, axes, ?_, ?_, ?_, ?_,
    ?_⟩, .refl hvalid⟩
  · exact eq_strided_of_shape hshape
  · exact Permutation.isPermutation_range _
  · exact length_range
  · exact Permutation.reorder_range axes
  · exact eq_strided_of_shape hshape

theorem Turned.exists_strided (hvalid : a.Valid) (hturned : Turned order a t) :
    ∃ elem axes, t.shape = .strided elem axes := by
  obtain ⟨u, hrun, htwin⟩ := hturned
  obtain ⟨elem, axes, data, moved, -, -, -, -, rfl⟩ :=
    (Operator.transpose_apply_eq_ok_iff hvalid).1 hrun
  obtain ⟨axes', hshape, -⟩ := htwin.alike.exists_strided rfl
  exact ⟨elem, axes', hshape⟩

theorem Turned.twin_of_isIdentity (hvalid : a.Valid) (hturned : Turned order a t)
    (hidentity : Permutation.isIdentity order = true) : a.Twin t := by
  obtain ⟨u, hrun, htwin⟩ := hturned
  obtain ⟨elem, axes, data, moved, rfl, -, hlength, hmoved, rfl⟩ :=
    (Operator.transpose_apply_eq_ok_iff hvalid).1 hrun
  rw [Permutation.isIdentity, beq_iff_eq] at hidentity
  rw [hidentity, hlength, Permutation.reorder_range] at hmoved
  cases hmoved
  exact htwin

end Tensor

end TensorGraph
