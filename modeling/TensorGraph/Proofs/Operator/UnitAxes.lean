import TensorGraph.Proofs.Operator.Acceptance
import TensorGraph.Proofs.Operator.AxisOrders
import TensorGraph.Scalar.Binary32

/-!
# Unit axes and listed values

Squeezing takes back what unsqueezing has put in, strides included. With reshape and contiguous they keep
the list of values, where it can be had.
-/

namespace TensorGraph

open Inference Layout List Shape Tensor

section Lengths

variable {removed places lens : List Nat} {axes : Layout}

theorem dropAt_sublist {β : Type} (removed places : List Nat) (items : List β) :
    (dropAt removed places items).Sublist items := by
  induction places generalizing items with
  | nil => exact nil_sublist _
  | cons place places ih =>
    cases items with
    | nil => exact nil_sublist _
    | cons item items =>
      rw [dropAt]
      split_ifs
      · exact (ih items).cons item
      · exact (ih items).cons_cons item

theorem foldlM_mul_dropAt (hunits : UnitsAt removed places lens) {start : Nat}
    (hstart : start < Word.limit) :
    (dropAt removed places lens).foldlM Word.mul start = lens.foldlM Word.mul start := by
  induction hunits generalizing start with
  | nil => rfl
  | @cons place len places lens hunit _ ih =>
    rw [dropAt, foldlM_cons]
    split_ifs with hmem
    · rw [hunit hmem, Word.mul_eq_ok_iff.2 ⟨rfl, by rwa [Nat.mul_one]⟩, ok_bind, Nat.mul_one,
        ih hstart]
    · rw [foldlM_cons]
      cases hnext : Word.mul start len with
      | error fault => rfl
      | ok next =>
        obtain ⟨rfl, hfits⟩ := Word.mul_eq_ok_iff.1 hnext
        rw [ok_bind, ok_bind, ih hfits]

/-- Unit axes do not count, also where the count overflows. -/
theorem elements_dropAt (hunits : UnitsAt removed places axes.lens) :
    Layout.elements (dropAt removed places axes) = axes.elements := by
  rw [Layout.elements, lens_dropAt]
  exact foldlM_mul_dropAt hunits (by decide)

/-- Unit axes do not matter for whether there is a standard layout, if the volume fits. -/
theorem standard_dropAt_iff (hunits : UnitsAt removed places lens)
    (hfits : volume lens < Word.limit) :
    Layout.standard (dropAt removed places lens) = .ok (rowMajor (dropAt removed places lens)) ↔
      Layout.standard lens = .ok (rowMajor lens) := by
  simp only [standard_eq_ok_iff, true_and]
  induction hunits with
  | nil => rfl
  | cons hunit hunits ih =>
    rw [dropAt, rowMajor, strides_cons, forall_mem_cons]
    split_ifs with hmem
    · rw [volume, hunit hmem, Nat.one_mul] at hfits
      rw [ih hfits, and_iff_right hfits]
    · rw [rowMajor, strides_cons, forall_mem_cons, volume_dropAt hunits]
      exact and_congr_right ih

/-- Unit axes that are put into a standard layout get the strides that a standard layout has there. -/
theorem insertUnits_rowMajor {widened : Layout}
    (hcount : (places.filter fun place => !removed.contains place).length = lens.length)
    (hfits : ∀ stride ∈ (rowMajor lens).strides, stride < Word.limit)
    (hrun : insertUnits removed places (rowMajor lens) = .ok widened) :
    widened = rowMajor widened.lens ∧ ∀ stride ∈ widened.strides, stride < Word.limit := by
  induction places generalizing lens widened with
  | nil =>
    cases hrun
    simp [rowMajor, Layout.lens, Layout.strides]
  | cons place places ih =>
    have hvolume {lens : List Nat} {inner : Layout}
        (hcount : (places.filter fun place => !removed.contains place).length = lens.length)
        (hinner : insertUnits removed places (rowMajor lens) = .ok inner) :
        volume inner.lens = volume lens := by
      obtain ⟨hunits, hdropped⟩ := insertUnits_units (by rwa [length_rowMajor]) hinner
      rw [← volume_dropAt hunits, ← lens_dropAt, hdropped, lens_rowMajor]
    rcases insertUnits_cons_eq_ok hrun with
      ⟨hunit, stride, inner, hinner, hstride, rfl⟩ | ⟨hother, next, rest, inner, heq, hinner, rfl⟩
    · have hcount : (places.filter fun place => !removed.contains place).length = lens.length := by
        simpa [hunit] using hcount
      obtain ⟨hrows, hbelow⟩ := ih hcount hfits hinner
      have hfilled : stride = volume lens ∧ stride < Word.limit := by
        cases lens with
        | nil =>
          cases hstride
          decide
        | cons len lens =>
          obtain ⟨rfl, hfits⟩ := Word.mul_eq_ok_iff.1 hstride
          exact ⟨rfl, hfits⟩
      rw [lens_cons, rowMajor, ← hrows, hvolume hcount hinner, ← hfilled.1]
      exact ⟨rfl, forall_mem_cons.2 ⟨hfilled.2, hbelow⟩⟩
    · cases lens with
      | nil => cases heq
      | cons len lens =>
        cases heq
        rw [rowMajor, strides_cons, forall_mem_cons] at hfits
        have hcount : (places.filter fun place => !removed.contains place).length =
            lens.length := by
          simpa [hother] using hcount
        obtain ⟨hrows, hbelow⟩ := ih hcount hfits.2 hinner
        rw [lens_cons, rowMajor, ← hrows, hvolume hcount hinner]
        exact ⟨rfl, forall_mem_cons.2 ⟨hfits.1, hbelow⟩⟩

end Lengths

namespace Operator

/-- What unsqueezing puts in, squeezing the same axes takes out again. Both keep standard shapes
standard. -/
theorem squeeze_unsqueeze {α : Type} (s : Shape) (axes : List Nat) :
    (axes ≠ [] → ∀ out, (unsqueeze axes : Operator α).infer [s] [] = .ok out →
        (squeeze axes : Operator α).infer [out] [] = .ok s) ∧
      (s.isStandard = .ok true → ∀ out, (unsqueeze axes : Operator α).infer [s] [] = .ok out ∨
        (squeeze axes : Operator α).infer [s] [] = .ok out → out.isStandard = .ok true) := by
  refine ⟨fun hne out hinfer => ?_, fun hstandard out => ?_⟩
  · obtain ⟨elem, layout, widened, hs, hbelow, hnodup, hrun, rfl⟩ := unsqueezeShape_eq_ok hinfer
    cases hs
    obtain ⟨hunits, hdropped⟩ := insertUnits_units (length_filter_range hbelow hnodup) hrun
    have hlength := hunits.length_eq
    rw [length_range] at hlength
    rw [hlength] at hunits hdropped hbelow
    have hinverse := @squeezeShape_of_units (squeeze axes : Operator α).name elem widened _ hne
      fun axis hmem => unitsAt_range_iff.1 hunits axis hmem (hbelow axis hmem)
    rw [← dropAt_eq_filter, ← range_eq_range', ← length_lens, hdropped] at hinverse
    exact hinverse
  · obtain ⟨elem, lens, rfl, hself⟩ := Shape.isStandard_iff_rowMajor.1 hstandard
    obtain ⟨-, hfits⟩ := standard_eq_ok_iff.1 hself
    rintro (hinfer | hinfer)
    · obtain ⟨_, _, widened, hs, hbelow, hnodup, hrun, rfl⟩ := unsqueezeShape_eq_ok hinfer
      cases hs
      have hcount := length_filter_range hbelow hnodup
      rw [length_rowMajor] at hcount hrun
      exact Layout.isStandard_eq_ok_true_iff.2
        (standard_eq_ok_iff.2 (insertUnits_rowMajor hcount hfits hrun))
    · obtain ⟨_, _, removed, hs, -, hunits, rfl⟩ := squeezeShape_units hinfer
      cases hs
      rw [lens_rowMajor] at hunits
      refine Layout.isStandard_eq_ok_true_iff.2 (standard_eq_ok_iff.2 ⟨?_, ?_⟩)
      · rw [lens_dropAt, lens_rowMajor, dropAt_rowMajor hunits]
      · intro stride hmem
        exact hfits stride (((dropAt_sublist _ _ _).map Axis.stride).subset hmem)

theorem squeeze_unsqueeze_scattered :
    (squeeze [5, 0, 4, 2] : Operator Float32).infer [.strided .float32
        [⟨1, 14⟩, ⟨2, 7⟩, ⟨1, 6⟩, ⟨3, 2⟩, ⟨1, 1⟩, ⟨1, 1⟩]] [] =
        .ok (.strided .float32 [⟨2, 7⟩, ⟨3, 2⟩]) ∧
      (Shape.strided .float32 [⟨3, 0⟩, ⟨1, 0⟩, ⟨0, 1⟩, ⟨1, 1⟩]).isStandard = .ok true :=
  ⟨(squeeze_unsqueeze _ _).1 (by decide) _ rfl,
    (squeeze_unsqueeze (α := Float32) (.strided .float32 [⟨3, 0⟩, ⟨0, 1⟩]) [3, 1]).2 (by decide) _
      (.inl rfl)⟩

end Operator

variable {α : Type} [Scalar α] {n : Nat} {data : Array α}

namespace Tensor

variable {t u : Tensor α} {elem : ElementType} {axes : Layout}

theorem Valid.toList_eq_nth (hvalid : t.Valid) (hshape : t.shape = .strided elem axes)
    {values : List α} (hrun : t.toList = .ok values) :
    values = (List.range (volume t.lens)).map t.nth := by
  have hlens := lens_of_shape hshape
  rw [eq_strided_of_shape hshape] at hvalid hrun
  rw [hvalid.toList_eq hrun, ← eq_strided_of_shape hshape, ← hlens, ← map_position_indices, map_map]
  refine map_congr_left fun index hmem => ?_
  have hrange := mem_indices_iff.1 hmem
  rw [Function.comp_apply, nth_position hrange, value_reading hrange]

theorem SameOrder.toList_eq (hsame : t.SameOrder u) (hvalid : t.Valid) (hvalid' : u.Valid)
    {elem' : ElementType} {axes' : Layout} (hshape : t.shape = .strided elem axes)
    (hshape' : u.shape = .strided elem' axes') {values values' : List α}
    (hrun : t.toList = .ok values) (hrun' : u.toList = .ok values') : values' = values := by
  rw [hvalid.toList_eq_nth hshape hrun, hvalid'.toList_eq_nth hshape' hrun', ← hsame.volume_eq]
  exact map_congr_left fun k hk => (hsame.nth_eq k (mem_range.1 hk)).symm

theorem Valid.exists_toList_of_standard (hvalid : t.Valid)
    (hstandard : t.shape.isStandard = .ok true) (hcount : t.shape.elements = .ok n) :
    ∃ values, t.toList = .ok values := by
  cases t with
  | strided elem axes data => exact hvalid.exists_toList_iff.2 (.inl ⟨hstandard, n, hcount⟩)
  | tuple parts => cases hstandard

/-- From a buffer of moderate size the values can be listed if and only if the lengths have a standard
layout and there is room for the indices. -/
theorem Valid.exists_toList_iff_of_size (hvalid : (Tensor.strided elem axes data).Valid)
    (hcount : axes.elements = .ok n) (hsize : data.size ≤ largestListing) :
    (∃ values, (Tensor.strided elem axes data).toList = .ok values) ↔
      Layout.standard axes.lens = .ok (rowMajor axes.lens) ∧
        volume axes.lens ≤ largestListing := by
  refine ⟨fun hexists => ?_, fun hfits =>
    hvalid.exists_toList_of_room hfits.1 hcount (.inr hfits.2)⟩
  rcases hvalid.exists_toList_iff.1 hexists with ⟨hstandard, -⟩ | ⟨hother, hroom⟩
  · refine ⟨exists_isStandard_iff.1 ⟨true, hstandard⟩, ?_⟩
    obtain ⟨heq, -⟩ := standard_eq_ok_iff.1 (Layout.isStandard_eq_ok_true_iff.1 hstandard)
    have hdense : axes.Dense := heq ▸ rowMajor_dense _
    obtain ⟨m, hspace, hlong⟩ := hvalid.exists_space
    rw [← hdense.space_eq_volume hspace]
    exact Nat.le_trans hlong hsize
  · exact ⟨exists_isStandard_iff.1 ⟨false, hother⟩, hroom⟩

/-- In a buffer of moderate size, unit axes do not matter for whether the values can be listed. -/
theorem exists_toList_dropAt_iff {removed places : List Nat}
    (hunits : UnitsAt removed places axes.lens) (hvalid : (Tensor.strided elem axes data).Valid)
    (hvalid' : (Tensor.strided elem (dropAt removed places axes) data).Valid)
    (hcount : axes.elements = .ok n) (hsize : data.size ≤ largestListing) :
    (∃ values, (Tensor.strided elem (dropAt removed places axes) data).toList = .ok values) ↔
      ∃ values, (Tensor.strided elem axes data).toList = .ok values := by
  obtain ⟨-, hfits⟩ := Word.product_eq_ok_iff.1 hcount
  rw [hvalid.exists_toList_iff_of_size hcount hsize,
    hvalid'.exists_toList_iff_of_size (elements_dropAt hunits ▸ hcount) hsize, lens_dropAt,
    volume_dropAt hunits, standard_dropAt_iff hunits (hfits _ (prefix_refl _))]

end Tensor

namespace Operator

section KeptOrder

variable {op : Operator α} (hkeeps : Pass.keepsRowMajor op = true) {t : Tensor α} {out : Shape}

include hkeeps

omit [Scalar α] in
theorem proper_of_keepsRowMajor : op.Proper ∧ op.hasFormula = true := by
  cases op with
  | contiguous | reshape | squeeze | unsqueeze => exact ⟨trivial, rfl⟩
  | _ => cases hkeeps

/-- An operator that keeps the row-major order keeps the count, and as far as buffers of moderate size
go, it gives values that can be listed if and only if it is given such values. -/
theorem evaluate_listing {elem : ElementType} {axes : Layout}
    (hvalid : (Tensor.strided elem axes data).Valid) (hvalid' : t.Valid) (hout : t.shape = out)
    (hinfer : op.infer [.strided elem axes] [] = .ok out)
    (hrun : op.evaluate out [.strided elem axes data] [] = .ok t) :
    out.elements = axes.elements ∧
      ((∃ n, axes.elements = .ok n) → data.size ≤ largestListing →
        ((∃ values, t.toList = .ok values) ↔
          ∃ values, (Tensor.strided elem axes data).toList = .ok values)) := by
  -- In the standard layout a count is all that listing needs.
  have hstandardOut {lens : List Nat} {n : Nat}
      (hstandard : Shape.standard elem lens = .ok out) (hcount : out.elements = .ok n) :
      ∃ values, t.toList = .ok values := by
    obtain ⟨heq, hself⟩ := Shape.standard_eq_ok hstandard
    rw [← hout] at heq hcount
    refine hvalid'.exists_toList_of_standard ?_ hcount
    rw [heq, Shape.isStandard_iff_rowMajor]
    exact ⟨elem, lens, rfl, hself⟩
  cases op with
  | contiguous =>
    obtain ⟨_, hs, -, hstandard⟩ := contiguousShape_iff.1 hinfer
    cases hs
    obtain ⟨hshape, hrows⟩ := Shape.standard_eq_ok hstandard
    have hcounts : out.elements = axes.elements := by
      rw [hshape]
      exact congrArg Word.product (lens_rowMajor axes.lens)
    refine ⟨hcounts, fun ⟨n, hcount⟩ _ => iff_of_true ?_ ?_⟩
    · exact hstandardOut hstandard (hcounts.trans hcount)
    · exact hvalid.exists_toList_of_room hrows hcount
        ((hvalid.exists_contiguous_iff hrows).1 ⟨t, Outcome.lift_eq_ok_iff.1 hrun⟩)
  | reshape dims =>
    obtain ⟨_, _, lens, n, hs, hself, hcount, hcount', hstandard⟩ := reshapeShape_counts hinfer
    cases hs
    obtain ⟨hshape, -⟩ := Shape.standard_eq_ok hstandard
    have hcounts : out.elements = .ok n := by
      rw [hshape, ← hcount]
      exact congrArg Word.product (lens_rowMajor lens)
    refine ⟨hcounts.trans hcount'.symm, fun _ _ => iff_of_true ?_ ?_⟩
    · exact hstandardOut hstandard hcounts
    · exact hvalid.exists_toList_iff.2 (.inl ⟨hself, n, hcount'⟩)
  | squeeze removed =>
    obtain ⟨_, _, _, hs, -, hunits, rfl⟩ := squeezeShape_units hinfer
    cases hs
    obtain ⟨_, _, _, heq, -, -, rfl⟩ := ofBuffer_eq_ok_iff.1 (Outcome.lift_eq_ok_iff.1 hrun)
    cases heq
    exact ⟨elements_dropAt hunits, fun ⟨n, hcount⟩ hsize =>
      exists_toList_dropAt_iff hunits hvalid hvalid' hcount hsize⟩
  | unsqueeze added =>
    obtain ⟨_, _, widened, hs, rfl, -, hunits, hdropped⟩ := unsqueezeShape_units hinfer
    cases hs
    obtain ⟨_, _, _, heq, -, -, rfl⟩ := ofBuffer_eq_ok_iff.1 (Outcome.lift_eq_ok_iff.1 hrun)
    cases heq
    have hcounts := elements_dropAt hunits
    rw [hdropped] at hcounts
    refine ⟨hcounts.symm, fun ⟨n, hcount⟩ hsize => ?_⟩
    have hlisted := exists_toList_dropAt_iff hunits hvalid' (hdropped.symm ▸ hvalid)
      (hcounts ▸ hcount) hsize
    rw [hdropped] at hlisted
    exact hlisted.symm
  | _ => cases hkeeps

end KeptOrder

/-- Reshape, contiguous, squeeze and unsqueeze keep the number of values and their list. Whether the list
can be had is the same before and after, if the values can be counted and the buffer is no longer than the
longest list. -/
theorem toList_of_keepsRowMajor {op : Operator α} (hkeeps : Pass.keepsRowMajor op = true)
    {a t : Tensor α} {out : Shape} (hvalid : a.Valid) (hinfer : op.infer [a.shape] [] = .ok out)
    (hrun : op.evaluate out [a] [] = .ok t) :
    t.shape = out ∧ out.elements = a.shape.elements ∧
      (∀ values values', a.toList = .ok values → t.toList = .ok values' → values' = values) ∧
      ((∃ n, a.shape.elements = .ok n) → a.data.size ≤ largestListing →
        ∀ values, t.toList = .ok values ↔ a.toList = .ok values) := by
  have happly : op.apply [a] [] = .ok t := apply_eq_ok_iff.2 ⟨out, hinfer, hrun⟩
  have hinputs : ∀ b ∈ [a], b.Valid := by simpa using hvalid
  obtain ⟨_, heq, hsame, hstrided⟩ := apply_sameOrder hkeeps hinputs happly
  cases heq
  obtain ⟨hproper, hformula⟩ := proper_of_keepsRowMajor hkeeps
  obtain ⟨hvalid', hinfer'⟩ := apply_sound hproper.tame hinputs happly
  have hout : t.shape = out := Except.ok.inj (hinfer'.symm.trans hinfer)
  obtain ⟨elem, axes, hshape⟩ := strided_of_infer hformula hinfer' a mem_cons_self
  obtain ⟨elem', axes', hshape'⟩ := exists_strided_of_isTuple hstrided
  have hlists {values values' : List α} (hvalues : a.toList = .ok values)
      (hvalues' : t.toList = .ok values') : values' = values :=
    hsame.toList_eq hvalid hvalid' hshape hshape' hvalues hvalues'
  rw [hshape] at hinfer
  rw [eq_strided_of_shape hshape] at hvalid hrun
  obtain ⟨hcounts, hexists⟩ := evaluate_listing hkeeps hvalid hvalid' hout hinfer hrun
  rw [← eq_strided_of_shape hshape] at hexists
  rw [hshape]
  refine ⟨hout, hcounts, fun values values' hvalues hvalues' => hlists hvalues hvalues', ?_⟩
  intro hcount hsize values
  specialize hexists hcount hsize
  constructor
  · intro hvalues'
    obtain ⟨listed, hvalues⟩ := hexists.1 ⟨values, hvalues'⟩
    rwa [hlists hvalues hvalues']
  · intro hvalues
    obtain ⟨listed, hvalues'⟩ := hexists.2 ⟨values, hvalues⟩
    rwa [← hlists hvalues hvalues']

/-- Two rows of three entries that are stored by columns, with a unit axis of no particular stride. -/
theorem toList_of_keepsRowMajor_columns :
    ∃ t, (squeeze [1]).evaluate (.strided .float32 [⟨2, 1⟩, ⟨3, 2⟩])
        [.strided .float32 [⟨2, 1⟩, ⟨1, 9⟩, ⟨3, 2⟩] #[1, 4, 2, 5, 3, 6]] [] = .ok t ∧
      t.toList = .ok ([1, 2, 3, 4, 5, 6] : List Float32) := by
  have hvalid : (Tensor.strided .float32 [⟨2, 1⟩, ⟨1, 9⟩, ⟨3, 2⟩]
      (#[1, 4, 2, 5, 3, 6] : Array Float32)).Valid := .strided rfl (by decide)
  have hkept := @toList_of_keepsRowMajor _ _ (squeeze [1]) rfl _ _ _ hvalid rfl rfl
  exact ⟨_, rfl, (hkept.2.2.2 ⟨_, rfl⟩ (by decide) _).2 rfl⟩

/-- Nothing is stored, but without the unit axis the layout is standard, and the values are counted. -/
theorem not_toList_of_keepsRowMajor :
    ¬ ∀ (op : Operator Float32) (a t : Tensor Float32) (out : Shape) (values : List Float32),
      Pass.keepsRowMajor op = true → a.Valid → op.infer [a.shape] [] = .ok out →
      op.evaluate out [a] [] = .ok t → a.toList = .ok values → t.toList = .ok values := by
  intro hclaim
  have hlisted := hclaim (squeeze [2])
    (.strided .float32 [⟨1099511627776, 0⟩, ⟨1099511627776, 0⟩, ⟨1, 7⟩, ⟨0, 1⟩] #[]) _ _ []
    rfl (.strided rfl (by decide)) rfl rfl rfl
  cases hlisted

end Operator

end TensorGraph
