import Mathlib.Data.List.Infix
import TensorGraph.Proofs.Operator.AxisOrders
import TensorGraph.Proofs.Operator.Values
import TensorGraph.Scalar.Binary32

/-!
# Reading tensors back

What is written at every index of a layout can be read again, from the front of a buffer in the standard
layout or index by index. What limits all of this is memory.
-/

namespace TensorGraph

open List

variable {α : Type} [Scalar α]

namespace Layout

variable {axes : Layout} {lens order : List Nat}

/-- The positions of all indices are the numbers below their count. -/
theorem Dense.positions_perm (hdense : axes.Dense) (hfits : volume axes.lens < Word.limit) :
    ((indices axes.lens).map axes.position).Perm (List.range (volume axes.lens)) := by
  have hspace := hdense.space_eq hfits
  have hnodup : ((indices axes.lens).map axes.position).Nodup := by
    refine (nodup_indices axes.lens).map_on fun first hfirst second hsecond heq => ?_
    exact hdense.position_injective (mem_indices_iff.1 hfirst) (mem_indices_iff.1 hsecond) heq
  have hbelow : (indices axes.lens).map axes.position ⊆ List.range (volume axes.lens) := by
    intro position hmem
    obtain ⟨index, hindex, rfl⟩ := mem_map.1 hmem
    exact mem_range.2 (position_lt_space hspace (mem_indices_iff.1 hindex))
  refine (subperm_of_subset hnodup hbelow).perm_of_length_le (Nat.le_of_eq ?_)
  rw [length_range, length_map, length_indices]

theorem Dense.mapM_offset (hdense : axes.Dense) (hfits : volume axes.lens < Word.limit) :
    (indices axes.lens).mapM axes.offset = .ok ((indices axes.lens).map axes.position) := by
  rw [mapM_eq_ok_iff, forall₂_map_right_iff, forall₂_same]
  exact fun index hmem => offset_of_inRange (hdense.space_eq hfits) (mem_indices_iff.1 hmem)

/-- With two positions on every axis, the strides of a row-major layout decrease. -/
theorem pairwise_lt_rowMajor (hlens : ∀ len ∈ lens, 2 ≤ len) :
    (rowMajor lens).Pairwise (fun a b => b.stride < a.stride) ∧
      ∀ axis ∈ rowMajor lens, axis.stride < volume lens := by
  induction lens with
  | nil => simp [rowMajor]
  | cons len lens ih =>
    obtain ⟨hlen, hrest⟩ := forall_mem_cons.1 hlens
    obtain ⟨hpairs, hbelow⟩ := ih hrest
    have hpos : 0 < volume lens := volume_pos_iff.2 fun hzero => by simpa using hrest 0 hzero
    have hgrows : volume lens < volume (len :: lens) := by
      have hdouble := Nat.mul_le_mul_right (volume lens) hlen
      rw [volume]
      omega
    rw [rowMajor, pairwise_cons, forall_mem_cons]
    exact ⟨⟨hbelow, hpairs⟩, hgrows, fun axis hmem => Nat.lt_trans (hbelow axis hmem) hgrows⟩

/-- With two positions on every axis, a layout shows the order in which its axes were placed. -/
theorem axisOrder_of_permuted (hrun : permuted lens order = .ok axes)
    (hlens : ∀ len ∈ lens, 2 ≤ len) : axes.axisOrder = order := by
  obtain ⟨rfl, hperm, hrows⟩ := permuted_rows hrun
  rw [length_lens] at hperm
  have hplaced : ∀ len ∈ order.map (axes.lens.getD · 0), 2 ≤ len := by
    intro len hmem
    obtain ⟨axis, haxis, rfl⟩ := mem_map.1 hmem
    have hbelow : axis < axes.lens.length := by simpa using hperm.subset haxis
    rw [getD_eq_getElem?_getD, getElem?_eq_getElem hbelow, Option.getD_some]
    exact hlens _ (getElem_mem hbelow)
  have hstrict := (pairwise_lt_rowMajor hplaced).1
  rw [← hrows, pairwise_map] at hstrict
  -- No two axes have one stride, so only one order has the strides sorted.
  have hdistinct : (order.map fun axis => (axes.getD axis default).stride).Nodup :=
    pairwise_map.2 (hstrict.imp Nat.ne_of_gt)
  have hwalk := pairwise_axisOrder axes
  rw [pairwise_map] at hwalk
  refine (axes.axisOrder_perm.trans hperm.symm).eq_of_pairwise ?_ hwalk
    (hstrict.imp Nat.le_of_lt)
  intro a b ha hb hle hge
  have ha' : a ∈ order := hperm.mem_iff.2 (axes.axisOrder_perm.mem_iff.1 ha)
  exact inj_on_of_nodup_map hdistinct ha' hb (Nat.le_antisymm hge hle)

end Layout

namespace Tensor

/-- A layout in an axis order can be had when no product on the way overflows. It is packed, its offsets
number the indices, a tensor that is tabulated in it, if its buffer can be had, reads back what was
written, and from lengths of at least two the order can be found again. -/
theorem permuted_readback {elem : ElementType} {lens order : List Nat}
    (hperm : Permutation.isPermutation order = true) (hlength : order.length = lens.length)
    (hplaced : ∀ inner ∈ (order.map (lens.getD · 0)).tails, volume inner < Word.limit)
    (hcounted : ∀ outer ∈ lens.inits, volume outer < Word.limit) :
    ∃ s n, Shape.permuted elem lens order = .ok s ∧ s.elements = .ok n ∧ s.isPacked = .ok true ∧
      (∃ offsets, (indices lens).mapM s.offset = .ok offsets ∧ offsets.Perm (List.range n)) ∧
      (∀ f : List Nat → α,
        ((∃ t, tabulate s (fun index => .ok (f index)) = .ok t) ↔ n ≤ largestBuffer) ∧
        ∀ t, tabulate s (fun index => .ok (f index)) = .ok t →
          ∀ index, InRange index lens → t.get index = .ok (f index)) ∧
      (order = Permutation.identity lens.length → Shape.standard elem lens = .ok s) ∧
      ((∀ len ∈ lens, 2 ≤ len) → s.axisOrder = order) := by
  have hrange : order.Perm (List.range lens.length) :=
    hlength ▸ Permutation.isPermutation_iff_perm.1 hperm
  obtain ⟨axes, hrun⟩ :=
    Layout.exists_permuted hrange fun inner hinner => hplaced inner ((mem_tails _ _).2 hinner)
  have hshape : Shape.permuted elem lens order = .ok (.strided elem axes) :=
    bind_eq_ok_iff.2 ⟨axes, hrun, rfl⟩
  obtain ⟨hlens, hdense⟩ := Layout.permuted_eq_ok hrun
  have hfits : volume axes.lens < Word.limit := hlens ▸ hcounted lens (by simp)
  have hcount : axes.elements = .ok (volume axes.lens) := by
    refine Word.product_eq_ok_iff.2 ⟨rfl, fun outer houter => ?_⟩
    exact hcounted outer ((mem_inits _ _).2 (hlens ▸ houter))
  refine ⟨.strided elem axes, volume axes.lens, hshape, hcount, ?_, ?_, fun f => ?_, ?_, ?_⟩
  · have hspace := hdense.space_eq hfits
    show axes.isPacked = .ok true
    rw [Layout.isPacked, hcount, ok_bind, hspace, ok_bind, beq_self_eq_true]
    rfl
  · rw [← hlens]
    exact ⟨_, hdense.mapM_offset hfits, hdense.positions_perm hfits⟩
  · have hcomputes : Computes (tabulate (.strided elem axes) fun index => .ok (f index)) _ _ f :=
      computes_tabulate ⟨axes, rfl, rfl, hdense⟩ fun _ _ => rfl
    refine ⟨hcomputes.exists_iff, fun t ht index hindex => ?_⟩
    exact (hcomputes.holds ht).get_eq (by rwa [Shape.lens_strided, hlens])
  · rintro rfl
    have hstandard : Layout.standard lens = .ok (.rowMajor lens) := by
      refine Layout.standard_of_suffixes fun inner hinner => hplaced inner ((mem_tails _ _).2 ?_)
      rwa [Permutation.identity, Layout.map_getD_range]
    rw [Layout.permuted_range hrun, Shape.standard, hstandard]
    rfl
  · intro hlong
    rw [Shape.axisOrder_strided]
    exact Layout.axisOrder_of_permuted hrun hlong

theorem permuted_readback_rotated :
    ∃ s t, Shape.permuted .float32 [3, 2, 2] [1, 2, 0] = .ok s ∧ s.axisOrder = [1, 2, 0] ∧
      tabulate s (fun index => .ok (if index = [2, 0, 1] then 7 else 0 : Float32)) = .ok t ∧
      t.get [2, 0, 1] = .ok 7 := by
  obtain ⟨s, n, hs, hn, -, -, hreads, -, horder⟩ :=
    @permuted_readback Float32 _ .float32 [3, 2, 2] [1, 2, 0] (by decide) rfl (by decide)
      (by decide)
  have hsmall : n ≤ largestBuffer := by
    cases hs
    cases hn
    decide
  obtain ⟨hexists, hread⟩ := hreads fun index => if index = [2, 0, 1] then 7 else 0
  obtain ⟨t, ht⟩ := hexists.2 hsmall
  exact ⟨s, t, hs, horder (by decide), ht, hread t ht [2, 0, 1] (by decide)⟩

/-- No buffer holds this many elements. -/
theorem not_permuted_readback :
    ¬ ∀ (lens order : List Nat) (s : Shape), Permutation.isPermutation order = true →
      order.length = lens.length →
      (∀ inner ∈ (order.map (lens.getD · 0)).tails, volume inner < Word.limit) →
      (∀ outer ∈ lens.inits, volume outer < Word.limit) →
      Shape.permuted .float32 lens order = .ok s →
      ∃ t : Tensor Float32, tabulate s (fun _ => .ok 0) = .ok t := by
  intro hclaim
  obtain ⟨t, hrun⟩ := hclaim [4611686018427387904] [0]
    (.strided .float32 [⟨4611686018427387904, 1⟩]) (by decide) rfl (by decide) (by decide) rfl
  cases hrun

end Tensor

end TensorGraph
