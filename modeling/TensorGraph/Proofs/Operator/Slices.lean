import Mathlib.Algebra.GroupWithZero.Nat
import Mathlib.Algebra.Order.BigOperators.Group.List
import Mathlib.Algebra.Order.Group.Nat
import TensorGraph.Proofs.Operator.Formulas
import TensorGraph.Scalar.Binary32

/-!
# Slices

The shape of a slice and the position at which it starts are found separately from the same bounds. For
axes that are all different the two fit together.
-/

namespace TensorGraph

open List

variable {α : Type} [Scalar α] {ranges : List Inference.AxisRange}

/-- The index that is moved up along every listed axis, by where the cut of this axis starts. -/
def movedUp (lens axes : List Nat) (starts : List Int) (index : List Nat) : List Nat :=
  (axes.zip starts).foldl
    (fun index entry => index.modify entry.1 (· + boundAt (lens.getD entry.1 0) entry.2)) index

/-- A slice is read where the bounds say. -/
theorem sliceSource_eq_movedUp {op : String} {input : Shape} {axes : List Nat}
    {starts ends : List Int}
    (hranges : Inference.sliceRanges op input axes starts ends = .ok ranges)
    (hword : ∀ len ∈ input.lens, len < Word.limit) (index : List Nat) :
    sliceSource ranges index = movedUp input.lens axes starts index := by
  obtain ⟨-, heach⟩ := sliceRanges_forall₂ hranges
  unfold sliceSource movedUp
  clear hranges
  generalize axes.zip starts = entries at heach
  induction heach generalizing index with
  | nil => rfl
  | @cons entry range _ _ hentry _ ih =>
    obtain ⟨haxis, hinside, hfirst⟩ := hentry
    have hbelow := haxis ▸ hinside.below
    rw [foldl_cons, foldl_cons, ih, haxis, hfirst]
    simpa [hbelow] using hword _ (getElem_mem hbelow)

theorem Word.total_eq_sum (values : List Nat) : total values = values.sum := by
  induction values with
  | nil => rfl
  | cons value values ih => rw [total, ih, sum_cons]

/-- Cuts of different axes start no further than all axes together reach. -/
theorem sliceStart_le {axes : Layout} (hnodup : (ranges.map (·.axis)).Nodup)
    (hinside : ∀ range ∈ ranges, RangeInside axes.lens range) :
    sliceStart axes ranges ≤ Word.total (axes.map fun axis => axis.len * axis.stride) := by
  have hsub : ranges.map (·.axis) ⊆ List.range axes.length := by
    intro axis hmem
    obtain ⟨range, hrange, rfl⟩ := mem_map.1 hmem
    simpa using (hinside range hrange).below
  obtain ⟨listed, hperm, hlisted⟩ := subperm_of_subset hnodup hsub
  let reach (k : Nat) := (axes.getD k default).len * (axes.getD k default).stride
  have hself : (List.range axes.length).map reach = axes.map fun axis => axis.len * axis.stride := by
    refine ext_getElem (by simp) fun i hi hi' => ?_
    have hbelow : i < axes.length := by simpa using hi
    simp [reach, hbelow]
  rw [sliceStart, Word.total_eq_sum, Word.total_eq_sum]
  calc (ranges.map fun range => range.first * axes.strides.getD range.axis 0).sum
      ≤ (ranges.map fun range => reach range.axis).sum := by
        refine sum_le_sum fun range hmem => ?_
        obtain ⟨hbelow, hordered, hlast⟩ := hinside range hmem
        rw [Layout.length_lens] at hbelow
        simp only [Layout.lens, getElem_map] at hlast
        simp only [reach, Layout.strides]
        simpa [hbelow] using Nat.mul_le_mul_right _ (Nat.le_trans hordered hlast)
    _ = (listed.map reach).sum := by
        have hsame := (hperm.map reach).sum_eq
        rw [hsame, map_map]
        rfl
    _ ≤ ((List.range axes.length).map reach).sum := (hlisted.map reach).sum_le_sum (by simp)
    _ = _ := by rw [hself]

namespace Operator

/-- A slice of different axes that inference accepts can be had in the inferred shape. It holds what
its input holds further up, inside the input. -/
theorem slice_evaluates {axes : List Nat} {starts ends : List Int} {a : Tensor α} {out : Shape}
    (hdistinct : axes.Nodup) (hvalid : a.Valid) (hword : ∀ len ∈ a.lens, len < Word.limit)
    (hsmall : Word.total (a.shape.axes.map fun axis => axis.len * axis.stride) < Word.limit)
    (hinfer : (slice axes starts ends : Operator α).infer [a.shape] [] = .ok out) :
    ∃ t, (slice axes starts ends).evaluate out [a] [] = .ok t ∧ t.shape = out ∧
      ∀ index, InRange index out.lens → InRange (movedUp a.lens axes starts index) a.lens ∧
        ∃ value, t.get index = .ok value ∧ a.get (movedUp a.lens axes starts index) = .ok value := by
  obtain ⟨elem, layout, ranges, hs, hranges, rfl⟩ := Inference.sliceShape_iff.1 hinfer
  have hshape : a.shape = .strided elem layout := (List.cons.inj hs).1
  have hlens := Tensor.lens_of_shape hshape
  obtain ⟨haxes, hinside⟩ := sliceRanges_eq_ok hranges
  have hnodup : (ranges.map (·.axis)).Nodup := haxes ▸ hdistinct
  have hstart : sliceStart layout ranges < Word.limit := by
    rw [hshape, Shape.axes_strided] at hsmall
    exact Nat.lt_of_le_of_lt (sliceStart_le hnodup hinside) hsmall
  have hcomputes := Evaluation.computes_slice hvalid hdistinct hshape hranges
  obtain ⟨t, hrun⟩ := hcomputes.exists_iff.2 ⟨hstart, trivial⟩
  have hholds := hcomputes.holds hrun
  refine ⟨t, hrun, hholds.shape_eq, fun index hrange => ?_⟩
  rw [hlens] at hword ⊢
  have hsource := (traces_slice hnodup hinside index hrange).1
  rw [← Shape.lens_strided elem layout, ← sliceSource_eq_movedUp hranges hword index]
  refine ⟨hsource, _, hholds.valid.get_eq hholds.shape_eq hrange, ?_⟩
  rw [hvalid.get_eq hshape hsource, hholds.reading_eq]
  exact congrArg _ (if_pos hrange).symm

/-- Two rows of three entries, stored by columns. -/
def storedByColumns : Tensor Float32 := .strided .float32 [⟨2, 1⟩, ⟨3, 2⟩] #[1, 4, 2, 5, 3, 6]

theorem slice_evaluates_storedByColumns :
    ∃ t, (slice [1, 0] [-2, 1] [9, 2]).evaluate (.strided .float32 [⟨1, 1⟩, ⟨2, 2⟩])
        [storedByColumns] [] = .ok t ∧
      ∃ value, t.get [0, 1] = .ok value ∧ storedByColumns.get [1, 2] = .ok value := by
  have hinfer : (slice [1, 0] [-2, 1] [9, 2] : Operator Float32).infer [storedByColumns.shape] [] =
      .ok (.strided .float32 [⟨1, 1⟩, ⟨2, 2⟩]) := by rfl
  obtain ⟨t, hrun, -, hentries⟩ := slice_evaluates (by decide) (.strided rfl (by decide)) (by decide)
    (by decide) hinfer
  exact ⟨t, hrun, (hentries [0, 1] (by decide)).2⟩

/-- The second half of four entries, with its axis listed twice. -/
theorem not_slice_evaluates :
    ¬ ∀ (axes : List Nat) (starts ends : List Int) (a : Tensor Float32) (out : Shape), a.Valid →
      (∀ len ∈ a.lens, len < Word.limit) →
      Word.total (a.shape.axes.map fun axis => axis.len * axis.stride) < Word.limit →
      (slice axes starts ends : Operator Float32).infer [a.shape] [] = .ok out →
      ∃ t, (slice axes starts ends).evaluate out [a] [] = .ok t := by
  intro hclaim
  obtain ⟨t, hrun⟩ := hclaim [0, 0] [2, 2] [4, 4] (.strided .float32 [⟨4, 1⟩] #[1, 2, 3, 4])
    (.strided .float32 [⟨2, 1⟩]) (.strided rfl (by decide)) (by decide) (by decide) rfl
  cases hrun

end Operator

end TensorGraph
