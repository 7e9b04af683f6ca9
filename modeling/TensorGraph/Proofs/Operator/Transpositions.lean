import TensorGraph.Proofs.Einsum.Labels
import TensorGraph.Scalar.Binary32

/-!
# Transpositions

The axis orders of one rank form a group, and transposing acts by it.
-/

namespace TensorGraph

open Inference List

namespace Permutation

/-- An axis order is undone by its inverse, from both sides. -/
theorem exists_inverse_of_isPermutation {order : List Nat} (hperm : isPermutation order = true) :
    ∃ back, inverse order = .ok back ∧ isPermutation back = true ∧
      back.length = order.length ∧ reorder order back = .ok (List.range order.length) ∧
      reorder back order = .ok (List.range order.length) := by
  obtain ⟨back, hinverse, hundone⟩ := exists_inverse (perm_range_of_isPermutation hperm)
  have hlength : back.length = order.length := by
    simpa using (reorder_eq_ok_iff.1 hundone).length_eq
  have hback := isPermutation_of_reorder hundone nodup_range hlength
  refine ⟨back, hinverse, hback, hlength, hundone, ?_⟩
  -- The inverse of the inverse is what the order becomes after both.
  obtain ⟨again, -, hredone⟩ := exists_inverse (perm_range_of_isPermutation hback)
  have hbelow : ∀ i ∈ again, i < order.length := by
    intro i hi
    obtain ⟨_, -, hfound⟩ := exists_mem_right_of_forall₂ (reorder_eq_ok_iff.1 hredone) hi
    exact hlength ▸ (List.getElem?_eq_some_iff.1 hfound).1
  have hagain := reorder_reorder hundone (reorder_range_of_lt hbelow) hredone
  rw [hlength, reorder_range, Except.ok.injEq] at hagain
  rw [← hlength, hagain]
  exact hredone

end Permutation

variable {α : Type}

/-- A tensor whose entries are those of another one, each at the reordered index. -/
structure Tensor.Reordered (order : List Nat) (a t : Tensor α) : Prop where
  lens_eq : Permutation.reorder a.lens order = .ok t.lens
  get_eq : ∀ index, InRange index a.lens → ∃ moved value,
    Permutation.reorder index order = .ok moved ∧ InRange moved t.lens ∧
      a.get index = .ok value ∧ t.get moved = .ok value

variable [Scalar α] {elem : ElementType} {axes : Layout} {data : Array α}

namespace Operator

/-- Every axis order of the right rank can be applied. -/
theorem exists_transpose (hvalid : (Tensor.strided elem axes data).Valid) {order : List Nat}
    (hperm : Permutation.isPermutation order = true) (hlength : order.length = axes.length) :
    ∃ moved, Permutation.reorder axes order = .ok moved ∧ moved.length = axes.length ∧
      (Tensor.strided elem moved data).Valid ∧
      (transpose order).apply [.strided elem axes data] [] = .ok (.strided elem moved data) ∧
      Tensor.Reordered order (.strided elem axes data) (.strided elem moved data) := by
  obtain ⟨moved, hmoved, hsame⟩ := Permutation.exists_reorder hperm hlength
  have hrun := (transpose_apply_eq_ok_iff hvalid).2
    ⟨elem, axes, data, moved, rfl, hperm, hlength, hmoved, rfl⟩
  obtain ⟨out, hinfer, hvalue⟩ := apply_eq_ok_iff.1 hrun
  have hfollows := @transpose_follows α _ order _ [] _ out (by simpa using hvalid) hinfer
  have hholds := Computes.holds hfollows hvalue
  have hlens : Permutation.reorder axes.lens order = .ok (Layout.lens moved) := reorder_lens hmoved
  refine ⟨moved, hmoved, hsame.length_eq, hholds.valid, hrun, hlens, fun index hrange => ?_⟩
  rw [Tensor.lens_of_shape rfl] at hrange
  have hlength' : order.length = index.length := by
    rw [hlength, hrange.length_eq, Layout.length_lens]
  obtain ⟨index', hindex, -⟩ := Permutation.exists_reorder hperm hlength'
  have hrange' : InRange index' (Layout.lens moved) := inRange_reorder hrange hindex hlens
  refine ⟨index', _, hindex, hrange', hvalid.get_eq rfl hrange, ?_⟩
  rw [hholds.get_eq (hholds.shape_eq ▸ hrange')]
  show Except.ok (Tensor.reading _ |>.value (unpermute order index')) = _
  rw [unpermute_of_reorder hperm hlength' hindex]

/-- Transpositions compose in the order in which their axis orders do, and are undone by inverse axis
orders. -/
theorem transpose_composes {first second : List Nat} {a : Tensor α} (hvalid : a.Valid)
    (hshape : a.shape = .strided elem axes) (hfirst : Permutation.isPermutation first = true)
    (hsecond : Permutation.isPermutation second = true) (hrank : first.length = axes.length)
    (hrank' : second.length = axes.length) :
    (∀ order, Permutation.isPermutation order = true ↔ order.Perm (List.range order.length)) ∧
      ∃ t u composed back, (transpose first).apply [a] [] = .ok t ∧ a.Reordered first t ∧
        (transpose second).apply [t] [] = .ok u ∧
        Permutation.reorder first second = .ok composed ∧
        (transpose composed).apply [a] [] = .ok u ∧
        Permutation.inverse first = .ok back ∧ (transpose back).apply [t] [] = .ok a ∧
        Permutation.reorder first back = .ok (List.range first.length) ∧
        Permutation.reorder back first = .ok (List.range first.length) := by
  refine ⟨fun _ => Permutation.isPermutation_iff_perm, ?_⟩
  rw [Tensor.eq_strided_of_shape hshape] at hvalid ⊢
  obtain ⟨moved, hmoved, hlength, hvalid', hrun, hreordered⟩ := exists_transpose hvalid hfirst hrank
  obtain ⟨turned, hturned, -, -, hrun', -⟩ :=
    exists_transpose hvalid' hsecond (hrank'.trans hlength.symm)
  obtain ⟨composed, hcomposed, -⟩ :=
    Permutation.exists_reorder hsecond (hrank'.trans hrank.symm)
  obtain ⟨hperm, hcount⟩ :=
    Permutation.isPermutation_reorder hfirst hsecond (hrank'.trans hrank.symm) hcomposed
  obtain ⟨back, hinverse, hback, hcount', hundone, hredone⟩ :=
    Permutation.exists_inverse_of_isPermutation hfirst
  obtain ⟨restored, hrestored, -⟩ :=
    Permutation.exists_reorder hback (hcount'.trans (hrank.trans hlength.symm))
  have hsame := Permutation.reorder_reorder hmoved hrestored hundone
  rw [hrank, Permutation.reorder_range, Except.ok.injEq] at hsame
  refine ⟨_, _, composed, back, hrun, hreordered, hrun', hcomposed, ?_, hinverse, ?_, hundone, hredone⟩
  · exact (transpose_apply_eq_ok_iff hvalid).2 ⟨elem, axes, _, turned, rfl, hperm, hcount.trans hrank,
      Permutation.reorder_reorder hmoved hturned hcomposed, rfl⟩
  · exact (transpose_apply_eq_ok_iff hvalid').2 ⟨elem, moved, _, restored, rfl, hback,
      hcount'.trans (hrank.trans hlength.symm), hrestored, by rw [hsame]⟩

/-- Two layers of three rows of one entry, with the layers innermost in the buffer. -/
def layeredRows : Tensor Float32 :=
  .strided .float32 [⟨2, 1⟩, ⟨3, 2⟩, ⟨1, 0⟩] #[1, 2, 3, 4, 5, 6]

theorem transpose_composes_layeredRows :
    ∃ t u, (transpose [1, 2, 0]).apply [layeredRows] [] = .ok t ∧
      (transpose [0, 2, 1]).apply [t] [] = .ok u ∧
      (transpose [1, 0, 2]).apply [layeredRows] [] = .ok u ∧
      (transpose [2, 0, 1]).apply [t] [] = .ok layeredRows := by
  have hvalid : layeredRows.Valid := .strided rfl (by decide)
  obtain ⟨-, t, u, composed, back, hrun, -, hrun', hcomposed, hboth, hinverse, hundone, -⟩ :=
    @transpose_composes Float32 _ .float32 _ [1, 2, 0] [0, 2, 1] layeredRows hvalid rfl (by decide)
      (by decide) rfl rfl
  obtain rfl : [1, 0, 2] = composed := Except.ok.inj hcomposed
  obtain rfl : [2, 0, 1] = back := Except.ok.inj hinverse
  exact ⟨t, u, hrun, hrun', hboth, hundone⟩

end Operator

end TensorGraph
