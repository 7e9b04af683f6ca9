import TensorGraph.Proofs.Operator.Peers
import TensorGraph.Scalar.Binary32

/-!
# What tensors list

A tensor is seen from outside by its element type, its lengths and the list of its values. An operator
gives results that look the same on tensors that look the same.
-/

namespace TensorGraph

open List

variable {α : Type} [Scalar α]

/-- Tensors of one element type and the same lengths with the same listing. Listing can fault in the
one layout and not in the other, but not for moderate lengths. -/
structure Tensor.SameValues (t u : Tensor α) : Prop where
  elem_eq : u.shape.elem = t.shape.elem
  lens_eq : u.lens = t.lens
  toList_eq : ∀ ⦃values⦄, t.toList = .ok values →
    Delivers (Moderate t.lens) (fun values' => values' = values) u.toList

theorem Tensor.Twin.sameValues {t u : Tensor α} (htwin : t.Twin u) : t.SameValues u := by
  refine ⟨htwin.alike.elem_eq.symm, htwin.alike.lens_eq.symm, fun values hvalues => ?_⟩
  obtain ⟨halike, hvalid, hvalid'⟩ := htwin
  have hreading := halike.reading_eq
  have hlens := halike.lens_eq
  cases halike with
  | tuple =>
    rw [hvalues]
    exact .ok rfl
  | @strided elem elem' axes axes' data data' _ =>
    have hlens' : axes.lens = axes'.lens := hlens
    refine ⟨fun hvalues' => ?_, fun hmoderate => ?_⟩
    · rw [hvalid.toList_eq hvalues, hvalid'.toList_eq hvalues', ← hlens']
      refine map_congr_left fun index hmem => ?_
      have hrange := mem_indices_iff.1 hmem
      have hrange' : InRange index axes'.lens := hlens' ▸ hrange
      have hvalue := congrArg (fun r => Reading.value r index) hreading
      rw [Tensor.value_reading hrange, Tensor.value_reading hrange'] at hvalue
      exact hvalue.symm
    · exact hvalid'.exists_toList (hlens' ▸ hmoderate)

/-- Tensors of which every part is small enough to be listed. -/
inductive Tensor.Listable : Tensor α → Prop
  | strided {elem : ElementType} {axes : Layout} {data : Array α} (hmoderate : Moderate axes.lens) :
      Listable (.strided elem axes data)
  | tuple {parts : List (Tensor α)} (hparts : ∀ part ∈ parts, Listable part) : Listable (.tuple parts)

/-- Tensors of the same form with the same listing. Listing can fault in the one layout and not in the
other, but not where every part is small enough. -/
structure Tensor.SameListing (t u : Tensor α) : Prop where
  form_eq : u.shape.form = t.shape.form
  toList_eq : ∀ ⦃values⦄, t.toList = .ok values →
    Delivers t.Listable (fun values' => values' = values) u.toList

omit [Scalar α] in
theorem Tensor.toLists_sameListing {parts parts' : List (Tensor α)}
    (hparts : Forall₂ Tensor.SameListing parts parts') {values : List α}
    (hvalues : toLists parts = .ok values) :
    Delivers (∀ part ∈ parts, part.Listable) (fun values' => values' = values) (toLists parts') := by
  induction hparts generalizing values with
  | nil =>
    cases hvalues
    exact .ok rfl
  | cons hfirst _ ih =>
    obtain ⟨first, hlist, hrun⟩ := bind_eq_ok_iff.1 hvalues
    obtain ⟨rest, hrest, hpure⟩ := bind_eq_ok_iff.1 hrun
    cases hpure
    rw [forall_mem_cons]
    refine ((hfirst.toList_eq hlist).mono And.left fun _ heq => heq).bind fun _ heq => ?_
    refine ((ih hrest).mono And.right fun _ heq => heq).bind fun _ heq' => ?_
    rw [heq, heq']
    exact .ok rfl

theorem Tensor.Peer.sameListing {t u : Tensor α} (hpeer : t.Peer u) : t.SameListing u := by
  refine ⟨hpeer.form_eq, ?_⟩
  induction hpeer with
  | strided htwin =>
    intro values hvalues
    refine (htwin.sameValues.toList_eq hvalues).mono ?_ fun _ heq => heq
    rintro ⟨hmoderate⟩
    exact hmoderate
  | @tuple parts parts' hlength hparts ih =>
    intro values hvalues
    have hsame : Forall₂ SameListing parts parts' :=
      forall₂_iff_zip.2 ⟨hlength, fun hmem => ⟨(hparts hmem).form_eq, ih hmem⟩⟩
    refine (toLists_sameListing hsame hvalues).mono ?_ fun _ heq => heq
    rintro ⟨hlistable⟩
    assumption

namespace Tensor

/-- Tensors of one element type, the same lengths and the same values, or tuples of such. -/
inductive Agrees : Tensor α → Tensor α → Prop
  | strided {elem : ElementType} {axes axes' : Layout} {data data' : Array α} {values : List α}
      (hlens : axes'.lens = axes.lens) (hvalues : (Tensor.strided elem axes data).toList = .ok values)
      (hvalues' : (Tensor.strided elem axes' data').toList = .ok values) :
      Agrees (.strided elem axes data) (.strided elem axes' data')
  | tuple {parts parts' : List (Tensor α)} (hlength : parts.length = parts'.length)
      (hparts : ∀ {a b}, (a, b) ∈ parts.zip parts' → Agrees a b) :
      Agrees (.tuple parts) (.tuple parts')

theorem Agrees.peer {t u : Tensor α} (hagrees : t.Agrees u) (hvalid : t.Valid) (hvalid' : u.Valid) :
    t.Peer u := by
  induction hagrees with
  | @strided elem axes axes' data data' values hlens hvalues hvalues' =>
    refine .strided ⟨.strided ?_, hvalid, hvalid'⟩
    have hsame := (hvalid.toList_eq hvalues).symm.trans (hvalid'.toList_eq hvalues')
    rw [hlens, map_inj_left] at hsame
    exact Reading.of_congr rfl hlens.symm fun index hrange => hsame index (mem_indices_iff.2 hrange)
  | tuple hlength hparts ih =>
    cases hvalid with
    | tuple hall =>
      cases hvalid' with
      | tuple hall' =>
        refine .tuple hlength fun hmem => ?_
        have hzip := of_mem_zip hmem
        exact ih hmem (hall _ hzip.1) (hall' _ hzip.2)

end Tensor

namespace Operator

omit [Scalar α] in
theorem lift_ne_refusal {β : Type} (computed : Checked β) (cause : EvalError) :
    (liftM computed : Outcome EvalError β) ≠ .error (.refusal cause) := by
  cases computed <;> exact nofun

/-- An operator without modules refuses nothing where it might fault in another layout. -/
theorem evaluate_ne_refusal {op : Operator α} {inputs : List (Tensor α)} {out : Shape}
    {lens : List Nat} (hroomy : ¬ op.Roomy lens)
    (hinfer : op.infer (Tensor.shapes inputs) [] = .ok out) (cause : EvalError) :
    op.evaluate out inputs [] ≠ .error (.refusal cause) := by
  cases op with
  | contiguous =>
    obtain ⟨s, hs, -⟩ := contiguousShape_iff.1 hinfer
    obtain ⟨a, rfl, -⟩ := Tensor.exists_of_shapes_eq_one hs
    exact lift_ne_refusal a.contiguous cause
  | slice axes starts ends =>
    obtain ⟨elem, layout, ranges, hs, hranges, -⟩ := Inference.sliceShape_iff.1 hinfer
    obtain ⟨a, rfl, hshape⟩ := Tensor.exists_of_shapes_eq_one hs
    change Evaluation.sliceValue _ axes starts ends out a ≠ _
    rw [Evaluation.sliceValue, hshape, Outcome.liftShape_eq_ok_iff.2 hranges, ok_bind]
    cases Evaluation.sliceOffset (.strided elem layout) ranges with
    | error fault => exact nofun
    | ok offset => exact lift_ne_refusal (a.offsetView offset out) cause
  | pointwise =>
    have hpointwise : Inference.pointwiseShape _ (Tensor.shapes inputs) [] = .ok out := hinfer
    obtain ⟨_, _, hsignatures, -⟩ := Inference.pointwiseShape_eq_ok hpointwise
    cases hsignatures
  | _ => exact absurd trivial hroomy

/-- A matrix of two equal rows that stores one. -/
def repeatedRow : Tensor Float32 := .strided .float32 [⟨2, 0⟩, ⟨2, 1⟩] #[1, 2]

/-- The same matrix by columns, in a buffer that is too long. -/
def equalRows : Tensor Float32 := .strided .float32 [⟨2, 1⟩, ⟨2, 2⟩] #[1, 1, 2, 2, 7]

end Operator

end TensorGraph
