import TensorGraph.Proofs.Operator.AxisOrders

/-!
# Voting on an axis order

The elected order has the highest standing in a linear order, so it does not matter in which order the
votes are counted.
-/

namespace TensorGraph

open List

namespace Layout

variable {lens order : List Nat} {cause : Fault}

theorem foldrM_placeAxis_eq_error (hbelow : ∀ axis ∈ order, axis < lens.length)
    (hrun : order.foldrM (placeAxis lens) (List.replicate lens.length 0, 1) = .error cause) :
    cause = .overflow := by
  induction order with
  | nil => cases hrun
  | cons axis order ih =>
    rw [forall_mem_cons] at hbelow
    rw [foldrM_cons] at hrun
    cases hinner : order.foldrM (placeAxis lens) (List.replicate lens.length 0, 1) with
    | error _ =>
      rw [hinner] at hrun
      cases hrun
      exact ih hbelow.2 hinner
    | ok inner =>
      rw [hinner, ok_bind, placeAxis, fetch_of_lt hbelow.1, ok_bind, Word.mul, Word.ofNat] at hrun
      split_ifs at hrun <;> cases hrun
      rfl

/-- In an order that names every axis once, only a product that does not fit stops the layout. -/
theorem permuted_eq_error (hperm : order.Perm (List.range lens.length))
    (hrun : permuted lens order = .error cause) : cause = .overflow := by
  have hlength : order.length = lens.length := by simpa using hperm.length_eq
  have hcheck : Permutation.isPermutation order = true :=
    Permutation.isPermutation_iff_perm.2 (by rwa [hlength])
  rw [permuted, if_pos (by simp [hcheck, hlength])] at hrun
  cases hplaced : order.foldrM (placeAxis lens) (List.replicate lens.length 0, 1) with
  | ok placed =>
    rw [hplaced] at hrun
    cases hrun
  | error _ =>
    rw [hplaced] at hrun
    cases hrun
    exact foldrM_placeAxis_eq_error (fun axis hmem => mem_range.1 (hperm.subset hmem)) hplaced

end Layout

namespace Shape

variable {votes votes' : List (List Nat)} {order : List Nat} {shapes shapes' : List Shape}

theorem standing_injective (votes : List (List Nat)) : Function.Injective (standing votes) :=
  fun _ _ hsame => (Prod.ext_iff.1 (toLex_inj.1 hsame)).2

theorem elect_eq_some_iff :
    elect votes = some order ↔
      order ∈ votes ∧ ∀ other ∈ votes, standing votes other ≤ standing votes order := by
  rw [elect_eq_argmax, argmax_eq_some_iff]
  refine and_congr_right fun _ => and_iff_left_of_imp fun hhighest other hother hle => ?_
  rw [standing_injective votes (le_antisymm (hhighest other hother) hle)]

/-- The order in which votes are counted does not matter. -/
theorem elect_of_perm (hperm : votes.Perm votes') : elect votes = elect votes' := by
  have hstanding : standing votes = standing votes' :=
    funext fun order => by rw [standing, standing, hperm.count_eq]
  refine Option.ext fun order => ?_
  rw [elect_eq_some_iff, elect_eq_some_iff, hstanding]
  simp only [hperm.mem_iff]

/-- An order with more than half of the votes is elected. -/
theorem elect_of_majority (hmajority : votes.length < 2 * votes.count order) :
    elect votes = some order := by
  refine elect_eq_some_iff.2 ⟨count_pos_iff.1 (by omega), fun other _ => ?_⟩
  rcases eq_or_ne other order with rfl | hne
  · exact le_rfl
  · -- A vote for another order is not one for this order.
    have hothers : votes.count other ≤ votes.countP fun vote => decide ¬ (vote == order) = true :=
      countP_mono_left fun vote _ hvote => by
        obtain rfl := beq_iff_eq.1 hvote
        simpa using hne
    have hall : votes.length = votes.count order + _ := length_eq_countP_add_countP (· == order)
    have hfewer : votes.count other < votes.count order := by omega
    exact (Prod.Lex.toLex_lt_toLex.2 (.inl hfewer)).le

/-- Shapes of one rank have a common axis order that does not depend on how they are listed. -/
theorem commonAxisOrder_of_perm (hperm : shapes.Perm shapes')
    (hrank : ∀ s ∈ shapes, ∀ t ∈ shapes, s.rank = t.rank) :
    commonAxisOrder shapes = commonAxisOrder shapes' := by
  cases shapes with
  | nil => rw [hperm.nil_eq]
  | cons first rest =>
    cases shapes' with
    | nil => cases hperm.eq_nil
    | cons first' rest' =>
      have hfirst := hrank first mem_cons_self first' (hperm.mem_iff.2 mem_cons_self)
      simp only [commonAxisOrder, hfirst, elect_of_perm ((hperm.filter _).map axisOrder)]

theorem commonAxisOrder_of_majority
    (hmajority : (shapes.filter fun s => !s.broadcasted).length <
      2 * ((shapes.filter fun s => !s.broadcasted).map axisOrder).count order) :
    commonAxisOrder shapes = order := by
  cases shapes with
  | nil => cases hmajority
  | cons first rest =>
    rw [← length_map axisOrder] at hmajority
    simp only [commonAxisOrder, elect_of_majority hmajority, Option.getD_some]

end Shape

namespace Inference

variable {op : String} {inputs inputs' : List Shape} {out : Shape} {cause : Fault}

theorem elementwiseShape_of_perm (hperm : inputs.Perm inputs')
    (hinfer : elementwiseShape op inputs = .ok out) : elementwiseShape op inputs' = .ok out := by
  rcases elementwiseShape_cases op inputs with
    ⟨cause, hrefused⟩ | ⟨hdynamic, elem, dims, hsame⟩ | ⟨hne, elem, lens, hshapes⟩
  · cases hrefused.symm.trans hinfer
  · rw [elementwiseShape_of_dynamic hdynamic hsame] at hinfer
    rwa [elementwiseShape_of_dynamic (hperm.any_eq ▸ hdynamic) fun s hmem =>
      hsame s (hperm.mem_iff.2 hmem)]
  · have hrank : ∀ s ∈ inputs, s.rank = lens.length := by
      intro s hmem
      obtain ⟨axes, rfl, rfl⟩ := hshapes s hmem
      exact (Layout.length_lens axes).symm
    rw [elementwiseShape_of_strided hne hshapes, Shape.commonAxisOrder_of_perm hperm fun s hs t ht =>
      (hrank s hs).trans (hrank t ht).symm] at hinfer
    rwa [elementwiseShape_of_strided (fun heq => hne (heq ▸ hperm).eq_nil) fun s hmem =>
      hshapes s (hperm.mem_iff.2 hmem)]

theorem elementwiseShape_eq_fault (hinfer : elementwiseShape op inputs = .fault cause) :
    cause = .overflow := by
  rcases elementwiseShape_cases op inputs with
    ⟨cause, hrefused⟩ | ⟨hdynamic, elem, dims, hsame⟩ | ⟨hne, elem, lens, hshapes⟩
  · cases hrefused.symm.trans hinfer
  · cases (elementwiseShape_of_dynamic hdynamic hsame).symm.trans hinfer
  · rw [elementwiseShape_of_strided hne hshapes, Shape.permuted] at hinfer
    have hperm : (Shape.commonAxisOrder inputs).Perm (List.range lens.length) := by
      refine Shape.commonAxisOrder_perm hne fun s hmem => ?_
      obtain ⟨axes, hs, hlens⟩ := hshapes s hmem
      exact ⟨elem, axes, hs, by rw [← hlens, Layout.length_lens]⟩
    cases hrun : Layout.permuted lens (Shape.commonAxisOrder inputs) with
    | ok axes =>
      rw [hrun] at hinfer
      cases hinfer
    | error _ =>
      rw [hrun] at hinfer
      cases hinfer
      exact Layout.permuted_eq_error hperm hrun

/-- The result of an elementwise operator does not depend on the order of its operands. Their axis
order is always one of as many axes as they have, so that nothing but an overflow stops the layout. If
more than half of the operands without a zero stride share an axis order, the result is the dense
layout in that order. -/
theorem elementwiseShape_by_vote (op : String) (inputs : List Shape) :
    (∀ inputs', inputs.Perm inputs' → ∀ out,
      elementwiseShape op inputs = .ok out ↔ elementwiseShape op inputs' = .ok out) ∧
    (∀ cause, elementwiseShape op inputs = .fault cause → cause = .overflow) ∧
    ∀ elem lens order, (∀ s ∈ inputs, ∃ axes, s = .strided elem axes ∧ axes.lens = lens) →
      (inputs.filter fun s => !s.broadcasted).length <
        2 * ((inputs.filter fun s => !s.broadcasted).map Shape.axisOrder).count order →
      elementwiseShape op inputs = liftM (Shape.permuted elem lens order) ∧
        ∀ out, elementwiseShape op inputs = .ok out → out.IsDense elem lens := by
  refine ⟨fun inputs' hperm out => ⟨elementwiseShape_of_perm hperm,
    elementwiseShape_of_perm hperm.symm⟩, fun cause => elementwiseShape_eq_fault, ?_⟩
  intro elem lens order hshapes hmajority
  have hne : inputs ≠ [] := by
    rintro rfl
    cases hmajority
  rw [elementwiseShape_of_strided hne hshapes, Shape.commonAxisOrder_of_majority hmajority]
  exact ⟨rfl, fun out hout => Shape.isDense_of_permuted (Outcome.lift_eq_ok_iff.1 hout)⟩

/-- Three rows and two columns, with these strides. -/
def matrix (row column : Nat) : Shape := .strided .float32 [⟨3, row⟩, ⟨2, column⟩]

/-- Two operands in column order outvote one in row order; the one with a zero stride has no vote. -/
theorem elementwiseShape_by_vote_matrix :
    elementwiseShape "add" [matrix 2 1, matrix 1 3, matrix 0 1, matrix 1 3] = .ok (matrix 1 3) ∧
      elementwiseShape "add" [matrix 1 3, matrix 0 1, matrix 1 3, matrix 2 1] = .ok (matrix 1 3) := by
  obtain ⟨hperm, -, hmajority⟩ :=
    elementwiseShape_by_vote "add" [matrix 2 1, matrix 1 3, matrix 0 1, matrix 1 3]
  have hshapes (row column : Nat) :
      ∃ axes, matrix row column = .strided .float32 axes ∧ axes.lens = [3, 2] := ⟨_, rfl, rfl⟩
  have hcolumns := (hmajority .float32 [3, 2] [1, 0] (by simp [hshapes]) (by decide)).1
  exact ⟨hcolumns, (hperm _ (by decide) _).1 hcolumns⟩

end Inference

end TensorGraph
