import Mathlib.Data.List.Lex
import Mathlib.Data.List.MinMax
import Mathlib.Data.Prod.Lex
import TensorGraph.Proofs.Operator.Inference

/-!
# Axis orders

A layout is walked from its largest stride to its smallest. Where several operands vote on an axis order,
those with a stride of zero have no vote.
-/

namespace TensorGraph

open List

/-- Sorting changes nothing where all is in order. -/
theorem sorted_of_pairwise {β : Type} {le : β → β → Bool} {items : List β}
    (hsorted : items.Pairwise fun a b => le a b = true) : sorted le items = items := by
  induction items with
  | nil => rfl
  | cons item rest ih =>
    obtain ⟨hfirst, hrest⟩ := pairwise_cons.1 hsorted
    rw [sorted, ih hrest]
    cases rest with
    | nil => rfl
    | cons next rest => rw [insertSorted, if_pos (hfirst next mem_cons_self)]

namespace Layout

variable {axes : Layout} {lens : List Nat}

theorem axisOrder_perm (axes : Layout) : axes.axisOrder.Perm (List.range axes.length) := by
  have hsorted := (sorted_perm (fun (a b : Axis × Nat) => decide (b.1.stride ≤ a.1.stride))
    axes.zipIdx).map (·.2)
  rwa [zipIdx_map_snd, ← range_eq_range'] at hsorted

/-- Strides do not grow along the axis order. -/
theorem pairwise_axisOrder (axes : Layout) :
    (axes.axisOrder.map (axes.getD · default)).Pairwise fun a b => b.stride ≤ a.stride := by
  have hwalk : axes.axisOrder.map (axes.getD · default) =
      (sorted (fun a b => decide (b.1.stride ≤ a.1.stride)) axes.zipIdx).map (·.1) := by
    rw [axisOrder, map_map]
    refine map_congr_left fun entry hmem => ?_
    obtain ⟨hbelow, heq⟩ := mem_zipIdx' ((sorted_perm _ _).mem_iff.1 hmem)
    simp [heq, hbelow]
  rw [hwalk, pairwise_map]
  refine List.Pairwise.imp of_decide_eq_true (sorted_pairwise ?_ ?_ _)
  · intro a b
    simpa using Nat.le_total b.1.stride a.1.stride
  · intro a b c hab hbc
    rw [decide_eq_true_eq] at hab hbc ⊢
    exact Nat.le_trans hbc hab

/-- Axes whose strides do not grow are walked as they are listed. -/
theorem axisOrder_of_pairwise (hsorted : axes.Pairwise fun a b => b.stride ≤ a.stride) :
    axes.axisOrder = List.range axes.length := by
  have hpairs : axes.zipIdx.Pairwise fun a b => decide (b.1.stride ≤ a.1.stride) = true := by
    rw [← zipIdx_map_fst 0 axes, pairwise_map] at hsorted
    exact hsorted.imp decide_eq_true
  rw [axisOrder, sorted_of_pairwise hpairs, zipIdx_map_snd, ← range_eq_range']

theorem zero_mem_strides_rowMajor : 0 ∈ (rowMajor lens).strides ↔ 0 ∈ lens.tail := by
  induction lens with
  | nil => exact Iff.rfl
  | cons len lens ih =>
    rw [rowMajor, strides_cons, mem_cons, ih, eq_comm, volume_eq_zero_iff, tail_cons]
    exact or_iff_left_of_imp mem_of_mem_tail

/-- The strides of a row-major layout do not grow, unless an inner axis is empty. -/
theorem pairwise_rowMajor_iff :
    (rowMajor lens).Pairwise (fun a b => b.stride ≤ a.stride) ↔ 0 ∉ lens.tail := by
  induction lens with
  | nil => simp [rowMajor]
  | cons len lens ih =>
    rw [rowMajor, pairwise_cons, ih, tail_cons]
    cases lens with
    | nil => simp [rowMajor]
    | cons next lens =>
      rw [tail_cons, mem_cons, not_or]
      constructor
      · -- The stride of the axis behind is not zero, so that of the axis itself is not.
        rintro ⟨houter, hinner⟩
        have hle : volume lens ≤ volume (next :: lens) := houter _ mem_cons_self
        have hpos := Nat.lt_of_lt_of_le (volume_pos_iff.2 hinner) hle
        exact ⟨fun hzero => volume_pos_iff.1 hpos (hzero ▸ mem_cons_self), hinner⟩
      · rintro ⟨hnext, hinner⟩
        refine ⟨fun axis hmem => ?_, hinner⟩
        have hle : volume lens ≤ volume (next :: lens) :=
          Nat.le_mul_of_pos_left _ (Nat.pos_of_ne_zero (Ne.symm hnext))
        rcases mem_cons.1 hmem with rfl | hmem
        · exact hle
        · exact Nat.le_trans ((pairwise_cons.1 (ih.2 hinner)).1 axis hmem) hle

theorem permuted_range (hrun : permuted lens (List.range lens.length) = .ok axes) :
    axes = rowMajor lens := by
  obtain ⟨rfl, -, hrows⟩ := permuted_rows hrun
  rwa [map_getD_range, length_lens, map_getD_range] at hrows

/-- The axis order of a standard layout gives this layout again, unless an inner axis is empty. -/
theorem permuted_axisOrder_rowMajor (hrun : permuted lens (rowMajor lens).axisOrder = .ok axes) :
    axes = rowMajor lens ↔ 0 ∉ lens.tail := by
  constructor
  · rintro rfl
    obtain ⟨-, hperm, hrows⟩ := permuted_rows hrun
    have hsorted := pairwise_axisOrder (rowMajor lens)
    rw [hrows, pairwise_rowMajor_iff, ← zero_mem_strides_rowMajor, ← hrows] at hsorted
    have hsame := hperm.map ((rowMajor lens).getD · default)
    rw [← length_rowMajor lens, map_getD_range] at hsame
    rw [← zero_mem_strides_rowMajor]
    exact fun hzero => hsorted ((hsame.map Axis.stride).mem_iff.2 hzero)
  · intro hinner
    rw [axisOrder_of_pairwise (pairwise_rowMajor_iff.2 hinner), length_rowMajor] at hrun
    exact permuted_range hrun

end Layout

namespace Shape

@[simp]
theorem axisOrder_strided (elem : ElementType) (axes : Layout) :
    (strided elem axes).axisOrder = axes.axisOrder := by
  cases axes <;> rfl

/-- How an axis order stands in a vote: by its votes first, and among equals the lexicographically
first stands highest. -/
def standing (votes : List (List Nat)) (order : List Nat) : Nat ×ₗ (List Nat)ᵒᵈ :=
  toLex (votes.count order, OrderDual.toDual order)

theorem standing_lt_iff {votes : List (List Nat)} {order other : List Nat} :
    standing votes other < standing votes order ↔ outvotes votes order other = true := by
  simp [standing, outvotes, Prod.Lex.toLex_lt_toLex]

/-- The election is the search for the highest standing. -/
theorem elect_eq_argmax (votes : List (List Nat)) : elect votes = votes.argmax (standing votes) := by
  unfold elect argmax
  congr 1
  funext best order
  cases best with
  | none => rfl
  | some other => simp [argAux, standing_lt_iff]

/-- An elected order has been voted for. -/
theorem mem_of_elect {votes : List (List Nat)} {order : List Nat}
    (helect : elect votes = some order) : order ∈ votes :=
  argmax_mem (elect_eq_argmax votes ▸ helect)

/-- The common order is that of some shape, or there is no vote at all. -/
theorem commonAxisOrder_cases (first : Shape) (rest : List Shape) :
    commonAxisOrder (first :: rest) = List.range first.rank ∨
      ∃ s ∈ first :: rest, s.broadcasted = false ∧
        commonAxisOrder (first :: rest) = s.axisOrder := by
  unfold commonAxisOrder
  dsimp only
  cases helect : elect (((first :: rest).filter fun s => !s.broadcasted).map axisOrder) with
  | none => exact .inl rfl
  | some order =>
    obtain ⟨s, hmem, rfl⟩ := mem_map.1 (mem_of_elect helect)
    obtain ⟨hmem, hvotes⟩ := mem_filter.1 hmem
    exact .inr ⟨s, hmem, by simpa using hvotes, rfl⟩

theorem commonAxisOrder_perm {shapes : List Shape} {n : Nat} (hne : shapes ≠ [])
    (hshapes : ∀ s ∈ shapes, ∃ elem axes, s = .strided elem axes ∧ axes.length = n) :
    (commonAxisOrder shapes).Perm (List.range n) := by
  cases shapes with
  | nil => exact absurd rfl hne
  | cons first rest =>
    rcases commonAxisOrder_cases first rest with hnone | ⟨s, hmem, -, hsome⟩
    · obtain ⟨elem, axes, rfl, rfl⟩ := hshapes first mem_cons_self
      rw [hnone, rank_strided]
    · obtain ⟨elem, axes, rfl, rfl⟩ := hshapes s hmem
      rw [hsome, axisOrder_strided]
      exact axes.axisOrder_perm

theorem exists_permuted (elem : ElementType) {lens order : List Nat}
    (hperm : order.Perm (List.range lens.length)) (hpos : 0 ∉ lens)
    (hfits : volume lens < Word.limit) : ∃ out, permuted elem lens order = .ok out := by
  obtain ⟨axes, haxes⟩ := Layout.exists_permuted_of_pos hperm hpos hfits
  exact ⟨.strided elem axes, bind_eq_ok_iff.2 ⟨axes, haxes, rfl⟩⟩

theorem isStandard_iff_rowMajor {s : Shape} : s.isStandard = .ok true ↔
    ∃ elem lens, s = .strided elem (.rowMajor lens) ∧
      Layout.standard lens = .ok (.rowMajor lens) := by
  constructor
  · intro hstandard
    cases s with
    | strided elem axes =>
      have hself := Layout.isStandard_eq_ok_true_iff.1 hstandard
      have hrows := (Layout.standard_eq_ok_iff.1 hself).1
      exact ⟨elem, axes.lens, by rw [← hrows], by rwa [← hrows]⟩
    | ranged => cases hstandard
    | tuple => cases hstandard
  · rintro ⟨elem, lens, rfl, hself⟩
    exact Layout.isStandard_eq_ok_true_iff.2 (by rwa [Layout.lens_rowMajor])

/-- Standard shapes differ in element type or lengths. -/
theorem isStandard_iff_eq {s out : Shape} (hstandard : s.isStandard = .ok true)
    (helem : out.elem = s.elem) (hlens : out.lens = s.lens) :
    out.isStandard = .ok true ↔ out = s := by
  refine ⟨fun hout => ?_, fun heq => heq ▸ hstandard⟩
  obtain ⟨elem, lens, rfl, -⟩ := isStandard_iff_rowMajor.1 hstandard
  obtain ⟨elem', lens', rfl, -⟩ := isStandard_iff_rowMajor.1 hout
  simp only [elem_strided, lens_strided, Layout.lens_rowMajor] at helem hlens
  rw [helem, hlens]

end Shape

namespace Inference

variable {op : String} {inputs : List Shape} {out : Shape}

/-- A standard layout is packed, so its axis order is kept. -/
theorem unaryShape_of_rowMajor {elem : ElementType} {lens : List Nat}
    (hinfer : unaryShape op [.strided elem (.rowMajor lens)] = .ok out) :
    ∃ axes, out = .strided elem axes ∧
      Layout.permuted lens (Layout.rowMajor lens).axisOrder = .ok axes := by
  obtain ⟨s, hs, hrun⟩ := bind_eq_ok_iff.1 hinfer
  cases hs
  obtain ⟨_, -, hrun⟩ := bind_eq_ok_iff.1 hrun
  obtain ⟨packed, hpacked, hrun⟩ := bind_eq_ok_iff.1 hrun
  obtain ⟨count, hcount, hpacked⟩ := bind_eq_ok_iff.1 (Outcome.lift_eq_ok_iff.1 hpacked)
  obtain ⟨room, hroom, hpacked⟩ := bind_eq_ok_iff.1 hpacked
  rw [(Word.product_eq_ok_iff.1 hcount).1, (Layout.rowMajor_dense lens).space_eq_volume hroom,
    beq_self_eq_true] at hpacked
  cases hpacked
  obtain ⟨axes, haxes, hpure⟩ := bind_eq_ok_iff.1 (Outcome.lift_eq_ok_iff.1 hrun)
  cases hpure
  rw [Shape.lens_strided, Layout.lens_rowMajor, Shape.axisOrder_strided] at haxes
  exact ⟨axes, rfl, haxes⟩

/-- Standard operands give a standard result. -/
theorem elementwiseShape_of_standard (hstandard : ∀ s ∈ inputs, s.isStandard = .ok true)
    (hinfer : elementwiseShape op inputs = .ok out) : ∀ s ∈ inputs, out = s := by
  obtain ⟨first, rest, rfl, ⟨hdynamic, -⟩ | ⟨hsame, axes, rfl, haxes⟩⟩ :=
    elementwiseShape_eq_ok hinfer
  · obtain ⟨s, hmem, hdynamic⟩ := any_eq_true.1 hdynamic
    obtain ⟨elem, lens, rfl, -⟩ := Shape.isStandard_iff_rowMajor.1 (hstandard s hmem)
    cases hdynamic
  · have hrows : ∀ s ∈ first :: rest, s = .strided first.elem (.rowMajor first.lens) := by
      intro s hmem
      obtain ⟨layout, rfl, hlens⟩ := hsame s hmem
      obtain ⟨elem, lens, heq, -⟩ := Shape.isStandard_iff_rowMajor.1 (hstandard _ hmem)
      cases heq
      rw [← hlens, Layout.lens_rowMajor]
    have horder : Shape.commonAxisOrder (first :: rest) = List.range first.lens.length := by
      rcases Shape.commonAxisOrder_cases first rest with hnone | ⟨s, hmem, hvotes, hsome⟩
      · rw [hnone, hrows first mem_cons_self]
        simp
      · rw [hrows s hmem] at hvotes hsome
        have hinner : 0 ∉ first.lens.tail := by
          rw [← Layout.zero_mem_strides_rowMajor]
          simpa [Shape.broadcasted, Layout.broadcasted] using hvotes
        rw [hsome, Shape.axisOrder_strided,
          Layout.axisOrder_of_pairwise (Layout.pairwise_rowMajor_iff.2 hinner),
          Layout.length_rowMajor]
    rw [horder] at haxes
    intro s hmem
    rw [hrows s hmem, Layout.permuted_range haxes]

end Inference

namespace Operator

variable {α : Type}

/-- Elementwise operators keep lengths. Two standard operands give a standard result, and a single one
does unless an inner axis is empty. What a reshape makes of an operand it makes of the result if and
only if that is standard. -/
theorem infer_elementwise_standard {op : Operator α} {inputs : List Shape}
    {modules : List Signature} {out : Shape}
    (hop : (∃ fn, op = .unary fn) ∨ ∃ fn, op = .binary fn)
    (hstandard : ∀ s ∈ inputs, s.isStandard = .ok true)
    (hinfer : op.infer inputs modules = .ok out) :
    ∀ s ∈ inputs, out.lens = s.lens ∧
      (out.isStandard = .ok true ↔ (∃ fn, op = .binary fn) ∨ 0 ∉ s.lens.tail) ∧
      ∀ dims result, (reshape dims : Operator α).infer [s] [] = .ok result →
        ((reshape dims : Operator α).infer [out] [] = .ok result ↔ out.isStandard = .ok true) := by
  have hsame : ∀ s ∈ inputs, out.elem = s.elem ∧ out.lens = s.lens ∧
      (out = s ↔ (∃ fn, op = .binary fn) ∨ 0 ∉ s.lens.tail) := by
    rcases hop with ⟨fn, rfl⟩ | ⟨fn, rfl⟩
    · obtain ⟨s, rfl, -⟩ := Inference.unaryShape_eq_ok hinfer
      rw [forall_mem_singleton] at hstandard ⊢
      obtain ⟨elem, lens, rfl, -⟩ := Shape.isStandard_iff_rowMajor.1 hstandard
      obtain ⟨axes, rfl, haxes⟩ := Inference.unaryShape_of_rowMajor hinfer
      have hkept := Layout.permuted_axisOrder_rowMajor haxes
      simpa [Layout.permuted_eq_ok haxes] using hkept
    · obtain ⟨a, b, rfl, hrun⟩ := Inference.binaryShape_eq_ok hinfer
      intro s hmem
      have heq := Inference.elementwiseShape_of_standard hstandard hrun s hmem
      exact ⟨by rw [heq], by rw [heq], iff_of_true heq (.inl ⟨fn, rfl⟩)⟩
  intro s hmem
  obtain ⟨helem, hlens, heq⟩ := hsame s hmem
  have hkept := Shape.isStandard_iff_eq (hstandard s hmem) helem hlens
  refine ⟨hlens, hkept.trans heq, fun dims result hresult => ⟨fun haccepts => ?_, fun hout => ?_⟩⟩
  · obtain ⟨elem, axes, lens, hone, haxes, -⟩ := Inference.reshapeShape_eq_ok haccepts
    rw [(List.cons.inj hone).1]
    exact haxes
  · rwa [hkept.1 hout]

/-- Three rows without an entry. -/
def emptyRows : Shape := .strided .float32 [⟨3, 0⟩, ⟨0, 1⟩]

theorem standard_sum_emptyRows :
    (unary .neg : Operator Float32).infer [emptyRows] [] = .ok (.strided .float32 [⟨3, 1⟩, ⟨0, 3⟩]) ∧
      (Shape.strided .float32 [⟨3, 1⟩, ⟨0, 3⟩]).isStandard ≠ .ok true ∧
      ∃ out, (binary .add : Operator Float32).infer [emptyRows, emptyRows] [] = .ok out ∧
        out.isStandard = .ok true := by
  have hstandard : emptyRows.isStandard = .ok true := by decide
  have hone : (unary .neg : Operator Float32).infer [emptyRows] [] =
      .ok (.strided .float32 [⟨3, 1⟩, ⟨0, 3⟩]) := by rfl
  have htwo : (binary .add : Operator Float32).infer [emptyRows, emptyRows] [] = .ok emptyRows := by
    rfl
  refine ⟨hone, fun hkept => ?_, emptyRows, htwo, ?_⟩
  · have hiff := (infer_elementwise_standard (.inl ⟨_, rfl⟩) (by simpa using hstandard) hone emptyRows
      mem_cons_self).2.1
    exact absurd (hiff.1 hkept) (by simp [emptyRows, Layout.lens])
  · exact (infer_elementwise_standard (.inr ⟨_, rfl⟩) (by simpa using hstandard) htwo emptyRows
      mem_cons_self).2.1.2 (.inl ⟨_, rfl⟩)

/-- The result of one operand need not be standard. -/
theorem not_infer_elementwise_standard :
    ¬ ∀ (op : Operator Float32) (inputs : List Shape) (out : Shape),
      ((∃ fn, op = .unary fn) ∨ ∃ fn, op = .binary fn) →
      (∀ s ∈ inputs, s.isStandard = .ok true) → op.infer inputs [] = .ok out →
        out.isStandard = .ok true ∧ ∀ s ∈ inputs, out.lens = s.lens := by
  intro hclaim
  have hkept := hclaim (.unary .neg) [emptyRows] (.strided .float32 [⟨3, 1⟩, ⟨0, 3⟩]) (.inl ⟨_, rfl⟩)
    (by decide) rfl
  exact absurd hkept.1 (by decide)

end Operator

end TensorGraph
