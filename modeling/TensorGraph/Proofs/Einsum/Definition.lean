import Mathlib.Algebra.BigOperators.Group.Finset.Sigma
import Mathlib.Algebra.BigOperators.Ring.Finset
import TensorGraph.Einsum.Columns
import TensorGraph.Proofs.Tensor.Entries

/-!
# What an einsum means

The entry of the result at an index is the sum, over all points that agree with it on the labels of the
output, of the products of what the operands hold. Labels can be of any type.
-/

namespace TensorGraph

open List

/-! ## Sums over the values of labels -/

section Sums

variable {ι R : Type} [DecidableEq ι] [CommSemiring R] {label : ι} {values : List Nat}

/-- The sum over all values of these labels. -/
def sumOver (len : ι → Nat) : List ι → ((ι → Nat) → R) → (ι → Nat) → R
  | [], f, point => f point
  | label :: labels, f, point =>
    ∑ value ∈ Finset.range (len label), sumOver len labels f (Function.update point label value)

/-- A function of points does not look at these labels. -/
def Ignores (f : (ι → Nat) → R) (labels : List ι) : Prop :=
  ∀ ⦃point other : ι → Nat⦄, (∀ label ∉ labels, point label = other label) → f point = f other

variable {len : ι → Nat} {labels : List ι} {f g : (ι → Nat) → R}

omit [CommSemiring R] in
theorem Ignores.update (hignores : Ignores f labels) (hmem : label ∈ labels) (point : ι → Nat)
    (value : Nat) : f (Function.update point label value) = f point := by
  apply hignores
  intro other hother
  apply Function.update_of_ne
  intro heq
  exact hother (heq ▸ hmem)

theorem Ignores.sumOver (hignores : Ignores f labels) (others : List ι) :
    Ignores (TensorGraph.sumOver len others f) labels := by
  induction others with
  | nil => exact hignores
  | cons other others ih =>
    intro point point' hsame
    apply Finset.sum_congr rfl
    intro value _
    apply ih
    intro label hlabel
    by_cases heq : label = other
    · rw [heq, Function.update_self, Function.update_self]
    · rw [Function.update_of_ne heq, Function.update_of_ne heq, hsame label hlabel]

/-- Only points that differ at the labels, within their lengths, matter. -/
theorem sumOver_congr {point : ι → Nat}
    (hsame : ∀ other : ι → Nat, (∀ label ∈ labels, other label < len label) →
      (∀ label ∉ labels, other label = point label) → f other = g other) :
    sumOver len labels f point = sumOver len labels g point := by
  induction labels generalizing point with
  | nil => exact hsame point (by simp) fun _ _ => rfl
  | cons label labels ih =>
    apply Finset.sum_congr rfl
    intro value hvalue
    apply ih
    intro other hbelow hother
    apply hsame
    · intro label' hmem
      by_cases hlabel : label' ∈ labels
      · exact hbelow label' hlabel
      · obtain rfl := (mem_cons.1 hmem).resolve_right hlabel
        rw [hother label' hlabel, Function.update_self]
        exact Finset.mem_range.1 hvalue
    · intro label' hmem
      rw [mem_cons, not_or] at hmem
      rw [hother label' hmem.2, Function.update_of_ne hmem.1]

theorem sumOver_append (first second : List ι) (point : ι → Nat) :
    sumOver len (first ++ second) f point = sumOver len first (sumOver len second f) point := by
  induction first generalizing point with
  | nil => rfl
  | cons label first ih => exact Finset.sum_congr rfl fun value _ => ih _

/-- The order of the labels does not matter. -/
theorem sumOver_perm {first second : List ι} (hperm : first.Perm second) (point : ι → Nat) :
    sumOver len first f point = sumOver len second f point := by
  induction hperm generalizing point with
  | nil => rfl
  | cons label _ ih => exact Finset.sum_congr rfl fun value _ => ih _
  | swap label label' labels =>
    by_cases heq : label = label'
    · rw [heq]
    · rw [sumOver, sumOver]
      simp only [sumOver]
      rw [Finset.sum_comm]
      apply Finset.sum_congr rfl
      intro value _
      apply Finset.sum_congr rfl
      intro value' _
      rw [Function.update_comm heq]
  | trans _ _ ihFirst ihSecond => exact (ihFirst point).trans (ihSecond point)

/-- A factor that does not look at the labels stands before the sum. -/
theorem sumOver_mul_left (hignores : Ignores f labels) (point : ι → Nat) :
    sumOver len labels (fun point => f point * g point) point =
      f point * sumOver len labels g point := by
  induction labels generalizing point with
  | nil => rfl
  | cons label labels ih =>
    have hrest : Ignores f labels := fun _ _ hsame =>
      hignores fun other hother => hsame other fun hmem => hother (mem_cons_of_mem _ hmem)
    rw [sumOver, sumOver, Finset.mul_sum]
    apply Finset.sum_congr rfl
    intro value _
    rw [ih hrest, hignores.update mem_cons_self]

theorem sumOver_mul_right (hignores : Ignores g labels) (point : ι → Nat) :
    sumOver len labels (fun point => f point * g point) point =
      sumOver len labels f point * g point := by
  simp only [mul_comm _ (g _)]
  rw [sumOver_mul_left hignores, mul_comm]

/-- Give labels the values at the same places. -/
def assign : List ι → List Nat → (ι → Nat) → ι → Nat
  | label :: labels, value :: values, point =>
    assign labels values (Function.update point label value)
  | _, _, point => point

omit [CommSemiring R] in
theorem assign_of_notMem (hfree : label ∉ labels) (point : ι → Nat) :
    assign labels values point label = point label := by
  induction labels generalizing values point with
  | nil => rfl
  | cons first labels ih =>
    cases values with
    | nil => rfl
    | cons value values =>
      rw [mem_cons, not_or] at hfree
      rw [assign, ih hfree.2, Function.update_of_ne hfree.1]

omit [CommSemiring R] in
theorem map_assign (hnodup : labels.Nodup) (hlength : values.length = labels.length)
    (point : ι → Nat) : labels.map (assign labels values point) = values := by
  induction labels generalizing values point with
  | nil => exact (eq_nil_of_length_eq_zero hlength).symm
  | cons label labels ih =>
    cases values with
    | nil => cases hlength
    | cons value values =>
      rw [nodup_cons] at hnodup
      rw [map_cons, assign, ih hnodup.2 (Nat.succ.inj hlength), assign_of_notMem hnodup.1,
        Function.update_self]

omit [CommSemiring R] in
/-- Labels that get a value do not keep the one they had. -/
theorem assign_congr (hlength : values.length = labels.length) (hmem : label ∈ labels)
    (point other : ι → Nat) :
    assign labels values point label = assign labels values other label := by
  induction labels generalizing values point other with
  | nil => cases hmem
  | cons first labels ih =>
    cases values with
    | nil => cases hlength
    | cons value values =>
      by_cases hrest : label ∈ labels
      · exact ih (Nat.succ.inj hlength) hrest _ _
      · obtain rfl := (mem_cons.1 hmem).resolve_right hrest
        rw [assign, assign, assign_of_notMem hrest, assign_of_notMem hrest,
          Function.update_self, Function.update_self]

omit [CommSemiring R] in
theorem assign_lt (hvalues : InRange values (labels.map len)) (hmem : label ∈ labels)
    (point : ι → Nat) : assign labels values point label < len label := by
  induction labels generalizing values point with
  | nil => cases hmem
  | cons first labels ih =>
    obtain ⟨value, rest, hvalue, hrest, rfl⟩ := forall₂_cons_right_iff.1 hvalues
    by_cases hlabel : label ∈ labels
    · exact ih hrest hlabel _
    · obtain rfl := (mem_cons.1 hmem).resolve_right hlabel
      rw [assign, assign_of_notMem hlabel, Function.update_self]
      exact hvalue

/-- The sum runs over the indices of the lengths of the labels. -/
theorem sumOver_eq_sum_indices (hpos : ∀ label ∈ labels, 0 < len label) (point : ι → Nat) :
    sumOver len labels f point =
      ((indices (labels.map len)).map fun values => f (assign labels values point)).sum := by
  have hzero : (labels.map len).contains 0 = false := by
    rw [← Bool.not_eq_true, contains_iff_mem, mem_map]
    rintro ⟨label, hmem, heq⟩
    exact absurd (hpos label hmem) (by rw [heq]; exact Nat.lt_irrefl 0)
  rw [indices, if_neg (by rw [hzero]; exact Bool.false_ne_true)]
  clear hzero hpos
  induction labels generalizing point with
  | nil => simp [sumOver, indicesFrom, assign]
  | cons label labels ih =>
    rw [map_cons, indicesFrom, flatMap_def, map_flatten, sum_flatten,
      map_map, map_map]
    apply (Finset.sum_congr rfl fun value _ => ih (Function.update point label value)).trans
    simp only [Function.comp_def, map_map, assign]
    exact Multiset.sum_coe _

/-- Labels under other names. -/
theorem sumOver_map {κ : Type} [DecidableEq κ] {name : ι → κ} {known : List ι} {len' : κ → Nat}
    {f' : (κ → Nat) → R}
    (hname : ∀ a ∈ known, ∀ b ∈ known, name a = name b → a = b) (hknown : labels ⊆ known)
    (hlen : ∀ label ∈ known, len' (name label) = len label)
    (hf : ∀ (point : ι → Nat) (point' : κ → Nat),
      (∀ label ∈ known, point' (name label) = point label) → f' point' = f point)
    {point : ι → Nat} {point' : κ → Nat}
    (hpoint : ∀ label ∈ known, point' (name label) = point label) :
    sumOver len' (labels.map name) f' point' = sumOver len labels f point := by
  induction labels generalizing point point' with
  | nil => exact hf point point' hpoint
  | cons label labels ih =>
    obtain ⟨hlabel, hlabels⟩ := cons_subset.1 hknown
    rw [map_cons, sumOver, sumOver, hlen label hlabel]
    apply Finset.sum_congr rfl
    intro value _
    apply ih hlabels
    intro other hother
    by_cases heq : other = label
    · rw [heq, Function.update_self, Function.update_self]
    · rw [Function.update_of_ne heq, Function.update_of_ne, hpoint other hother]
      intro hsame
      exact heq (hname other hother label hlabel hsame)

end Sums

/-! ## Sums of products -/

section Entries

variable {ι : Type}

/-- The length of a label after broadcasting: the one other than one that an axis gives it, or one if
there is no such axis. -/
def commonLen [DecidableEq ι] : (axes : List (ι × Nat)) → ι → Nat
  | [], _ => 1
  | (other, len) :: axes, label =>
    if other = label ∧ len ≠ 1 then len else commonLen axes label

/-- The axes of all operands with their labels. -/
def labelledAxes (inputs : List (List ι)) (lens : List (List Nat)) : List (ι × Nat) :=
  (inputs.zip lens).flatMap fun (labels, lens) => labels.zip lens

/-- The length that a label has after broadcasting. -/
def labelLen [DecidableEq ι] (inputs : List (List ι)) (lens : List (List Nat)) : ι → Nat :=
  commonLen (labelledAxes inputs lens)

/-- The index at which an operand is read. An axis of length one is read at zero. -/
def readIndex (lens : List Nat) (labels : List ι) (point : ι → Nat) : List Nat :=
  List.zipWith (fun len label => if len = 1 then 0 else point label) lens labels

section Lengths

variable [DecidableEq ι] {axes : List (ι × Nat)} {label : ι}

theorem commonLen_eq_one_or_mem (axes : List (ι × Nat)) (label : ι) :
    commonLen axes label = 1 ∨ (label, commonLen axes label) ∈ axes := by
  induction axes with
  | nil => exact .inl rfl
  | cons axis axes ih =>
    obtain ⟨other, len⟩ := axis
    rw [commonLen]
    by_cases hown : other = label ∧ len ≠ 1
    · rw [if_pos hown, hown.1]
      exact .inr mem_cons_self
    · rw [if_neg hown]
      exact ih.imp_right (mem_cons_of_mem _)

theorem eq_one_of_commonLen (hunit : commonLen axes label = 1) {len : Nat}
    (hmem : (label, len) ∈ axes) : len = 1 := by
  induction axes with
  | nil => cases hmem
  | cons axis axes ih =>
    obtain ⟨other, first⟩ := axis
    rw [commonLen] at hunit
    by_cases hown : other = label ∧ first ≠ 1
    · rw [if_pos hown] at hunit
      exact absurd hunit hown.2
    · rw [if_neg hown] at hunit
      rcases mem_cons.1 hmem with heq | hmem
      · cases heq
        exact not_not.1 fun hne => hown ⟨rfl, hne⟩
      · exact ih hunit hmem

/-- Where all axes of a label have one length, the label has it. -/
theorem commonLen_eq_of_mem {len : Nat} (hmem : (label, len) ∈ axes)
    (hall : ∀ other, (label, other) ∈ axes → other = len) : commonLen axes label = len := by
  rcases commonLen_eq_one_or_mem axes label with hunit | hsome
  · rw [hunit, eq_one_of_commonLen hunit hmem]
  · exact hall _ hsome

end Lengths

variable {α R : Type} [Scalar α] [CommSemiring R]

/-- The product of what the operands hold at a point. -/
def productAt (val : α → R) (inputs : List (List ι)) (operands : List (Tensor α))
    (point : ι → Nat) : R :=
  (List.zipWith (fun labels t => val (t.entry (readIndex t.lens labels point))) inputs
    operands).prod

/-- The entry of an einsum at an index of its result: the sum, over all values of the labels that are
not in the output, of the product of what the operands hold. -/
def einsumEntry [DecidableEq ι] (val : α → R) (inputs : List (List ι)) (output : List ι)
    (operands : List (Tensor α)) (index : List Nat) : R :=
  sumOver (labelLen inputs (operands.map Tensor.lens))
    (inputs.flatten.dedup.filter fun label => label ∉ output) (productAt val inputs operands)
    fun label => index.getD (output.idxOf label) 0

/-! ## Renaming labels -/

section Renaming

variable {κ : Type} {name : ι → κ} {known : List ι}

omit [Scalar α] [CommSemiring R] in
theorem labelledAxes_map (inputs : List (List ι)) (lens : List (List Nat)) :
    labelledAxes (inputs.map (List.map name)) lens =
      (labelledAxes inputs lens).map fun axis => (name axis.1, axis.2) := by
  rw [labelledAxes, zip_map_left, flatMap_map, labelledAxes, map_flatMap]
  apply flatMap_congr
  rintro ⟨labels, lens⟩ _
  exact zip_map_left

omit [Scalar α] [CommSemiring R] in
theorem mem_flatten_of_mem_labelledAxes {inputs : List (List ι)} {lens : List (List Nat)}
    {axis : ι × Nat} (hmem : axis ∈ labelledAxes inputs lens) : axis.1 ∈ inputs.flatten := by
  obtain ⟨⟨labels, lens⟩, hoperand, hmem⟩ := mem_flatMap.1 hmem
  exact mem_flatten.2 ⟨labels, (of_mem_zip hoperand).1, (of_mem_zip hmem).1⟩

omit [Scalar α] [CommSemiring R] in
theorem readIndex_map (lens : List Nat) {labels : List ι} {point : ι → Nat} {point' : κ → Nat}
    (hsame : ∀ label ∈ labels, point' (name label) = point label) :
    readIndex lens (labels.map name) point' = readIndex lens labels point := by
  induction labels generalizing lens with
  | nil => rw [map_nil, readIndex, readIndex, zipWith_nil_right, zipWith_nil_right]
  | cons label labels ih =>
    rw [forall_mem_cons] at hsame
    cases lens with
    | nil => rfl
    | cons len lens =>
      rw [map_cons, readIndex, readIndex, zipWith_cons_cons, zipWith_cons_cons,
        hsame.1]
      exact congrArg _ (ih lens hsame.2)

theorem productAt_map (val : α → R) {inputs : List (List ι)} (operands : List (Tensor α))
    {point : ι → Nat} {point' : κ → Nat}
    (hsame : ∀ label ∈ inputs.flatten, point' (name label) = point label) :
    productAt val (inputs.map (List.map name)) operands point' =
      productAt val inputs operands point := by
  induction inputs generalizing operands with
  | nil => rfl
  | cons labels inputs ih =>
    rw [flatten_cons] at hsame
    cases operands with
    | nil => rfl
    | cons t operands =>
      have hrest := ih operands fun label hmem => hsame label (mem_append_right _ hmem)
      rw [productAt] at hrest ⊢
      rw [map_cons, zipWith_cons_cons, prod_cons, hrest,
        readIndex_map _ fun label hmem => hsame label (mem_append_left _ hmem), productAt,
        productAt, zipWith_cons_cons, prod_cons]

variable [DecidableEq ι] [DecidableEq κ]
  (hname : ∀ a ∈ known, ∀ b ∈ known, name a = name b → a = b)

omit [Scalar α] [CommSemiring R]
include hname

theorem commonLen_map {axes : List (ι × Nat)} (haxes : ∀ axis ∈ axes, axis.1 ∈ known) {label : ι}
    (hlabel : label ∈ known) :
    commonLen (axes.map fun axis => (name axis.1, axis.2)) (name label) = commonLen axes label := by
  induction axes with
  | nil => rfl
  | cons axis axes ih =>
    obtain ⟨other, len⟩ := axis
    rw [forall_mem_cons] at haxes
    have hsame : name other = name label ↔ other = label :=
      ⟨hname other haxes.1 label hlabel, congrArg name⟩
    rw [map_cons, commonLen, commonLen, ih haxes.2]
    simp only [hsame]

theorem idxOf_map {labels : List ι} (hlabels : labels ⊆ known) {label : ι}
    (hlabel : label ∈ known) : (labels.map name).idxOf (name label) = labels.idxOf label := by
  induction labels with
  | nil => rfl
  | cons other labels ih =>
    obtain ⟨hother, hlabels⟩ := cons_subset.1 hlabels
    by_cases heq : other = label
    · rw [heq, map_cons, idxOf_cons_self, idxOf_cons_self]
    · have hne : name other ≠ name label := fun hsame => heq (hname _ hother _ hlabel hsame)
      rw [map_cons, idxOf_cons_ne _ hne, idxOf_cons_ne _ heq, ih hlabels]

end Renaming

/-- An einsum does not depend on how its labels are called. -/
theorem einsumEntry_map {κ : Type} [DecidableEq ι] [DecidableEq κ] (val : α → R) {name : ι → κ}
    {inputs : List (List ι)} {output : List ι}
    (hname : ∀ a ∈ inputs.flatten, ∀ b ∈ inputs.flatten, name a = name b → a = b)
    (houtput : output ⊆ inputs.flatten) (operands : List (Tensor α)) (index : List Nat) :
    einsumEntry val (inputs.map (List.map name)) (output.map name) operands index =
      einsumEntry val inputs output operands index := by
  have hflatten : (inputs.map (List.map name)).flatten = inputs.flatten.map name :=
    map_flatten.symm
  have hperm : ((inputs.map (List.map name)).flatten.dedup.filter
      fun label => label ∉ output.map name).Perm
      ((inputs.flatten.dedup.filter fun label => label ∉ output).map name) := by
    rw [perm_ext_iff_of_nodup ((nodup_dedup _).filter _)]
    · intro label
      simp only [hflatten, mem_filter, mem_dedup, decide_eq_true_eq, mem_map]
      constructor
      · rintro ⟨⟨other, hother, rfl⟩, hfree⟩
        refine ⟨other, ⟨hother, ?_⟩, rfl⟩
        intro hmem
        exact hfree ⟨other, hmem, rfl⟩
      · rintro ⟨other, ⟨hother, hfree⟩, rfl⟩
        refine ⟨⟨other, hother, rfl⟩, ?_⟩
        rintro ⟨other', hmem, hsame⟩
        rw [hname _ (houtput hmem) _ hother hsame] at hmem
        exact hfree hmem
    · apply List.Nodup.map_on _ ((nodup_dedup _).filter _)
      intro a ha b hb hsame
      exact hname a (mem_dedup.1 (mem_filter.1 ha).1) b
        (mem_dedup.1 (mem_filter.1 hb).1) hsame
  rw [einsumEntry, sumOver_perm hperm]
  apply sumOver_map hname
  · intro label hmem
    exact mem_dedup.1 (mem_filter.1 hmem).1
  · intro label hlabel
    rw [labelLen, labelledAxes_map]
    exact commonLen_map hname (fun axis hmem => mem_flatten_of_mem_labelledAxes hmem) hlabel
  · intro point point' hsame
    exact productAt_map val operands hsame
  · intro label hlabel
    rw [idxOf_map hname houtput hlabel]

end Entries

/-! ## The labels of an equation -/

namespace Einsum

/-- What the axis of an operand stands for. -/
inductive AxisLabel
  | letter (c : Char)
  | covered (place : Nat)
deriving DecidableEq

/-- The labels of the axes of a term whose ellipsis covers so many axes. -/
def axisLabels (covered : Nat) (term : Term) : List AxisLabel :=
  term.flatMap fun
    | .letter c => [.letter c]
    | .ellipsis => (List.range covered).map .covered

namespace Equation

/-- How many axes the ellipsis covers: those that the letters of the first term with an ellipsis leave
over. -/
def covered (equation : Equation) (ranks : List Nat) : Nat :=
  match (equation.inputs.zip ranks).find? (·.1.hasEllipsis) with
  | some (term, rank) => rank - term.letters.length
  | none => 0

/-- The labels of the axes of every operand. -/
def inputLabels (equation : Equation) (ranks : List Nat) : List (List AxisLabel) :=
  equation.inputs.map (axisLabels (equation.covered ranks))

/-- The labels of the axes of the result. -/
def outputLabels (equation : Equation) (ranks : List Nat) : List AxisLabel :=
  axisLabels (equation.covered ranks) equation.outputTerm

end Equation

end Einsum

/-! ## Exact arithmetic -/

/-- Seen through a map into a commutative semiring, sums and products are exact, and a position that
is stored as an element is read back as it is. -/
structure Exact {α R : Type} [Scalar α] [CommSemiring R] (val : α → R) : Prop where
  zero : val Scalar.zero = 0
  emptySum : val Scalar.emptySum = 0
  add : ∀ a b, val (Scalar.add a b) = val a + val b
  mul : ∀ a b, val (Scalar.mul a b) = val a * val b
  position : ∀ n < Word.signedLimit,
    Scalar.isNegative (Scalar.ofNat n : α) = false ∧ Scalar.truncate (Scalar.ofNat n : α) = n

/-- An element of a semiring with a position. -/
structure Positioned (R : Type) where
  value : R
  position : Int

/-- Any commutative semiring makes scalars with exact arithmetic. Functions that a semiring does not
have leave their first operand as it is. -/
instance Positioned.scalar {R : Type} [CommSemiring R] : Scalar (Positioned R) where
  zero := ⟨0, 0⟩
  emptySum := ⟨0, 0⟩
  unary _ a := a
  binary
    | .add, a, b => ⟨a.value + b.value, a.position + b.position⟩
    | .mul, a, b => ⟨a.value * b.value, a.position * b.position⟩
    | _, a, _ => a
  ofNat n := ⟨n, n⟩
  truncate a := a.position
  isNegative a := decide (a.position < 0)
  same a b := decide (a.position = b.position)
  text a := toString a.position

theorem Positioned.exact {R : Type} [CommSemiring R] :
    Exact (Positioned.value : Positioned R → R) where
  zero := rfl
  emptySum := rfl
  add _ _ := rfl
  mul _ _ := rfl
  position n _ := ⟨decide_eq_false (Int.not_lt.2 (Int.natCast_nonneg n)), rfl⟩

end TensorGraph
