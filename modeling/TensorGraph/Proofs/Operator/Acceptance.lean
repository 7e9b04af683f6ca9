import TensorGraph.Proofs.Layout.Groups
import TensorGraph.Proofs.Operator.Rearrangement

/-!
# Which shapes inference accepts

Where the lengths that are not zero have a product that fits into a signed word, inference of the
operators that move, sum and multiply values depends on lengths only.
-/

namespace TensorGraph

open Layout List Shape

variable {removed lens places index order lens' : List Nat} {β : Type}

theorem Word.signedLimit_lt : Word.signedLimit < Word.limit := by decide

theorem Word.toSigned_of_lt {n : Nat} (hfits : n < Word.signedLimit) : Word.toSigned n = n :=
  if_pos hfits

theorem Shape.standard_of_bulk (elem : ElementType) (hfits : bulk lens < Word.limit) :
    Shape.standard elem lens = .ok (.strided elem (Layout.rowMajor lens)) := by
  rw [Shape.standard, Layout.standard_of_bulk hfits]
  rfl

theorem Layout.isStandard_rowMajor (hfits : bulk lens < Word.limit) :
    (Layout.rowMajor lens).isStandard = .ok true := by
  rw [isStandard_eq_ok_true_iff, lens_rowMajor]
  exact standard_of_bulk hfits

/-- Whether a layout of such lengths is standard can be found out. -/
theorem Layout.isStandard_of_bulk {axes : Layout} (hfits : bulk axes.lens < Word.limit) :
    axes.isStandard = .ok (decide (axes = Layout.rowMajor axes.lens)) := by
  obtain ⟨strides, hstrides, -⟩ := bind_eq_ok_iff.1 (standard_of_bulk hfits)
  have hrun : axes.isStandard = .ok (axes.strides == strides) := by
    rw [Layout.isStandard, hstrides]
    rfl
  rw [hrun]
  by_cases hstandard : axes = Layout.rowMajor axes.lens
  · have htrue : axes.isStandard = .ok true := by
      rw [hstandard]
      exact isStandard_rowMajor hfits
    rw [decide_eq_true hstandard, ← hrun, htrue]
  · rw [decide_eq_false hstandard, ← hrun]
    cases hcase : axes.strides == strides with
    | false => rw [hrun, hcase]
    | true =>
      rw [hcase, isStandard_eq_ok_true_iff, standard_of_bulk hfits] at hrun
      exact absurd (Except.ok.inj hrun).symm hstandard

namespace Inference

variable {op : String} {elem : ElementType} {axes : Layout} {lens : List Nat} {place : Nat}

/-- A permutation of the right length is accepted. -/
theorem exists_transposeShape (hperm : Permutation.isPermutation order = true)
    (hlength : order.length = axes.length) :
    ∃ moved, transposeShape op order [.strided elem axes] = .ok (.strided elem moved) ∧
      Permutation.reorder axes.lens order = .ok moved.lens := by
  obtain ⟨moved, hmoved, -⟩ := Permutation.exists_reorder hperm hlength
  exact ⟨moved, transposeShape_of_strided op hperm hlength hmoved, reorder_lens hmoved⟩

/-- Lengths that a reshape does not take from its input: where they are zero, the input has zero at the
same place. -/
def OwnZeros (lens lens' : List Nat) : Prop :=
  ∀ place < lens'.length, lens'[place]? = some 0 → lens[place]? = some 0

instance (lens lens' : List Nat) : Decidable (OwnZeros lens lens') :=
  inferInstanceAs (Decidable (∀ place < lens'.length, lens'[place]? = some 0 → lens[place]? = some 0))

theorem requestedLen_toSigned (hzeros : OwnZeros lens lens') {len : Nat}
    (hlen : lens'[place]? = some len) (hfits : len < Word.signedLimit) :
    requestedLen op (.strided elem (Layout.rowMajor lens)) (Word.toSigned len) place = .ok len := by
  rw [Word.toSigned_of_lt hfits, requestedLen]
  by_cases hzero : len = 0
  · subst hzero
    have hsource := hzeros place (List.getElem?_eq_some_iff.1 hlen).1 hlen
    rw [if_pos Int.natCast_zero, lens_strided, lens_rowMajor, hsource]
  · rw [if_neg (by omega), if_pos (by omega), Int.toNat_natCast]

/-- Lengths of the right product are accepted for a standard input. -/
theorem reshapeShape_of_bulk (hzeros : OwnZeros lens lens')
    (hfits : bulk lens < Word.signedLimit) (hfits' : bulk lens' < Word.signedLimit)
    (hvolume : volume lens' = volume lens) :
    reshapeShape op (lens'.map Word.toSigned) [.strided elem (Layout.rowMajor lens)] =
      .ok (.strided elem (Layout.rowMajor lens')) := by
  have hword : bulk lens < Word.limit := hfits.trans Word.signedLimit_lt
  have hword' : bulk lens' < Word.limit := hfits'.trans Word.signedLimit_lt
  have hlen : ∀ len ∈ lens', len < Word.signedLimit :=
    fun len hmem => (le_bulk_of_mem hmem).trans_lt hfits'
  have hsigned : (-1 : Int) ∉ lens'.map Word.toSigned := by
    intro hmem
    obtain ⟨len, hmem, heq⟩ := mem_map.1 hmem
    rw [Word.toSigned_of_lt (hlen len hmem)] at heq
    omega
  have hrequested : Forall₂ (fun entry len =>
      requestedLen op (.strided elem (Layout.rowMajor lens)) entry.1 entry.2 = .ok len)
        (lens'.map Word.toSigned).zipIdx lens' := by
    rw [forall₂_iff_get]
    refine ⟨by simp, ?_⟩
    intro i hi hi'
    have hmem : lens'.get ⟨i, hi'⟩ ∈ lens' := get_mem _ _
    simp only [get_eq_getElem, getElem_zipIdx, getElem_map, Nat.zero_add] at hmem ⊢
    exact requestedLen_toSigned hzeros (getElem?_eq_getElem hi') (hlen _ hmem)
  have hinferred : inferLens op (.strided elem (Layout.rowMajor lens)) (lens'.map Word.toSigned)
      lens' = .ok lens' := by
    have hnone : (lens'.map Word.toSigned).findIdx? (· == -1) = none := by
      rw [findIdx?_eq_none_iff]
      intro dim hdim
      exact beq_false_of_ne fun heq => hsigned (heq ▸ hdim)
    rw [inferLens, hnone]
  have hstandard : (Shape.strided elem (Layout.rowMajor lens)).isStandard = .ok true :=
    isStandard_rowMajor hword
  have helements : (Shape.strided elem (Layout.rowMajor lens)).elements = .ok (volume lens) := by
    show Word.product (Layout.rowMajor lens).lens = _
    rw [lens_rowMajor, Word.product_of_bulk hword]
  rw [reshapeShape]
  show (liftM (Shape.isStandard _) >>= _ : Outcome ShapeError Shape) = _
  rw [hstandard]
  show (if 1 < (lens'.map Word.toSigned).count (-1) then _ else _ : Outcome ShapeError Shape) = _
  rw [count_eq_zero_of_not_mem hsigned, if_neg (by omega), mapM_eq_ok_iff.2 hrequested, ok_bind,
    hinferred, ok_bind, Word.product_of_bulk hword', helements]
  show (if volume lens' ≠ volume lens then _ else _ : Outcome ShapeError Shape) = _
  rw [if_neg (not_not.2 hvolume), Shape.standard_of_bulk _ hword']
  rfl

/-- Places that follow all axes get axes of length one. -/
theorem insertUnits_after (rank count : Nat) (axes : Layout) (start : Nat)
    (hrank : start + axes.length = rank) :
    insertUnits (List.range' rank count) (List.range' start (axes.length + count)) axes =
      .ok (axes ++ List.replicate count ⟨1, 1⟩) := by
  induction axes generalizing start with
  | nil =>
    obtain rfl : start = rank := by simpa using hrank
    rw [length_nil, Nat.zero_add, nil_append]
    have hunits : ∀ places : List Nat, places ⊆ List.range' start count →
        insertUnits (List.range' start count) places [] =
          .ok (List.replicate places.length ⟨1, 1⟩) := by
      intro places
      induction places with
      | nil => exact fun _ => rfl
      | cons place places ih =>
        intro hplaces
        obtain ⟨hplace, hplaces⟩ := cons_subset.1 hplaces
        rw [insertUnits, if_pos (contains_iff_mem.2 hplace), ok_bind, ih hplaces]
        rfl
    rw [hunits _ (List.Subset.refl _), length_range']
  | cons axis axes ih =>
    have hfree : ¬ (List.range' rank count).contains start = true := by
      rw [contains_iff_mem, mem_range'_1]
      rw [length_cons] at hrank
      omega
    rw [length_cons, Nat.add_right_comm, range'_succ, insertUnits, if_neg hfree]
    show (insertUnits _ _ axes >>= fun inner => pure (axis :: inner)) = _
    rw [ih (start + 1) (by rw [← hrank, length_cons]; omega), ok_bind]
    rfl

theorem unsqueezeShape_after (count : Nat) :
    unsqueezeShape op (List.range' axes.length count) [.strided elem axes] =
      .ok (.strided elem (axes ++ List.replicate count ⟨1, 1⟩)) := by
  have haccepted : ((List.range' axes.length count).any
      (axes.length + (List.range' axes.length count).length ≤ ·) ||
        !decide (List.range' axes.length count).Nodup) = false := by
    rw [decide_eq_true (nodup_range' ..), Bool.not_true, Bool.or_false, ← Bool.not_eq_true,
      any_eq_true]
    rintro ⟨axis, haxis, hover⟩
    rw [mem_range'_1] at haxis
    rw [decide_eq_true_eq, length_range'] at hover
    omega
  show (if _ then _ else _ : Outcome ShapeError Shape) = _
  rw [rank_strided, haccepted, if_neg Bool.false_ne_true, length_range',
    range_eq_range', axes_strided, insertUnits_after _ _ _ 0 (Nat.zero_add _)]
  rfl

/-- Lengths of the same rank are accepted where axes that differ have length one. -/
theorem broadcastShape_of_spreads (hspreads : Spreads axes.lens lens) :
    ∃ inner, broadcastShape op lens [.strided elem axes] = .ok (.strided elem inner) ∧
      inner.lens = lens := by
  have hlength : axes.length = lens.length := by
    rw [← hspreads.length_eq, length_lens]
  have hdropped : lens.length - axes.length = 0 := by omega
  obtain ⟨inner, hinner⟩ := (exists_broadcastAxes?_iff hlength).2 hspreads
  have hrun : broadcastShape op lens [.strided elem axes] = .ok (.strided elem inner) :=
    broadcastShape_iff.2 ⟨elem, axes, inner, rfl, Nat.le_of_eq hlength, by rwa [hdropped],
      by rw [hdropped]; rfl⟩
  exact ⟨inner, hrun, broadcastShape_lens hrun⟩

theorem resolveAxis_natCast {rank : Nat} (hplace : place < rank) :
    resolveAxis op (place : Int) rank = .ok place := by
  have hbelow : ¬ ((place : Int) < 0) := by omega
  simp only [resolveAxis, if_neg hbelow]
  rw [if_neg (by omega), Int.toNat_natCast]

theorem squeezeShape_of_units {removed : List Nat} (hnonempty : removed ≠ [])
    (hunits : ∀ axis ∈ removed, axes.lens[axis]? = some 1) :
    squeezeShape op removed [.strided elem axes] = .ok (.strided elem
      ((axes.zipIdx.filter fun entry => !removed.contains entry.2).map (·.1))) := by
  have hremoved : squeezedAxes (.strided elem axes) removed = removed := by
    rw [squeezedAxes, if_neg (by rw [List.isEmpty_iff]; exact hnonempty)]
  exact squeezeShape_iff.2 ⟨elem, axes, rfl, by rwa [hremoved], by rw [hremoved]⟩

end Inference

theorem unpermute_of_reorder {items moved : List Nat}
    (hperm : Permutation.isPermutation order = true) (hlength : order.length = items.length)
    (hmoved : Permutation.reorder items order = .ok moved) : unpermute order moved = items := by
  have hall := Permutation.reorder_eq_ok_iff.1 hmoved
  rw [unpermute, hlength]
  apply ext_getElem
  · rw [length_map, length_range]
  · intro i hi hi'
    rw [getElem_map, getElem_range]
    have hmem : i ∈ order := by
      rw [(perm_range_of_isPermutation hperm).mem_iff, mem_range, hlength]
      exact hi'
    have hplace : order.idxOf i < order.length := idxOf_lt_length_iff.2 hmem
    have hentry := (forall₂_iff_get.1 hall).2 (order.idxOf i) hplace (hall.length_eq ▸ hplace)
    rw [get_eq_getElem, getElem_idxOf hplace, getElem?_eq_getElem hi'] at hentry
    rw [getD_eq_getElem?_getD, getElem?_eq_getElem (hall.length_eq ▸ hplace)]
    exact (Option.some.inj hentry).symm

theorem inRange_reorder {moved : List Nat} (hrange : InRange index lens)
    (hindex : Permutation.reorder index order = .ok moved)
    (hlens : Permutation.reorder lens order = .ok lens') : InRange moved lens' := by
  apply forall₂_of_common _ (Permutation.reorder_eq_ok_iff.1 hindex)
    (Permutation.reorder_eq_ok_iff.1 hlens)
  intro axis i len hi hlen
  have hbelow := (inRange_iff_getElem.1 hrange).2 axis len hlen
  rw [getD_eq_getElem?_getD, hi] at hbelow
  exact hbelow

theorem dropAt_append {items : List β} (hlength : places.length = items.length)
    (hfree : ∀ place ∈ places, place ∉ removed) (places' : List Nat) (items' : List β) :
    dropAt removed (places ++ places') (items ++ items') =
      items ++ dropAt removed places' items' := by
  induction items generalizing places with
  | nil =>
    obtain rfl := eq_nil_of_length_eq_zero hlength
    rfl
  | cons item items ih =>
    cases places with
    | nil => cases hlength
    | cons place places =>
      rw [forall_mem_cons] at hfree
      rw [cons_append, cons_append, dropAt, if_neg hfree.1,
        ih (Nat.succ.inj hlength) hfree.2, cons_append]

theorem dropAt_of_subset (hsubset : places ⊆ removed) (items : List β) :
    dropAt removed places items = [] := by
  induction places generalizing items with
  | nil => rw [dropAt.eq_def]
  | cons place places ih =>
    obtain ⟨hplace, hplaces⟩ := cons_subset.1 hsubset
    cases items with
    | nil => rw [dropAt.eq_def]
    | cons item items => rw [dropAt, if_pos hplace, ih hplaces]

/-- Items whose places come last are dropped. -/
theorem dropAt_after {items others : List β}
    (hremoved : removed = List.range' items.length others.length) :
    dropAt removed (List.range (items.length + others.length)) (items ++ others) = items := by
  rw [range_eq_range', ← range'_append_1, Nat.zero_add, hremoved, dropAt_append,
    dropAt_of_subset (List.Subset.refl _), append_nil]
  · exact length_range'
  · intro place hplace
    rw [mem_range'_1] at hplace ⊢
    omega

theorem restoreAt_append (hlength : places.length = index.length)
    (hfree : ∀ place ∈ places, place ∉ removed) (places' rest : List Nat) :
    restoreAt removed (places ++ places') (index ++ rest) =
      index ++ restoreAt removed places' rest := by
  induction index generalizing places with
  | nil =>
    obtain rfl := eq_nil_of_length_eq_zero hlength
    rfl
  | cons i index ih =>
    cases places with
    | nil => cases hlength
    | cons place places =>
      rw [forall_mem_cons] at hfree
      rw [cons_append, cons_append, restoreAt_of_notMem hfree.1,
        ih (Nat.succ.inj hlength) hfree.2, cons_append]

theorem restoreAt_of_subset (hsubset : places ⊆ removed) (index : List Nat) :
    restoreAt removed places index = List.replicate places.length 0 := by
  induction places with
  | nil => rfl
  | cons place places ih =>
    obtain ⟨hplace, hplaces⟩ := cons_subset.1 hsubset
    rw [restoreAt_of_mem hplace, ih hplaces, length_cons, replicate_succ]

/-- Places that come last are restored as zeros. -/
theorem restoreAt_after (index : List Nat) (count : Nat) :
    restoreAt (List.range' index.length count) (List.range (index.length + count)) index =
      index ++ List.replicate count 0 := by
  have hsplit := @restoreAt_append (List.range' index.length count) (List.range' 0 index.length)
    index length_range' (by
      intro place hplace
      rw [mem_range'_1] at hplace ⊢
      omega) (List.range' index.length count) []
  rw [append_nil, restoreAt_of_subset (List.Subset.refl _), length_range'] at hsplit
  rw [range_eq_range', ← range'_append_1, Nat.zero_add, hsplit]

/-- Reading an index at the lengths that it is in range of leaves it as it is. -/
theorem zipWith_unit_of_inRange (hrange : InRange index lens) :
    List.zipWith (fun len i => if len = 1 then 0 else i) lens index = index := by
  induction hrange with
  | nil => rfl
  | @cons i len index lens hfirst _ ih =>
    rw [zipWith_cons_cons, ih]
    by_cases hunit : len = 1
    · rw [if_pos hunit, show i = 0 by omega]
    · rw [if_neg hunit]

end TensorGraph
