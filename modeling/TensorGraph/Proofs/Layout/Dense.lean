import Mathlib.Data.List.Perm.Basic
import TensorGraph.Proofs.Layout.Positions

/-!
# Dense layouts

A layout is dense when its axes are those of a row-major one in some order: it keeps every index at a
position of its own and leaves none unused.
-/

namespace TensorGraph

open List

/-- A list that names each position below its length once. -/
theorem Permutation.isPermutation_iff_perm {order : List Nat} :
    isPermutation order = true ↔ order.Perm (List.range order.length) := by
  rw [isPermutation, Bool.and_eq_true, all_eq_true, decide_eq_true_iff]
  simp only [decide_eq_true_iff]
  constructor
  · rintro ⟨hbelow, hnodup⟩
    have hsub : order ⊆ List.range order.length := fun axis hmem => mem_range.2 (hbelow axis hmem)
    exact (subperm_of_subset hnodup hsub).perm_of_length_le (by simp)
  · intro hperm
    exact ⟨fun axis hmem => mem_range.1 (hperm.mem_iff.1 hmem), hperm.nodup_iff.2 nodup_range⟩

theorem perm_range_of_isPermutation {axes : List Nat} (hperm : Permutation.isPermutation axes) :
    axes.Perm (List.range axes.length) :=
  Permutation.isPermutation_iff_perm.1 hperm

namespace Layout

variable {axes : Layout} {order first second : List Nat}

@[simp]
theorem lens_cons (axis : Axis) (axes : Layout) : lens (axis :: axes) = axis.len :: lens axes := rfl

@[simp]
theorem strides_cons (axis : Axis) (axes : Layout) :
    strides (axis :: axes) = axis.stride :: strides axes := rfl

@[simp]
theorem length_lens (axes : Layout) : axes.lens.length = axes.length := length_map _

@[simp]
theorem ofLists_lens_strides (axes : Layout) : ofLists axes.lens axes.strides = axes := by
  induction axes with
  | nil => rfl
  | cons axis axes ih => exact congrArg (axis :: ·) ih

variable {lens strides : List Nat} {other : Layout} {β : Type} {i : Nat}

theorem lens_ofLists (hlength : lens.length = strides.length) :
    (ofLists lens strides).lens = lens := by
  induction lens generalizing strides with
  | nil => rfl
  | cons len lens ih =>
    cases strides with
    | nil => cases hlength
    | cons stride strides => exact congrArg (len :: ·) (ih (Nat.succ.inj hlength))

/-! ## Row-major layouts -/

/-- The exact row-major layout: each stride is the volume of the axes further in. -/
def rowMajor : List Nat → Layout
  | [] => []
  | len :: lens => ⟨len, volume lens⟩ :: rowMajor lens

@[simp]
theorem lens_rowMajor (lens : List Nat) : (rowMajor lens).lens = lens := by
  induction lens with
  | nil => rfl
  | cons len lens ih => rw [rowMajor, lens_cons, ih]

@[simp]
theorem length_rowMajor (lens : List Nat) : (rowMajor lens).length = lens.length := by
  rw [← length_lens, lens_rowMajor]

theorem ofLists_rowMajor (lens : List Nat) :
    ofLists lens (rowMajor lens).strides = rowMajor lens := by
  simpa using ofLists_lens_strides (rowMajor lens)

theorem position_rowMajor_lt {index : List Nat} (hrange : InRange index lens) :
    (rowMajor lens).position index < volume lens := by
  induction hrange with
  | nil => decide
  | @cons i len index lens hfirst _ ih =>
    rw [rowMajor, position_cons, volume]
    calc i * volume lens + (rowMajor lens).position index
        < i * volume lens + volume lens := Nat.add_lt_add_left ih _
      _ = (i + 1) * volume lens := (Nat.succ_mul _ _).symm
      _ ≤ len * volume lens := Nat.mul_le_mul_right _ hfirst

/-- A row-major layout keeps different indices apart. -/
theorem position_rowMajor_injective (hfirst : InRange first lens) (hsecond : InRange second lens)
    (heq : (rowMajor lens).position first = (rowMajor lens).position second) : first = second := by
  induction hfirst generalizing second with
  | nil => exact (forall₂_nil_right_iff.1 hsecond).symm
  | @cons i len index lens _ hindex ih =>
    obtain ⟨j, other, -, hother, rfl⟩ := forall₂_cons_right_iff.1 hsecond
    simp only [rowMajor, position_cons] at heq
    have hlt := position_rowMajor_lt hindex
    have hltOther := position_rowMajor_lt hother
    have hpos : 0 < volume lens := Nat.zero_lt_of_lt hlt
    have houter : i = j := by
      have hdiv := congrArg (· / volume lens) heq
      simpa [Nat.mul_comm _ (volume lens), Nat.mul_add_div hpos, Nat.div_eq_of_lt hlt,
        Nat.div_eq_of_lt hltOther] using hdiv
    subst houter
    rw [ih hother (Nat.add_left_cancel heq)]

theorem range_mul (count width : Nat) :
    List.range (count * width) =
      (List.range count).flatMap fun i => (List.range width).map (i * width + ·) := by
  induction count with
  | zero => simp
  | succ count ih => rw [Nat.succ_mul, range_add, ih, range_succ, flatMap_append,
      flatMap_singleton]

/-- In row-major order the indices lie one after another. -/
theorem map_position_indicesFrom (lens : List Nat) :
    (indicesFrom lens).map (rowMajor lens).position = List.range (volume lens) := by
  induction lens with
  | nil => rfl
  | cons len lens ih =>
    rw [volume, range_mul, indicesFrom, map_flatMap]
    congr 1
    funext i
    rw [← ih, map_map, map_map]
    rfl

theorem extent_rowMajor (hpos : 0 ∉ lens) :
    (rowMajor lens).extent + 1 = volume lens := by
  induction lens with
  | nil => rfl
  | cons len lens ih =>
    rw [mem_cons, not_or] at hpos
    have hlen : 1 ≤ len := Nat.pos_of_ne_zero (Ne.symm hpos.1)
    rw [rowMajor, extent, Nat.add_assoc, ih hpos.2, volume]
    calc (len - 1) * volume lens + volume lens
        = (len - 1 + 1) * volume lens := (Nat.succ_mul _ _).symm
      _ = len * volume lens := by rw [Nat.sub_add_cancel hlen]

/-! ## Dense layouts -/

/-- The axes of a row-major layout, in some order. -/
def Dense (axes : Layout) : Prop := ∃ lens, axes.Perm (rowMajor lens)

/-- Reordering axes reorders indices with them, and keeps what is equal and what differs. -/
theorem exists_position_of_perm (hperm : axes.Perm other) (hfirst : InRange first axes.lens)
    (hsecond : InRange second axes.lens) :
    ∃ first' second', InRange first' other.lens ∧ InRange second' other.lens ∧
      other.position first' = axes.position first ∧
      other.position second' = axes.position second ∧ (first' = second' → first = second) := by
  induction hperm generalizing first second with
  | nil => exact ⟨first, second, hfirst, hsecond, rfl, rfl, id⟩
  | @cons axis axes other _ ih =>
    obtain ⟨i, rest, hi, hrest, rfl⟩ := forall₂_cons_right_iff.1 hfirst
    obtain ⟨j, others, hj, hothers, rfl⟩ := forall₂_cons_right_iff.1 hsecond
    obtain ⟨first', second', hfirst', hsecond', hpos, hpos', hsame⟩ := ih hrest hothers
    refine ⟨i :: first', j :: second', .cons hi hfirst', .cons hj hsecond', ?_, ?_, ?_⟩
    · rw [position_cons, position_cons, hpos]
    · rw [position_cons, position_cons, hpos']
    · intro heq
      rw [List.cons.injEq] at heq ⊢
      exact ⟨heq.1, hsame heq.2⟩
  | swap outer inner axes =>
    obtain ⟨i, inside, hi, hinside, rfl⟩ := forall₂_cons_right_iff.1 hfirst
    obtain ⟨k, rest, hk, hrest, rfl⟩ := forall₂_cons_right_iff.1 hinside
    obtain ⟨j, inside, hj, hinside, rfl⟩ := forall₂_cons_right_iff.1 hsecond
    obtain ⟨l, others, hl, hothers, rfl⟩ := forall₂_cons_right_iff.1 hinside
    refine ⟨k :: i :: rest, l :: j :: others, .cons hk (.cons hi hrest),
      .cons hl (.cons hj hothers), ?_, ?_, ?_⟩
    · simp only [position_cons]
      omega
    · simp only [position_cons]
      omega
    · simp only [List.cons.injEq]
      exact fun ⟨hkl, hij, hsame⟩ => ⟨hij, hkl, hsame⟩
  | trans _ _ ihFirst ihSecond =>
    obtain ⟨first', second', hfirst', hsecond', hpos, hpos', hsame⟩ := ihFirst hfirst hsecond
    obtain ⟨first'', second'', hfirst'', hsecond'', hpos'', hpos''', hsame'⟩ :=
      ihSecond hfirst' hsecond'
    exact ⟨first'', second'', hfirst'', hsecond'', hpos''.trans hpos, hpos'''.trans hpos',
      fun heq => hsame (hsame' heq)⟩

/-- A dense layout keeps different indices apart. -/
theorem Dense.position_injective (hdense : axes.Dense) (hfirst : InRange first axes.lens)
    (hsecond : InRange second axes.lens) (heq : axes.position first = axes.position second) :
    first = second := by
  obtain ⟨lens, hperm⟩ := hdense
  obtain ⟨first', second', hfirst', hsecond', hpos, hpos', hsame⟩ :=
    exists_position_of_perm hperm hfirst hsecond
  rw [lens_rowMajor] at hfirst' hsecond'
  refine hsame (position_rowMajor_injective hfirst' hsecond' ?_)
  rw [hpos, hpos', heq]

theorem extent_perm (hperm : axes.Perm other) : axes.extent = other.extent := by
  induction hperm with
  | nil => rfl
  | cons axis _ ih => rw [extent, extent, ih]
  | swap => simp only [extent]; omega
  | trans _ _ ihFirst ihSecond => exact ihFirst.trans ihSecond

/-- A dense layout without empty axes uses as many positions as it has indices. -/
theorem Dense.extent_eq (hdense : axes.Dense) (hpos : 0 ∉ axes.lens) :
    axes.extent + 1 = volume axes.lens := by
  obtain ⟨lens, hperm⟩ := hdense
  have hlens : axes.lens.Perm lens := lens_rowMajor lens ▸ hperm.map Axis.len
  rw [extent_perm hperm, volume_perm hlens,
    extent_rowMajor fun hmem => hpos (hlens.mem_iff.2 hmem)]

/-- The space of a dense layout is its volume, if that fits. -/
theorem Dense.space_eq (hdense : axes.Dense) (hfits : volume axes.lens < Word.limit) :
    axes.space = .ok (volume axes.lens) := by
  by_cases hzero : 0 ∈ axes.lens
  · rw [space_of_zero_mem hzero, volume_eq_zero_iff.2 hzero]
  · exact (space_eq_ok_iff hzero).2 ⟨(hdense.extent_eq hzero).symm, hfits⟩

theorem Dense.space_eq_volume (hdense : axes.Dense) {n : Nat} (hspace : axes.space = .ok n) :
    n = volume axes.lens := by
  by_cases hzero : 0 ∈ axes.lens
  · rw [space_of_zero_mem hzero, Except.ok.injEq] at hspace
    rw [← hspace, volume_eq_zero_iff.2 hzero]
  · rw [((space_eq_ok_iff hzero).1 hspace).1, hdense.extent_eq hzero]

/-! ## Standard layouts -/

theorem rowMajor_dense (lens : List Nat) : (rowMajor lens).Dense := ⟨lens, .refl _⟩

theorem standardStrides_eq_ok_iff :
    standardStrides lens = .ok strides ↔
      strides = (rowMajor lens).strides ∧ ∀ stride ∈ strides, stride < Word.limit := by
  induction lens generalizing strides with
  | nil =>
    rw [standardStrides, Except.ok.injEq, eq_comm]
    exact ⟨fun heq => ⟨heq, by simp [heq]⟩, fun hstrides => hstrides.1⟩
  | cons len lens ih =>
    rw [standardStrides, bind_eq_ok_iff]
    cases lens with
    | nil =>
      simp only [standardStrides, Except.ok.injEq, Except.pure_eq_ok, rowMajor, strides_cons,
        volume]
      constructor
      · rintro ⟨_, rfl, rfl⟩
        exact ⟨rfl, by simp [Word.limit]⟩
      · rintro ⟨rfl, -⟩
        exact ⟨[], rfl, rfl⟩
    | cons next lens =>
      simp only [ih, rowMajor, strides_cons]
      constructor
      · rintro ⟨inner, ⟨rfl, hinner⟩, hrun⟩
        obtain ⟨stride, hstride, hrun⟩ := bind_eq_ok_iff.1 hrun
        cases hrun
        obtain ⟨rfl, hfits⟩ := Word.mul_eq_ok_iff.1 hstride
        rw [Nat.mul_comm] at hfits ⊢
        exact ⟨rfl, forall_mem_cons.2 ⟨hfits, hinner⟩⟩
      · rintro ⟨rfl, hall⟩
        obtain ⟨hfits, hinner⟩ := forall_mem_cons.1 hall
        refine ⟨_, ⟨rfl, hinner⟩, bind_eq_ok_iff.2 ⟨volume (next :: lens), ?_, rfl⟩⟩
        exact Word.mul_eq_ok_iff.2 ⟨Nat.mul_comm _ _, by rwa [Nat.mul_comm]⟩

/-- A standard layout exists exactly when the strides of the row-major one fit. -/
theorem standard_eq_ok_iff :
    standard lens = .ok axes ↔
      axes = rowMajor lens ∧ ∀ stride ∈ axes.strides, stride < Word.limit := by
  unfold standard
  rw [bind_eq_ok_iff]
  constructor
  · rintro ⟨strides, hstrides, hrun⟩
    cases hrun
    obtain ⟨rfl, hfits⟩ := standardStrides_eq_ok_iff.1 hstrides
    rw [ofLists_rowMajor]
    exact ⟨rfl, hfits⟩
  · rintro ⟨rfl, hfits⟩
    refine ⟨_, standardStrides_eq_ok_iff.2 ⟨rfl, hfits⟩, ?_⟩
    rw [ofLists_rowMajor]
    rfl

/-- Being standard is being what the standard layout of the lengths is. -/
theorem isStandard_eq_ok_true_iff : axes.isStandard = .ok true ↔ standard axes.lens = .ok axes := by
  unfold isStandard
  rw [bind_eq_ok_iff, standard_eq_ok_iff]
  constructor
  · rintro ⟨strides, hstrides, hrun⟩
    obtain ⟨rfl, hfits⟩ := standardStrides_eq_ok_iff.1 hstrides
    have hsame : axes.strides = (rowMajor axes.lens).strides := by
      simpa [Except.pure_eq_ok] using hrun
    refine ⟨?_, hsame ▸ hfits⟩
    rw [← ofLists_rowMajor, ← hsame, ofLists_lens_strides]
  · rintro ⟨heq, hfits⟩
    refine ⟨axes.strides, standardStrides_eq_ok_iff.2 ⟨congrArg strides heq, hfits⟩, ?_⟩
    simp [Except.pure_eq_ok]

theorem exists_isStandard_iff :
    (∃ standard, axes.isStandard = .ok standard) ↔
      standard axes.lens = .ok (rowMajor axes.lens) := by
  rw [standard_eq_ok_iff, and_iff_right rfl, isStandard]
  constructor
  · rintro ⟨standard, hrun⟩
    obtain ⟨strides, hstrides, -⟩ := bind_eq_ok_iff.1 hrun
    obtain ⟨rfl, hfits⟩ := standardStrides_eq_ok_iff.1 hstrides
    exact hfits
  · intro hfits
    exact ⟨_, bind_eq_ok_iff.2 ⟨_, standardStrides_eq_ok_iff.2 ⟨rfl, hfits⟩, rfl⟩⟩

/-- The standard layout exists when all products from the innermost axis on fit. -/
theorem standard_of_suffixes (hfits : ∀ inner, inner <:+ lens → volume inner < Word.limit) :
    standard lens = .ok (rowMajor lens) := by
  refine standard_eq_ok_iff.2 ⟨rfl, ?_⟩
  induction lens with
  | nil => simp [rowMajor, strides]
  | cons len lens ih =>
    have hinner inner (hsuffix : inner <:+ lens) : volume inner < Word.limit :=
      hfits inner (suffix_cons_iff.2 (.inr hsuffix))
    rw [rowMajor, strides_cons]
    exact forall_mem_cons.2 ⟨hinner lens (suffix_refl _), ih hinner⟩

theorem standard_of_bulk (hfits : bulk lens < Word.limit) :
    standard lens = .ok (rowMajor lens) := by
  refine standard_of_suffixes fun inner hinner => Nat.lt_of_le_of_lt ?_ hfits
  exact Nat.le_trans (volume_le_bulk inner) (bulk_le_of_sublist hinner.sublist)

/-- Without empty axes the standard layout exists when the volume fits. -/
theorem standard_of_pos (hpos : 0 ∉ lens) (hfits : volume lens < Word.limit) :
    standard lens = .ok (rowMajor lens) :=
  standard_of_bulk (by rwa [bulk_of_pos hpos])

/-! ## Layouts in a given axis order -/

theorem fetch_eq_ok_iff {items : List β} {item : β} :
    fetch items i = .ok item ↔ items[i]? = some item := by
  unfold fetch
  cases items[i]? <;> simp

theorem fetch_of_lt {items : List Nat} (hi : i < items.length) :
    fetch items i = .ok (items.getD i 0) := by
  rw [fetch_eq_ok_iff, getD_eq_getElem?_getD, getElem?_eq_getElem hi, Option.getD_some]

/-- Placing axes from the innermost on gives each the stride it has in the row-major layout of the
placed lengths. -/
theorem foldrM_placeAxis_eq_ok {placed : List Nat × Nat} (hnodup : order.Nodup)
    (hrun : order.foldrM (placeAxis lens) (List.replicate lens.length 0, 1) = .ok placed) :
    placed.1.length = lens.length ∧ placed.2 = volume (order.map (lens.getD · 0)) ∧
      order.map (fun axis => (⟨lens.getD axis 0, placed.1.getD axis 0⟩ : Axis)) =
        rowMajor (order.map (lens.getD · 0)) := by
  induction order generalizing placed with
  | nil =>
    cases hrun
    simp [rowMajor, volume]
  | cons axis order ih =>
    rw [nodup_cons] at hnodup
    rw [foldrM_cons] at hrun
    obtain ⟨inner, hinner, hrun⟩ := bind_eq_ok_iff.1 hrun
    obtain ⟨hlength, hvolume, hplaced⟩ := ih hnodup.2 hinner
    obtain ⟨len, hlen, hrun⟩ := bind_eq_ok_iff.1 hrun
    obtain ⟨volume', hmul, hrun⟩ := bind_eq_ok_iff.1 hrun
    cases hrun
    obtain ⟨rfl, -⟩ := Word.mul_eq_ok_iff.1 hmul
    obtain ⟨hbelow, rfl⟩ := List.getElem?_eq_some_iff.1 (fetch_eq_ok_iff.1 hlen)
    have hown : lens.getD axis 0 = lens[axis] := by simp [hbelow]
    refine ⟨by simpa using hlength, ?_, ?_⟩
    · rw [map_cons, volume, hvolume, hown, Nat.mul_comm]
    · rw [map_cons, map_cons, rowMajor, ← hplaced, ← hvolume]
      congr 1
      · simp [hlength, hbelow]
      · refine map_congr_left fun other hother => ?_
        have hne : axis ≠ other := fun heq => hnodup.1 (heq ▸ hother)
        simp [getElem?_set_ne hne]

theorem map_getD_range (items : List β) (other : β) :
    (List.range items.length).map (items.getD · other) = items := by
  refine ext_getElem (by simp) fun i _ hi => ?_
  simp [hi]

/-- The axes, listed in the order in which they are placed, are row-major. -/
theorem permuted_rows (hrun : permuted lens order = .ok axes) :
    axes.lens = lens ∧ order.Perm (List.range lens.length) ∧
      order.map (axes.getD · default) = rowMajor (order.map (lens.getD · 0)) := by
  unfold permuted at hrun
  split_ifs at hrun with hcheck
  rw [Bool.and_eq_true, beq_iff_eq] at hcheck
  obtain ⟨placed, hplaced, hrun⟩ := bind_eq_ok_iff.1 hrun
  cases hrun
  have hperm := perm_range_of_isPermutation hcheck.1
  rw [hcheck.2] at hperm
  obtain ⟨hlength, -, hrows⟩ :=
    foldrM_placeAxis_eq_ok (hperm.nodup_iff.2 nodup_range) hplaced
  refine ⟨lens_ofLists hlength.symm, hperm, ?_⟩
  rw [← hrows]
  refine map_congr_left fun axis hmem => ?_
  have hbelow : axis < lens.length := mem_range.1 (hperm.subset hmem)
  have hbelow' : axis < placed.1.length := hlength ▸ hbelow
  simp [ofLists, getElem?_zipWith, hbelow, hbelow']

/-- A layout in a given axis order has its lengths and is dense. -/
theorem permuted_eq_ok (hrun : permuted lens order = .ok axes) :
    axes.lens = lens ∧ axes.Dense := by
  obtain ⟨rfl, hperm, hrows⟩ := permuted_rows hrun
  refine ⟨rfl, order.map (axes.lens.getD · 0), ?_⟩
  have hmapped := hperm.map (axes.getD · default)
  rw [length_lens, map_getD_range, hrows] at hmapped
  exact hmapped.symm

theorem exists_foldrM_placeAxis (hbelow : ∀ axis ∈ order, axis < lens.length) (hnodup : order.Nodup)
    (hfits : ∀ inner, inner <:+ order.map (lens.getD · 0) → volume inner < Word.limit) :
    ∃ placed, order.foldrM (placeAxis lens) (List.replicate lens.length 0, 1) = .ok placed := by
  induction order with
  | nil => exact ⟨_, rfl⟩
  | cons axis order ih =>
    rw [forall_mem_cons] at hbelow
    rw [nodup_cons] at hnodup
    obtain ⟨inner, hrun⟩ := ih hbelow.2 hnodup.2 fun inner hinner =>
      hfits inner (suffix_cons_iff.2 (.inr hinner))
    obtain ⟨-, hvolume, -⟩ := foldrM_placeAxis_eq_ok hnodup.2 hrun
    have hwhole := hfits _ (suffix_refl _)
    rw [map_cons, volume, Nat.mul_comm, ← hvolume] at hwhole
    refine ⟨(inner.1.set axis inner.2, inner.2 * lens.getD axis 0), ?_⟩
    rw [foldrM_cons, hrun, ok_bind, placeAxis, fetch_of_lt hbelow.1, ok_bind,
      Word.mul_eq_ok_iff.2 ⟨rfl, hwhole⟩, ok_bind]
    rfl

/-- A layout exists in an axis order when all products from the innermost axis on fit. -/
theorem exists_permuted (hperm : order.Perm (List.range lens.length))
    (hfits : ∀ inner, inner <:+ order.map (lens.getD · 0) → volume inner < Word.limit) :
    ∃ axes, permuted lens order = .ok axes := by
  have hlength : order.length = lens.length := by simpa using hperm.length_eq
  have hcheck : Permutation.isPermutation order = true :=
    Permutation.isPermutation_iff_perm.2 (by rwa [hlength])
  obtain ⟨placed, hrun⟩ := exists_foldrM_placeAxis
    (fun axis hmem => mem_range.1 (hperm.subset hmem)) (hperm.nodup_iff.2 nodup_range) hfits
  refine ⟨ofLists lens placed.1, ?_⟩
  rw [permuted, if_pos (by simp [hcheck, hlength]), hrun, ok_bind]
  rfl

/-- Without empty axes a layout exists in every axis order when the volume fits. -/
theorem exists_permuted_of_pos (hperm : order.Perm (List.range lens.length)) (hpos : 0 ∉ lens)
    (hfits : volume lens < Word.limit) : ∃ axes, permuted lens order = .ok axes := by
  refine exists_permuted hperm fun inner ⟨outer, hinner⟩ => ?_
  have hlens : (order.map (lens.getD · 0)).Perm lens := by
    have hmapped := hperm.map (lens.getD · 0)
    rwa [map_getD_range] at hmapped
  have houter : 0 < volume outer := by
    rw [volume_pos_iff]
    exact fun hzero => hpos (hlens.mem_iff.1 (hinner ▸ mem_append_left _ hzero))
  rw [← volume_perm hlens, ← hinner, volume_append] at hfits
  exact Nat.lt_of_le_of_lt (Nat.le_mul_of_pos_left _ houter) hfits

end Layout

end TensorGraph
