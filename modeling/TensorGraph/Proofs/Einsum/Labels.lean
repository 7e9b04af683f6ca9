import TensorGraph.Proofs.Einsum.Emission

/-!
# Nodes whose axes are columns

Most nodes of a lowering have one axis for each of some columns; each step of the lowering is a step on
these.
-/

namespace TensorGraph

open List

/-! ## Orders of columns -/

namespace Permutation

/-- What takes each item of a list without repetitions once is a permutation. -/
theorem isPermutation_of_reorder {items moved order : List Nat}
    (hmoved : reorder items order = .ok moved) (hnodup : moved.Nodup)
    (hlength : order.length = items.length) : isPermutation order = true := by
  have hall := reorder_eq_ok_iff.1 hmoved
  rw [isPermutation, Bool.and_eq_true, all_eq_true, decide_eq_true_eq]
  constructor
  · intro i hi
    obtain ⟨item, -, hitem⟩ := exists_mem_right_of_forall₂ hall hi
    rw [decide_eq_true_eq, hlength]
    exact (List.getElem?_eq_some_iff.1 hitem).1
  · have hmap : moved = order.map (items.getD · 0) := by
      rw [← forall₂_eq_eq_eq, forall₂_map_right_iff]
      apply hall.flip.imp
      intro item i hitem
      rw [getD_eq_getElem?_getD, hitem]
      rfl
    rw [hmap] at hnodup
    exact hnodup.of_map

theorem reorder_range_of_lt {order : List Nat} {count : Nat} (hbelow : ∀ i ∈ order, i < count) :
    reorder (List.range count) order = .ok order := by
  rw [reorder_eq_ok_iff, forall₂_same]
  intro i hi
  exact getElem?_range (hbelow i hi)

end Permutation

theorem set_map_range (count : Nat) (point : Nat → Nat) (column value : Nat) :
    ((List.range count).map point).set column value =
      (List.range count).map (Function.update point column value) := by
  apply ext_getElem
  · simp
  · intro i hi hi'
    rw [getElem_set, getElem_map, getElem_map, getElem_range]
    by_cases heq : column = i
    · rw [if_pos heq, heq, Function.update_self]
    · rw [if_neg heq, Function.update_of_ne (Ne.symm heq)]

/-- Setting entries of an index that is made from columns. -/
theorem placeAt_map_range (columns values : List Nat) (count : Nat) (point : Nat → Nat) :
    Evaluation.placeAt columns values ((List.range count).map point) =
      (List.range count).map (assign columns values point) := by
  induction columns generalizing values point with
  | nil => rfl
  | cons column columns ih =>
    cases values with
    | nil => rfl
    | cons value values =>
      show Evaluation.placeAt columns values
        (((List.range count).map point).set column value) = _
      rw [set_map_range, ih, assign]

/-- The inverse of an order of columns brings them back. -/
theorem Permutation.exists_inverse {order : List Nat} {count : Nat}
    (hperm : order.Perm (List.range count)) :
    ∃ places, inverse order = .ok places ∧ reorder order places = .ok (List.range count) := by
  have hlength : order.length = count := by rw [hperm.length_eq, length_range]
  have hbelow : ∀ entry ∈ order.zipIdx, entry.1 < order.length := by
    rintro ⟨column, place⟩ hmem
    rw [hlength, ← mem_range, ← hperm.mem_iff]
    exact (mem_zipIdx hmem).2.2 ▸ getElem_mem _
  have hnodup : order.Nodup := hperm.nodup_iff.2 nodup_range
  have hinverse : inverse order = .ok (Evaluation.placeAt order (List.range count)
      ((List.range count).map fun _ => 0)) := by
    rw [inverse, foldlM_eq_ok (fun entry hmem result => if_pos (hbelow entry hmem)),
      Evaluation.placeAt, zipIdx_eq_zip_range', ← range_eq_range', hlength]
    congr 2
    rw [map_const', length_range]
  refine ⟨_, hinverse, ?_⟩
  rw [placeAt_map_range, reorder_eq_ok_iff, forall₂_map_left_iff, forall₂_same]
  intro column hcolumn
  obtain ⟨k, hk, rfl⟩ := getElem_of_mem (hperm.mem_iff.2 hcolumn)
  have hassigned := map_assign hnodup
    (show (List.range count).length = order.length by rw [length_range, hlength]) fun _ => 0
  have hat : assign order (List.range count) (fun _ => 0) order[k] = k := by
    have hentry := congrArg (fun items => items[k]?) hassigned
    rw [getElem?_map, getElem?_eq_getElem hk,
      getElem?_range (hlength ▸ hk)] at hentry
    exact Option.some.inj hentry
  rw [hat, getElem?_eq_getElem hk]

namespace Einsum

open Graph

variable {α R : Type} [Scalar α] [CommSemiring R] {reduced : List Nat} {column : Nat}

/-- Where a column is read in a node that has it with these lengths. -/
def clip (len point : Nat → Nat) (column : Nat) : Nat :=
  if len column = 1 then 0 else point column

/-- Lengths in which some columns are reduced to one. -/
def unitAt (reduced : List Nat) (len : Nat → Nat) (column : Nat) : Nat :=
  if column ∈ reduced then 1 else len column

theorem unitAt_of_mem (hmem : column ∈ reduced)
    (len : Nat → Nat) : unitAt reduced len column = 1 := if_pos hmem

theorem unitAt_of_notMem (hmem : column ∉ reduced)
    (len : Nat → Nat) : unitAt reduced len column = len column := if_neg hmem

namespace Frame

variable {F : Frame α R} {e : Emission α} {g h : Graph α} {node : NodeId}
  {columns : List Nat} {len len' : Nat → Nat} {f f' : List (Tensor α) → (Nat → Nat) → R}
  {point : Nat → Nat} {count : Nat}

/-- Columns have their lengths or length one. -/
def Sized (F : Frame α R) (len : Nat → Nat) : Prop :=
  ∀ column, len column = 1 ∨ len column = F.len column

theorem Sized.clip_lt (hsized : F.Sized len) (hpoint : F.Bounded point) (column : Nat) :
    clip len point column < len column := by
  unfold clip
  by_cases hunit : len column = 1
  · rw [if_pos hunit, hunit]
    exact Nat.one_pos
  · rw [if_neg hunit, (hsized column).resolve_left hunit]
    exact hpoint column

theorem Sized.inRange (hsized : F.Sized len) (hpoint : F.Bounded point) (columns : List Nat) :
    InRange (columns.map (clip len point)) (columns.map len) :=
  inRange_map fun column _ => hsized.clip_lt hpoint column

/-- Columns that are not repeated make up no more than all columns. -/
theorem Sized.roomy (hsized : F.Sized len) (hroomy : F.Roomy ((List.range count).map F.len))
    (hnodup : columns.Nodup) (hbelow : ∀ column ∈ columns, column < count) :
    F.Roomy (columns.map len) := by
  apply hroomy.of_le
  calc bulk (columns.map len) ≤ bulk (columns.map F.len) := by
        apply bulk_map_le
        intro column _
        rcases hsized column with hunit | hfull
        · rw [hunit]
          exact Nat.le_max_left 1 _
        · rw [hfull]
    _ ≤ bulk ((List.range count).map F.len) :=
        bulk_map_le_of_subset hnodup fun column hmem => mem_range.2 (hbelow column hmem)

/-- A node has one axis for each of these columns, and holds this function of points. -/
structure Labelled (F : Frame α R) (g : Graph α) (node : NodeId) (columns : List Nat)
    (len : Nat → Nat) (f : List (Tensor α) → (Nat → Nat) → R) : Prop where
  sized : F.Sized len
  located : F.Located g node (columns.map len) (fun point => columns.map (clip len point)) f

theorem Labelled.mono (hlabelled : F.Labelled g node columns len f) (hextends : g.Extends h) :
    F.Labelled h node columns len f :=
  ⟨hlabelled.sized, hlabelled.located.mono hextends⟩

theorem Labelled.congr (hlabelled : F.Labelled g node columns len f)
    (hf : ∀ tensors point, F.Bounded point → f' tensors point = f tensors point) :
    F.Labelled g node columns len f' :=
  ⟨hlabelled.sized, hlabelled.located.congr (fun _ _ => rfl) hf⟩

/-- Axes of length one are read at zero. -/
theorem located_append_units {units : List Nat} (hunits : ∀ column ∈ units, len column = 1) :
    F.Located g node ((columns ++ units).map len)
        (fun point => (columns ++ units).map (clip len point)) f ↔
      F.Located g node (columns.map len ++ List.replicate units.length 1)
        (fun point => columns.map (clip len point) ++ List.replicate units.length 0) f := by
  have hzeros : ∀ point, ∀ column ∈ units, clip len point column = 0 :=
    fun _ column hmem => if_pos (hunits column hmem)
  simp only [map_append, map_congr_left hunits, map_congr_left (hzeros _), map_const']

theorem emits_labelled {emission : Emit α NodeId} (hsized : F.Sized len)
    (hemits : Emits e emission fun node g =>
      F.Located g node (columns.map len) (fun point => columns.map (clip len point)) f) :
    Emits e emission fun node g => F.Labelled g node columns len f :=
  hemits.mono fun _ _ _ hlocated => ⟨hsized, hlocated⟩

/-- Columns in another order. -/
theorem emits_reordered {order moved : List Nat} (hlabelled : F.Labelled e.graph node columns len f)
    (hperm : Permutation.isPermutation order = true) (hlength : order.length = columns.length)
    (hmoved : Permutation.reorder columns order = .ok moved) :
    Emits e (emitTranspose node order) fun node g => F.Labelled g node moved len f :=
  emits_labelled hlabelled.sized (emits_transpose hlabelled.located hperm
    (by rw [length_map, hlength]) (Inference.reorder_map len hmoved)
    fun {point} _ => Inference.reorder_map (clip len point) hmoved)

/-- All columns, in the order that is given. -/
theorem emits_ordered {order : List Nat}
    (hlabelled : F.Labelled e.graph node (List.range count) len f)
    (hperm : order.Perm (List.range count)) :
    Emits e (emitTranspose node order) fun node g => F.Labelled g node order len f := by
  have hlength : order.length = (List.range count).length := hperm.length_eq
  apply emits_reordered hlabelled _ hlength
  · exact Permutation.reorder_range_of_lt fun i hi => mem_range.1 (hperm.mem_iff.1 hi)
  · rw [Permutation.isPermutation_iff_perm, hlength, length_range]
    exact hperm

/-- Lengths that differ only where the node has length one. -/
theorem emits_widened (hlabelled : F.Labelled e.graph node columns len f) (hsized : F.Sized len')
    (hwiden : ∀ column ∈ columns, len column = len' column ∨ len column = 1) :
    Emits e (emitBroadcast node (columns.map len')) fun node g =>
      F.Labelled g node columns len' f := by
  apply emits_labelled hsized
  apply emits_broadcast hlabelled.located
  · rw [forall₂_map_left_iff, forall₂_map_right_iff, forall₂_same]
    exact hwiden
  · intro point hpoint
    refine ⟨hsized.inRange hpoint columns, ?_⟩
    rw [zipWith_map, zipWith_self]
    apply map_congr_left
    intro column hcolumn
    rw [clip, clip]
    by_cases hunit : len column = 1
    · rw [if_pos hunit, if_pos hunit]
    · have hsame := (hwiden column hcolumn).resolve_right hunit
      rw [if_neg hunit, if_neg hunit, if_neg (hsame ▸ hunit)]

/-! ## Alignment -/

/-- The columns that a node does not have. -/
def missing (columns : List Nat) (count : Nat) : List Nat :=
  (List.range count).filter fun column => !columns.contains column

omit [Scalar α] [CommSemiring R] in
theorem mem_missing : column ∈ missing columns count ↔ column < count ∧ column ∉ columns := by
  rw [missing, mem_filter, mem_range, Bool.not_eq_true', contains_eq_mem,
    decide_eq_false_iff_not]

/-- The columns of a node and those that it does not have are all columns. -/
theorem append_missing_perm (hnodup : columns.Nodup) (hbelow : ∀ column ∈ columns, column < count) :
    (columns ++ missing columns count).Perm (List.range count) := by
  rw [perm_ext_iff_of_nodup _ nodup_range]
  · intro column
    rw [mem_append, mem_missing, mem_range]
    constructor
    · rintro (hmem | hmem)
      · exact hbelow column hmem
      · exact hmem.1
    · intro hcolumn
      by_cases hmem : column ∈ columns
      · exact .inl hmem
      · exact .inr ⟨hcolumn, hmem⟩
  · apply List.Nodup.append hnodup (nodup_range.filter _)
    intro column hmem hmissing
    exact (mem_missing.1 hmissing).2 hmem

/-- A missing column comes after the missing columns below it. -/
theorem getElem?_missing (hcolumn : column < count) (hmissing : column ∉ columns) :
    (missing columns count)[(missing columns column).length]? = some column := by
  obtain ⟨rest, rfl⟩ := Nat.exists_eq_add_of_lt hcolumn
  have hnext : missing columns (column + 1) = missing columns column ++ [column] := by
    rw [missing, range_succ, filter_append, ← missing, filter_singleton,
      contains_eq_mem, decide_eq_false hmissing]
    rfl
  rw [Nat.add_right_comm, missing, range_add, filter_append, ← missing, hnext,
    append_assoc, getElem?_append_right (Nat.le_refl _), Nat.sub_self]
  rfl

/-- Each column is found where the alignment takes it from. -/
theorem reorder_alignment (columns : List Nat) (count : Nat) :
    Permutation.reorder (columns ++ missing columns count) (alignment columns count) =
      .ok (List.range count) := by
  rw [Permutation.reorder_eq_ok_iff, alignment, forall₂_map_left_iff, forall₂_same]
  intro column hcolumn
  rw [mem_range] at hcolumn
  cases hfind : columns.findIdx? (· == column) with
  | some axis =>
    obtain ⟨haxis, hequal, -⟩ := findIdx?_eq_some_iff_getElem.1 hfind
    rw [getElem?_append_left haxis, getElem?_eq_getElem haxis, beq_iff_eq.1 hequal]
  | none =>
    have hmissing : column ∉ columns := by
      intro hmem
      exact absurd (findIdx?_eq_none_iff.1 hfind column hmem) (by simp)
    rw [getElem?_append_right (Nat.le_add_right _ _), Nat.add_sub_cancel_left]
    exact getElem?_missing hcolumn hmissing

/-- A node gets an axis for every column. -/
theorem emits_aligned (hlabelled : F.Labelled e.graph node columns len f) (hnodup : columns.Nodup)
    (hbelow : ∀ column ∈ columns, column < count) (hunits : ∀ column ∉ columns, len column = 1) :
    Emits e (emitAlign node columns count) fun node g =>
      F.Labelled g node (List.range count) len f := by
  have hperm := append_missing_perm hnodup hbelow
  have hlength : columns.length + (missing columns count).length = count := by
    rw [← length_append, hperm.length_eq, length_range]
  have hunit : ∀ column ∈ missing columns count, len column = 1 :=
    fun column hmem => hunits column (mem_missing.1 hmem).2
  have hrank : count - (columns.map len).length = (missing columns count).length := by
    rw [length_map]
    omega
  have hemits := emits_unsqueeze hlabelled.located
    (show (columns.map len).length ≤ count by rw [length_map]; omega)
  rw [hrank] at hemits
  apply hemits.bind
  intro node e _ hlocated
  have hwide : F.Labelled e.graph node (columns ++ missing columns count) len f :=
    ⟨hlabelled.sized, (located_append_units hunit).2 hlocated⟩
  have hmoved := reorder_alignment columns count
  have halign : (alignment columns count).length = (columns ++ missing columns count).length := by
    rw [alignment, length_map, length_range, length_append, hlength]
  exact emits_reordered hwide
    (Permutation.isPermutation_of_reorder hmoved nodup_range halign) halign hmoved

/-! ## Sums -/

theorem val_foldl_add (hexact : Exact F.val) {β : Type} (items : List β) (term : β → α) (start : α) :
    F.val (items.foldl (fun total item => Scalar.add total (term item)) start) =
      F.val start + (items.map fun item => F.val (term item)).sum := by
  induction items generalizing start with
  | nil => simp
  | cons item items ih =>
    rw [foldl_cons, ih, hexact.add, map_cons, sum_cons, add_assoc]

theorem eraseDups_eq_self {items : List Nat} (hnodup : items.Nodup) : items.eraseDups = items := by
  induction items with
  | nil => rfl
  | cons item items ih =>
    rw [nodup_cons] at hnodup
    have hfilter : items.filter (fun other => !other == item) = items := by
      rw [filter_eq_self]
      intro other hother
      rw [Bool.not_eq_true', beq_eq_false_iff_ne]
      rintro rfl
      exact hnodup.1 hother
    rw [eraseDups_cons, hfilter, ih hnodup.2]

theorem foldl_set_map_range (reduced : List Nat) (count : Nat) (len : Nat → Nat) :
    reduced.foldl (fun lens axis => lens.set axis 1) ((List.range count).map len) =
      (List.range count).map (unitAt reduced len) := by
  induction reduced generalizing len with
  | nil => rfl
  | cons column reduced ih =>
    rw [foldl_cons, set_map_range, ih]
    apply map_congr_left
    intro other _
    by_cases hmem : other ∈ reduced
    · rw [unitAt_of_mem hmem, unitAt_of_mem (mem_cons_of_mem _ hmem)]
    · by_cases heq : other = column
      · rw [unitAt_of_notMem hmem, heq, Function.update_self, unitAt_of_mem mem_cons_self]
      · rw [unitAt_of_notMem hmem, Function.update_of_ne heq, unitAt_of_notMem]
        rw [mem_cons, not_or]
        exact ⟨heq, hmem⟩

theorem Sized.reduce (hsized : F.Sized len) (reduced : List Nat) :
    F.Sized (unitAt reduced len) := by
  intro column
  by_cases hmem : column ∈ reduced
  · exact .inl (unitAt_of_mem hmem len)
  · rw [unitAt_of_notMem hmem]
    exact hsized column

/-- Where there is a point, no column is empty. -/
theorem Bounded.len_pos (hpoint : F.Bounded point) (column : Nat) : 0 < F.len column :=
  Nat.zero_lt_of_lt (hpoint column)

theorem Bounded.assigned {labels values : List Nat} (hpoint : F.Bounded point)
    (hvalues : InRange values (labels.map F.len)) :
    F.Bounded (assign labels values point) := by
  intro column
  by_cases hmem : column ∈ labels
  · exact assign_lt hvalues hmem point
  · rw [assign_of_notMem hmem]
    exact hpoint column

/-- Reduced columns are read where the sum has put them. -/
theorem assign_clip {values : List Nat} (hfull : ∀ column ∈ reduced, len column = F.len column)
    (hvalues : InRange values (reduced.map F.len)) (column : Nat) :
    assign reduced values (clip (unitAt reduced len) point) column =
      clip len (assign reduced values point) column := by
  unfold clip
  by_cases hmem : column ∈ reduced
  · have hlength : values.length = reduced.length := by
      rw [hvalues.length_eq, length_map]
    have hbelow := assign_lt hvalues hmem point
    rw [assign_congr hlength hmem _ point]
    by_cases hunit : len column = 1
    · rw [← hfull column hmem, hunit] at hbelow
      rw [if_pos hunit]
      omega
    · rw [if_neg hunit]
  · rw [assign_of_notMem hmem, assign_of_notMem hmem, unitAt_of_notMem hmem]

/-- A sum over columns that have their lengths in the node. -/
theorem emits_reduced (hlabelled : F.Labelled e.graph node (List.range count) len f)
    (hroomy : F.Roomy ((List.range count).map F.len)) (hnodup : reduced.Nodup)
    (hbelow : ∀ column ∈ reduced, column < count)
    (hfull : ∀ column ∈ reduced, len column = F.len column) :
    Emits e (emitReduceSum node reduced) fun node g =>
      F.Labelled g node (List.range count) (unitAt reduced len)
        fun tensors => sumOver F.len reduced (f tensors) := by
  have hsized := hlabelled.sized.reduce reduced
  unfold emitReduceSum
  by_cases hempty : reduced = []
  · subst hempty
    rw [isEmpty_nil, if_pos rfl]
    exact .pure hlabelled
  · rw [if_neg (by rw [List.isEmpty_iff]; exact hempty)]
    obtain ⟨axes, hlens, hmeans⟩ := hlabelled.located
    have hout := foldl_set_map_range reduced count len
    have houtRoomy := hsized.roomy hroomy nodup_range fun column => mem_range.1
    have hrank : axes.length = count := by
      rw [← Layout.length_lens, hlens, length_map, length_range]
    apply emits_labelled hsized
    apply emits_located (Layout.lens_rowMajor _)
    apply hmeans.add (.reduceSum reduced) (sumOver F.len reduced) rfl trivial
    · refine Inference.reduceSumShape_iff.2 ⟨F.elem, axes, rfl, by rwa [hrank], ?_⟩
      rw [hlens, hout, Shape.standard_of_bulk _ houtRoomy.lt_limit]
    · intro hmet t _
      rw [Layout.lens_rowMajor]
      exact houtRoomy.le_buffer hmet
    · intro point hpoint
      rw [Layout.lens_rowMajor]
      exact hsized.inRange hpoint _
    · intro hexact r k hr hvalues point hpoint
      have hreduced : reduced.map (r.lens.getD · 0) = reduced.map F.len := by
        apply map_congr_left
        intro column hcolumn
        rw [hr, hlens, getD_eq_getElem?_getD, getElem?_map,
          getElem?_range (hbelow column hcolumn)]
        exact hfull column hcolumn
      show F.val (r.reduceSum reduced _) = _
      rw [Reading.reduceSum, eraseDups_eq_self hnodup, val_foldl_add hexact, hexact.emptySum,
        zero_add, hreduced, sumOver_eq_sum_indices fun column _ => hpoint.len_pos column]
      congr 1
      apply map_congr_left
      intro values hmem
      rw [mem_indices_iff] at hmem
      rw [placeAt_map_range, map_congr_left fun column _ => assign_clip hfull hmem column]
      exact hvalues (hpoint.assigned hmem)

end Frame

end Einsum

end TensorGraph
