import TensorGraph.Proofs.Einsum.Labels

/-!
# Contracting two operands

Two operands in column form are multiplied by one product of stacked matrices: each group of columns is
merged into one axis before the product and taken apart after it.
-/

namespace TensorGraph.Einsum

open Graph Inference List

/-! ## Groups of columns -/

namespace Grouping

variable {count : Nat} {left right : List Nat} {later : Nat → Bool} {column : Nat}

theorem mem_batch : column ∈ (Grouping.of count left right later).batch ↔
    column < count ∧ column ∈ left ∧ column ∈ right ∧ later column = true := by
  simp [Grouping.of, and_assoc]

theorem mem_leftOnly : column ∈ (Grouping.of count left right later).leftOnly ↔
    column < count ∧ column ∈ left ∧ column ∉ right := by
  simp [Grouping.of]

theorem mem_rightOnly : column ∈ (Grouping.of count left right later).rightOnly ↔
    column < count ∧ column ∈ right ∧ column ∉ left := by
  simp [Grouping.of]

theorem mem_summed : column ∈ (Grouping.of count left right later).summed ↔
    column < count ∧ column ∈ left ∧ column ∈ right ∧ later column = false := by
  simp [Grouping.of, and_assoc]

theorem mem_rest : column ∈ (Grouping.of count left right later).rest ↔
    column < count ∧ column ∉ left ∧ column ∉ right := by
  simp [Grouping.of]

/-- The groups hold every column once. -/
theorem order_perm (count : Nat) (left right : List Nat) (later : Nat → Bool) :
    (Grouping.of count left right later).order.Perm (List.range count) := by
  have hrange : (List.range count).Nodup := nodup_range
  rw [perm_ext_iff_of_nodup _ hrange]
  · intro column
    simp only [order, mem_append, mem_batch, mem_leftOnly, mem_rightOnly, mem_summed,
      mem_rest, mem_range]
    grind
  · simp only [order, nodup_append]
    simp only [mem_append, mem_batch, mem_leftOnly, mem_rightOnly, mem_summed, mem_rest]
    refine ⟨⟨⟨⟨hrange.filter _, hrange.filter _, ?_⟩, hrange.filter _, ?_⟩, hrange.filter _, ?_⟩,
      hrange.filter _, ?_⟩
    all_goals
      rintro column hcolumn _ hother rfl
      grind

variable {g : Grouping}

/-- No column is in two groups. -/
theorem apart (hnodup : g.order.Nodup) :
    (∀ column ∈ g.batch, column ∉ g.leftOnly ∧ column ∉ g.rightOnly ∧ column ∉ g.summed ∧
        column ∉ g.rest) ∧
      (∀ column ∈ g.leftOnly, column ∉ g.rightOnly ∧ column ∉ g.summed ∧ column ∉ g.rest) ∧
      (∀ column ∈ g.rightOnly, column ∉ g.summed ∧ column ∉ g.rest) ∧
      ∀ column ∈ g.summed, column ∉ g.rest := by
  simp only [order, nodup_append, mem_append] at hnodup
  grind

theorem sublists_order (g : Grouping) :
    g.batch.Sublist g.order ∧ g.leftOnly.Sublist g.order ∧ g.rightOnly.Sublist g.order ∧
      g.summed.Sublist g.order ∧ (g.batch ++ g.leftOnly ++ g.rightOnly).Sublist g.order := by
  refine ⟨List.IsInfix.sublist ⟨[], g.leftOnly ++ g.rightOnly ++ g.summed ++ g.rest, ?_⟩,
    List.IsInfix.sublist ⟨g.batch, g.rightOnly ++ g.summed ++ g.rest, ?_⟩,
    List.IsInfix.sublist ⟨g.batch ++ g.leftOnly, g.summed ++ g.rest, ?_⟩,
    List.IsInfix.sublist ⟨g.batch ++ g.leftOnly ++ g.rightOnly, g.rest, ?_⟩,
    List.IsInfix.sublist ⟨[], g.summed ++ g.rest, ?_⟩⟩ <;> simp [order]

/-- What is left of the axes of matrices without the columns that one operand has not, or the other,
or the product. -/
theorem filter_matrices (hnodup : g.order.Nodup) :
    [g.batch, g.leftOnly ++ g.rightOnly, g.summed ++ g.rest].map
        (List.filter (· ∉ g.rightOnly ++ g.rest)) = [g.batch, g.leftOnly, g.summed] ∧
      [g.batch, g.leftOnly ++ g.rightOnly, g.summed ++ g.rest].map
        (List.filter (· ∉ g.leftOnly ++ g.rest)) = [g.batch, g.rightOnly, g.summed] ∧
      [g.batch, g.leftOnly, g.rightOnly ++ (g.summed ++ g.rest)].map
        (List.filter (· ∉ g.summed ++ g.rest)) = [g.batch, g.leftOnly, g.rightOnly] := by
  have hown : ∀ {units group : List Nat}, (∀ column ∈ group, column ∉ units) →
      group.filter (· ∉ units) = group := fun hfree => filter_eq_self.2 (by simpa using hfree)
  have hnone : ∀ {units group : List Nat}, (∀ column ∈ group, column ∈ units) →
      group.filter (· ∉ units) = [] := fun hunits => filter_eq_nil_iff.2 (by simpa using hunits)
  obtain ⟨hbatch, hleft, hright, hsummed⟩ := apart hnodup
  simp only [map_cons, map_nil, filter_append]
  refine ⟨?_, ?_, ?_⟩
  · rw [hown, hown, hnone, hown, hnone, append_nil, append_nil] <;> grind
  · rw [hown, hnone, hown, hown, hnone, append_nil, nil_append] <;> grind
  · rw [hown, hown, hown, hnone, hnone, append_nil, append_nil] <;> grind

/-- An axis is shared when its column is one of both operands. -/
theorem isShared_idxOf (hnodup : g.order.Nodup) (hcolumn : column ∈ g.order) :
    g.isShared (g.order.idxOf column) = true ↔ column ∈ g.batch ∨ column ∈ g.summed := by
  have hplace : ∀ group : List Nat, group.idxOf column < group.length ↔ column ∈ group :=
    fun group => idxOf_lt_length_iff
  have hbatch := hplace g.batch
  have hleft := hplace g.leftOnly
  have hright := hplace g.rightOnly
  have hsummed := hplace g.summed
  simp only [order, nodup_append, mem_append] at hnodup hcolumn
  simp only [isShared, leftStart, rightStart, summedStart, order, idxOf_append,
    mem_append, Bool.or_eq_true, Bool.and_eq_true, decide_eq_true_eq, length_append]
  grind

/-- What a contraction asks of its reshapes, by the lengths of the columns: none takes a length from its
input. They merge the columns of either operand into a stack of matrices, and take the product apart. -/
structure Passes (g : Grouping) (len : Nat → Nat) : Prop where
  /-- The columns of the left operand are merged. -/
  left : OwnZeros (g.order.map (unitAt (g.rightOnly ++ g.rest) len))
    [volume (g.batch.map len), volume (g.leftOnly.map len), volume (g.summed.map len)]
  /-- The columns of the right operand are merged. -/
  right : OwnZeros (g.order.map (unitAt (g.leftOnly ++ g.rest) len))
    [volume (g.batch.map len), volume (g.rightOnly.map len), volume (g.summed.map len)]
  /-- The columns of the product are taken apart. -/
  result : OwnZeros
    [volume (g.batch.map len), volume (g.leftOnly.map len), volume (g.rightOnly.map len)]
    ((g.batch ++ g.leftOnly ++ g.rightOnly).map len)

end Grouping

/-! ## Groups as axes -/

/-- Where a group of columns is read when it is one axis. -/
def spot (len point : Nat → Nat) (group : List Nat) : Nat :=
  (Layout.rowMajor (group.map len)).position (group.map (clip len point))

section Spots

variable {len len' point point' : Nat → Nat} {group : List Nat}

theorem clip_congr {column : Nat} (hlen : len column = len' column)
    (hpoint : point column = point' column) : clip len point column = clip len' point' column := by
  rw [clip, clip, hlen, hpoint]

/-- A value below the length of its column is read as it is. -/
theorem clip_of_lt {column : Nat} (hbelow : point column < len column) :
    clip len point column = point column := by
  rw [clip]
  by_cases hunit : len column = 1
  · rw [if_pos hunit]
    omega
  · rw [if_neg hunit]

theorem spot_congr (hlen : ∀ column ∈ group, len column = len' column)
    (hpoint : ∀ column ∈ group, point column = point' column) :
    spot len point group = spot len' point' group := by
  rw [spot, spot, map_congr_left hlen,
    map_congr_left fun column hmem => clip_congr (hlen column hmem) (hpoint column hmem)]

/-- Axes of length one do not matter. -/
theorem group_unitAt (units : List Nat) (len point : Nat → Nat) (group : List Nat) :
    volume (group.map (unitAt units len)) = volume ((group.filter (· ∉ units)).map len) ∧
      spot (unitAt units len) point group = spot len point (group.filter (· ∉ units)) := by
  have hcons : ∀ (len point : Nat → Nat) (column : Nat) (group : List Nat),
      spot len point (column :: group) =
        clip len point column * volume (group.map len) + spot len point group :=
    fun _ _ _ _ => rfl
  induction group with
  | nil => exact ⟨rfl, rfl⟩
  | cons column group ih =>
    obtain ⟨hvolume, hspot⟩ := ih
    rw [map_cons, volume, hcons, hvolume, hspot]
    by_cases hmem : column ∈ units
    · rw [filter_cons_of_neg (by simpa using hmem), unitAt_of_mem hmem, clip,
        if_pos (unitAt_of_mem hmem len), Nat.one_mul, Nat.zero_mul, Nat.zero_add]
      exact ⟨rfl, rfl⟩
    · rw [filter_cons_of_pos (by simpa using hmem), map_cons, volume, hcons, unitAt_of_notMem hmem,
        clip_congr (unitAt_of_notMem hmem len) rfl]
      exact ⟨rfl, rfl⟩

end Spots

namespace Frame

variable {α R : Type} [Scalar α] [CommSemiring R] {F : Frame α R} {e : Emission α} {node : NodeId}
  {len len' : Nat → Nat} {f : List (Tensor α) → (Nat → Nat) → R} {groups : List (List Nat)}
  {point : Nat → Nat} {g : Grouping} {values : List Nat} {later : Nat → Bool}

theorem Roomy.merged (hroomy : F.Roomy (groups.flatten.map len)) :
    F.Roomy (groups.map fun group => volume (group.map len)) := by
  apply hroomy.of_le
  have hle := bulk_groups_le (groups.map (List.map len))
  rw [map_map, ← map_flatten] at hle
  exact hle

/-- Every group becomes one axis. -/
theorem emits_merged (hlabelled : F.Labelled e.graph node groups.flatten len f)
    (hroomy : F.Roomy (groups.flatten.map len))
    (hzeros : OwnZeros (groups.flatten.map len)
      (groups.map fun group => volume (group.map len))) :
    Emits e (emitReshape node (groups.map fun group => volume (group.map len))) fun node g =>
      F.Located g node (groups.map fun group => volume (group.map len))
        (fun point => groups.map (spot len point)) f := by
  apply emits_reshape hlabelled.located hroomy hroomy.merged hzeros (volume_groups groups)
  intro point hpoint
  exact ⟨inRange_groups fun _ _ column _ => hlabelled.sized.clip_lt hpoint column,
    position_groups groups⟩

/-- The axis of every group is taken apart. -/
theorem emits_split (hsized : F.Sized len)
    (hlocated : F.Located e.graph node (groups.map fun group => volume (group.map len))
      (fun point => groups.map (spot len point)) f)
    (hroomy : F.Roomy (groups.flatten.map len))
    (hzeros : OwnZeros (groups.map fun group => volume (group.map len))
      (groups.flatten.map len)) :
    Emits e (emitReshape node (groups.flatten.map len)) fun node g =>
      F.Labelled g node groups.flatten len f :=
  emits_labelled hsized (emits_reshape hlocated hroomy.merged hroomy hzeros
    (volume_groups groups).symm fun hpoint =>
      ⟨hsized.inRange hpoint _, (position_groups groups).symm⟩)

section Units

variable {units : List Nat} {own : List (List Nat)}
  (hown : groups.map (List.filter (· ∉ units)) = own)

include hown

theorem merged_unitAt :
    (groups.map fun group => volume (group.map (unitAt units len))) =
      own.map fun group => volume (group.map len) := by
  rw [← hown, map_map]
  exact map_congr_left fun group _ => (group_unitAt units len (fun _ => 0) group).1

theorem spots_unitAt (point : Nat → Nat) :
    groups.map (spot (unitAt units len) point) = own.map (spot len point) := by
  rw [← hown, map_map]
  exact map_congr_left fun group _ => (group_unitAt units len point group).2

end Units

/-! ## The product -/

section Product

variable {batch rows inner others : List Nat}

/-- A group is not moved by values of other columns. -/
theorem spot_assign (hfree : ∀ column ∈ rows, column ∉ inner) :
    spot len (assign inner values point) rows = spot len point rows :=
  spot_congr (fun _ _ => rfl) fun column hcolumn => assign_of_notMem (hfree column hcolumn) point

/-- A group is read at the position of the values of its columns. -/
theorem spot_assign_self (hnodup : inner.Nodup) (hvalues : InRange values (inner.map len)) :
    spot len (assign inner values point) inner =
      (Layout.rowMajor (inner.map len)).position values := by
  have hread : ∀ column ∈ inner,
      clip len (assign inner values point) column = assign inner values point column :=
    fun column hcolumn => clip_of_lt (assign_lt hvalues hcolumn point)
  have hlength : values.length = inner.length := by rw [hvalues.length_eq, length_map]
  rw [spot, map_congr_left hread, map_assign hnodup hlength]

/-- The product of two stacks of matrices sums over the values of the columns that both have
inside. -/
theorem val_dot (hexact : Exact F.val) {r s : Reading α} {k l : (Nat → Nat) → R}
    (hnodup : inner.Nodup)
    (hfree : ∀ column ∈ inner, column ∉ batch ∧ column ∉ rows ∧ column ∉ others)
    (hfull : ∀ column ∈ inner, len column = F.len column)
    (hlens : r.lens = [volume (batch.map len), volume (rows.map len), volume (inner.map len)])
    (hleft : ∀ {point}, F.Bounded point →
      F.val (r.value [spot len point batch, spot len point rows, spot len point inner]) = k point)
    (hright : ∀ {point}, F.Bounded point →
      F.val (s.value [spot len point batch, spot len point inner, spot len point others]) = l point)
    (hpoint : F.Bounded point) :
    F.val (r.dot s [spot len point batch, spot len point rows, spot len point others]) =
      sumOver F.len inner (fun point => k point * l point) point := by
  have hmatrix : matrixLens? r.lens =
      some ([volume (batch.map len)], volume (rows.map len), volume (inner.map len)) :=
    matrixLens?_eq_some_iff.2 hlens
  have hindex : matrixLens?
      [spot len point batch, spot len point rows, spot len point others] =
      some ([spot len point batch], spot len point rows, spot len point others) := rfl
  rw [Reading.dot, hmatrix, hindex]
  show F.val ((List.range (volume (inner.map len))).foldl _ _) = _
  rw [val_foldl_add hexact, hexact.zero, zero_add, ← map_position_indices, map_map,
    sumOver_eq_sum_indices fun column _ => hpoint.len_pos column, map_congr_left hfull]
  congr 1
  apply map_congr_left
  intro values hvalues
  rw [mem_indices_iff] at hvalues
  have hassigned := hpoint.assigned hvalues
  rw [← map_congr_left hfull] at hvalues
  have hk := hleft hassigned
  have hl := hright hassigned
  rw [spot_assign fun column hcolumn hmem => (hfree column hmem).1 hcolumn,
    spot_assign_self hnodup hvalues] at hk hl
  rw [spot_assign fun column hcolumn hmem => (hfree column hmem).2.1 hcolumn] at hk
  rw [spot_assign fun column hcolumn hmem => (hfree column hmem).2.2 hcolumn] at hl
  rw [← hk, ← hl, ← hexact.mul, ← map_congr_left hfull]
  rfl

/-- One product of stacked matrices. -/
theorem emits_product {left right : NodeId} {fl fr : List (Tensor α) → (Nat → Nat) → R}
    (hsized : F.Sized len) (hnodup : inner.Nodup)
    (hfree : ∀ column ∈ inner, column ∉ batch ∧ column ∉ rows ∧ column ∉ others)
    (hfull : ∀ column ∈ inner, len column = F.len column)
    (hleft : F.Located e.graph left
      [volume (batch.map len), volume (rows.map len), volume (inner.map len)]
      (fun point => [spot len point batch, spot len point rows, spot len point inner]) fl)
    (hright : F.Located e.graph right
      [volume (batch.map len), volume (inner.map len), volume (others.map len)]
      (fun point => [spot len point batch, spot len point inner, spot len point others]) fr)
    (hroomy : F.Roomy [volume (batch.map len), volume (rows.map len), volume (others.map len)]) :
    Emits e (Emit.add .dot [left, right] []) fun node g =>
      F.Located g node [volume (batch.map len), volume (rows.map len), volume (others.map len)]
        (fun point => [spot len point batch, spot len point rows, spot len point others])
        fun tensors => sumOver F.len inner fun point => fl tensors point * fr tensors point := by
  obtain ⟨axes, hlens, hleft⟩ := hleft
  obtain ⟨axes', hlens', hright⟩ := hright
  have hinfer : (Operator.dot : Operator α).infer [.strided F.elem axes, .strided F.elem axes'] [] =
      .ok (.strided F.elem (Layout.rowMajor
        [volume (batch.map len), volume (rows.map len), volume (others.map len)])) :=
    dotShape_iff.2 ⟨F.elem, axes, axes', [volume (batch.map len)], _, _, _, rfl, hlens, hlens',
      Shape.standard_of_bulk _ hroomy.lt_limit⟩
  have hrange : ∀ {point}, F.Bounded point →
      InRange [spot len point batch, spot len point rows, spot len point others]
        [volume (batch.map len), volume (rows.map len), volume (others.map len)] := by
    intro point hpoint
    have hgroups := @inRange_groups _ len (clip len point) [batch, rows, others]
      fun _ _ column _ => hsized.clip_lt hpoint column
    exact hgroups
  apply emits_located_of_gives hrange
  apply gives_add_two .dot rfl trivial
    (show F.Gives _ _ (Prod.fst (_, _)) (Prod.snd (_, _)) from hleft.gives)
    (show F.Gives _ _ (Prod.fst (_, _)) (Prod.snd (_, _)) from hright.gives) hinfer
  · intro _ hmet tensors t u ht hu
    rw [Shape.lens_strided, Layout.lens_rowMajor]
    exact ⟨⟨_, Word.product_of_bulk hroomy.lt_limit⟩, hroomy.le_buffer hmet⟩
  · intro hexact tensors t u v ht hu hholds point hpoint
    rw [hholds.entry_eq]
    · have htlens : t.reading.lens =
          [volume (batch.map len), volume (rows.map len), volume (inner.map len)] := by
        rw [Tensor.lens_reading, Tensor.lens_of_shape ht.1, hlens]
      exact val_dot hexact hnodup hfree hfull htlens
        (fun hpoint => val_reading ht.1 hleft.inRange ht.2.2 hpoint)
        (fun hpoint => val_reading hu.1 hright.inRange hu.2.2 hpoint) hpoint
    · rw [Shape.lens_strided, Layout.lens_rowMajor]
      exact hrange hpoint

end Product

/-! ## Shared lengths -/

/-- How long columns are after those that both operands have were broadcast. -/
def widened (g : Grouping) (own other : Nat → Nat) (column : Nat) : Nat :=
  if column ∈ g.batch ∨ column ∈ g.summed then max (own column) (other column) else own column

theorem sharedLens_map (hnodup : g.order.Nodup) (own other : Nat → Nat) :
    sharedLens g (g.order.map own) (g.order.map other) = g.order.map (widened g own other) := by
  rw [sharedLens]
  apply ext_getElem
  · simp
  · intro i hi hi'
    have hi'' : i < g.order.length := by simpa using hi'
    have hshared := Grouping.isShared_idxOf hnodup (getElem_mem hi'')
    rw [hnodup.idxOf_getElem i hi''] at hshared
    simp only [getElem_map, getElem_zipIdx, getElem_zip, Nat.zero_add, widened,
      hshared]

/-- How long columns are in the product: as in the operand that has them. -/
def jointLen (g : Grouping) (own other : Nat → Nat) (column : Nat) : Nat :=
  if column ∈ g.rightOnly then other column else widened g own other column

section Widened

variable (hsized : F.Sized len) (hsized' : F.Sized len')
  (hempty : ∀ column, column ∈ g.batch ∨ column ∈ g.summed → (len column = 0 ↔ len' column = 0))

include hsized hsized' hempty

/-- The longer of two lengths is the length of the column, unless one is empty and the other is not.
Only axes of length one get longer. -/
theorem Sized.widened (column : Nat) :
    (Frame.widened g len len' column = 1 ∨ Frame.widened g len len' column = F.len column) ∧
      (len column = Frame.widened g len len' column ∨ len column = 1) := by
  rw [Frame.widened]
  by_cases hshared : column ∈ g.batch ∨ column ∈ g.summed
  · rw [if_pos hshared]
    have := hempty column hshared
    have := hsized column
    have := hsized' column
    omega
  · rw [if_neg hshared]
    exact ⟨hsized column, .inl rfl⟩

theorem Sized.joint : F.Sized (jointLen g len len') := by
  intro column
  rw [jointLen]
  by_cases hmem : column ∈ g.rightOnly
  · rw [if_pos hmem]
    exact hsized' column
  · rw [if_neg hmem]
    exact (hsized.widened hsized' hempty column).1

end Widened

section Joint

variable {g : Grouping} (hnodup : g.order.Nodup)

include hnodup

/-- The left operand has the lengths of the product, except in columns that it does not have. -/
theorem widened_left (hunits : ∀ column ∈ g.rightOnly ++ g.rest, len column = 1) (column : Nat) :
    widened g len len' column = unitAt (g.rightOnly ++ g.rest) (jointLen g len len') column := by
  obtain ⟨hbatch, -, hright, hsummed⟩ := Grouping.apart hnodup
  by_cases hmem : column ∈ g.rightOnly ++ g.rest
  · rw [unitAt_of_mem hmem, widened, if_neg, hunits column hmem]
    rw [mem_append] at hmem
    grind
  · rw [unitAt_of_notMem hmem, jointLen, if_neg]
    exact fun hother => hmem (mem_append_left _ hother)

/-- And so has the right operand. -/
theorem widened_right (hunits : ∀ column ∈ g.leftOnly ++ g.rest, len' column = 1) {column : Nat}
    (hcolumn : column ∈ g.order) :
    widened g len' len column = unitAt (g.leftOnly ++ g.rest) (jointLen g len len') column := by
  obtain ⟨hbatch, hleft, hright, hsummed⟩ := Grouping.apart hnodup
  by_cases hmem : column ∈ g.leftOnly ++ g.rest
  · rw [unitAt_of_mem hmem, widened, if_neg, hunits column hmem]
    rw [mem_append] at hmem
    grind
  · rw [unitAt_of_notMem hmem, jointLen, widened, widened, Nat.max_comm]
    simp only [Grouping.order, mem_append] at hcolumn hmem
    grind

/-- The lengths of the groups are found where the groups stand. -/
theorem spans_order (len : Nat → Nat) :
    (g.order.map (unitAt (g.rightOnly ++ g.rest) len)).take g.leftStart = g.batch.map len ∧
      span (g.order.map (unitAt (g.rightOnly ++ g.rest) len)) g.leftStart g.leftOnly.length =
        g.leftOnly.map len ∧
      span (g.order.map (unitAt (g.leftOnly ++ g.rest) len)) g.rightStart g.rightOnly.length =
        g.rightOnly.map len ∧
      span (g.order.map (unitAt (g.rightOnly ++ g.rest) len)) g.summedStart g.summed.length =
        g.summed.map len := by
  obtain ⟨hbatch, hleft, hright, hsummed⟩ := Grouping.apart hnodup
  have hspan : ∀ before group after units : List Nat, g.order = before ++ group ++ after →
      (∀ column ∈ group, column ∉ units) →
      span (g.order.map (unitAt units len)) before.length group.length = group.map len := by
    intro before group after units horder hfree
    rw [horder, append_assoc, map_append, span, drop_left' (length_map _), map_append,
      take_left' (length_map _)]
    exact map_congr_left fun column hmem => unitAt_of_notMem (hfree column hmem) len
  refine ⟨?_, ?_, ?_, ?_⟩
  · apply hspan [] g.batch (g.leftOnly ++ g.rightOnly ++ g.summed ++ g.rest)
    · simp [Grouping.order]
    · simp only [mem_append]
      grind
  · apply hspan g.batch g.leftOnly (g.rightOnly ++ g.summed ++ g.rest)
    · simp [Grouping.order]
    · simp only [mem_append]
      grind
  · have hstart : g.rightStart = (g.batch ++ g.leftOnly).length := length_append.symm
    rw [hstart]
    apply hspan (g.batch ++ g.leftOnly) g.rightOnly (g.summed ++ g.rest)
    · simp [Grouping.order]
    · simp only [mem_append]
      grind
  · have hstart : g.summedStart = (g.batch ++ g.leftOnly ++ g.rightOnly).length := by
      rw [length_append, length_append]
      rfl
    rw [hstart]
    apply hspan (g.batch ++ g.leftOnly ++ g.rightOnly) g.summed g.rest
    · rfl
    · simp only [mem_append]
      grind

end Joint

/-! ## The whole contraction -/

theorem Labelled.relabel {g : Graph α} {columns : List Nat}
    (hlabelled : F.Labelled g node columns len f) (hsized : F.Sized len')
    (hlen : ∀ column ∈ columns, len' column = len column) : F.Labelled g node columns len' f := by
  refine ⟨hsized, ?_⟩
  rw [map_congr_left hlen]
  apply hlabelled.located.congr _ fun _ _ _ => rfl
  intro point _
  exact map_congr_left fun column hmem => clip_congr (hlen column hmem) rfl

section Grouped

variable {g : Grouping} {count : Nat} (hperm : g.order.Perm (List.range count))
  (hroomy : F.Roomy ((List.range count).map F.len))

include hperm hroomy

theorem Sized.roomy_order (hsized : F.Sized len) : F.Roomy (g.order.map len) :=
  hsized.roomy hroomy (hperm.nodup_iff.2 nodup_range) fun _ hmem =>
    mem_range.1 (hperm.mem_iff.1 hmem)

/-- An operand as a stack of matrices. Columns that it does not have are axes of length one, and go
into the group that they stand next to. -/
theorem emits_matrices {units : List Nat} {own : List (List Nat)}
    (hown : [g.batch, g.leftOnly ++ g.rightOnly, g.summed ++ g.rest].map
      (List.filter (· ∉ units)) = own)
    (hlabelled : F.Labelled e.graph node g.order (unitAt units len) f)
    (hzeros : OwnZeros (g.order.map (unitAt units len))
      (own.map fun group => volume (group.map len))) :
    Emits e (emitReshape node (own.map fun group => volume (group.map len))) fun node h =>
      F.Located h node (own.map fun group => volume (group.map len))
        (fun point => own.map (spot len point)) f := by
  have horder : g.order = [g.batch, g.leftOnly ++ g.rightOnly, g.summed ++ g.rest].flatten := by
    simp [Grouping.order]
  have hroomy := hlabelled.sized.roomy_order hperm hroomy
  rw [horder] at hlabelled hroomy hzeros
  have hmerged := emits_merged hlabelled hroomy
  simp only [merged_unitAt hown, spots_unitAt hown] at hmerged
  exact hmerged hzeros

/-- The product has the axes of its columns, and axes of length one for all others. -/
theorem emits_result (hsized : F.Sized len) (hlocated : F.Located e.graph node
      [volume (g.batch.map len), volume (g.leftOnly.map len), volume (g.rightOnly.map len)]
      (fun point => [spot len point g.batch, spot len point g.leftOnly, spot len point g.rightOnly]) f)
    (hpasses : g.Passes len) :
    Emits e (emitReshape node ((g.batch ++ g.leftOnly ++ g.rightOnly).map len ++
        List.replicate (count - (g.batch ++ g.leftOnly ++ g.rightOnly).length) 1))
      fun node h => F.Labelled h node g.order (unitAt (g.summed ++ g.rest) len) f := by
  have hnodup : g.order.Nodup := hperm.nodup_iff.2 nodup_range
  obtain ⟨hbatch, hleft, hright, -⟩ := Grouping.apart hnodup
  have houter : ∀ column ∈ g.batch ++ g.leftOnly ++ g.rightOnly,
      unitAt (g.summed ++ g.rest) len column = len column := by
    intro column hmem
    apply unitAt_of_notMem
    simp only [mem_append] at hmem ⊢
    grind
  have hunits : ∀ column ∈ g.summed ++ g.rest, unitAt (g.summed ++ g.rest) len column = 1 :=
    fun column hmem => unitAt_of_mem hmem len
  have horder : g.order = [g.batch, g.leftOnly, g.rightOnly ++ (g.summed ++ g.rest)].flatten := by
    simp [Grouping.order]
  obtain ⟨-, -, hown⟩ := Grouping.filter_matrices hnodup
  have hcount : count - (g.batch ++ g.leftOnly ++ g.rightOnly).length =
      (g.summed ++ g.rest).length := by
    have hlength := hperm.length_eq
    rw [length_range, Grouping.order, append_assoc, length_append] at hlength
    omega
  have hout : (g.batch ++ g.leftOnly ++ g.rightOnly).map len ++
      List.replicate (count - (g.batch ++ g.leftOnly ++ g.rightOnly).length) 1 =
        g.order.map (unitAt (g.summed ++ g.rest) len) := by
    rw [hcount, ← map_congr_left houter, ← map_const', ← map_congr_left hunits,
      ← map_append, Grouping.order, append_assoc _ g.summed]
  -- Zeros stand among the columns of the product, since all others are ones.
  have hzeros : OwnZeros
      [volume (g.batch.map len), volume (g.leftOnly.map len), volume (g.rightOnly.map len)]
      (g.order.map (unitAt (g.summed ++ g.rest) len)) := by
    rw [← hout]
    intro place _ hzero
    by_cases hplace : place < ((g.batch ++ g.leftOnly ++ g.rightOnly).map len).length
    · rw [getElem?_append_left hplace] at hzero
      exact hpasses.result place hplace hzero
    · rw [getElem?_append_right (Nat.le_of_not_lt hplace), getElem?_replicate] at hzero
      split at hzero <;> cases hzero
  have hreduced := hsized.reduce (g.summed ++ g.rest)
  have hroomy := hreduced.roomy_order hperm hroomy
  rw [hout]
  rw [horder] at hroomy hzeros ⊢
  refine emits_split hreduced ?_ hroomy ?_
  · simp only [merged_unitAt hown, spots_unitAt hown]
    exact hlocated
  · rw [merged_unitAt hown]
    exact hzeros

/-- Groups of columns have products that fit. -/
theorem Sized.product_eq (hsized : F.Sized len) {group : List Nat} (hsub : group.Sublist g.order) :
    Word.product (group.map len) = .ok (volume (group.map len)) := by
  have hnodup := hperm.nodup_iff.2 nodup_range
  apply Word.product_of_bulk
  exact (hsized.roomy hroomy (hnodup.sublist hsub) fun column hmem =>
    mem_range.1 (hperm.mem_iff.1 (hsub.subset hmem))).lt_limit

theorem Sized.roomy_matrices (hsized : F.Sized len) :
    F.Roomy [volume (g.batch.map len), volume (g.leftOnly.map len), volume (g.rightOnly.map len)] := by
  have hnodup := hperm.nodup_iff.2 nodup_range
  obtain ⟨-, -, -, -, hsub⟩ := g.sublists_order
  have hflatten : [g.batch, g.leftOnly, g.rightOnly].flatten =
      g.batch ++ g.leftOnly ++ g.rightOnly := by simp
  apply @Roomy.merged _ _ _ _ F len [g.batch, g.leftOnly, g.rightOnly]
  rw [hflatten]
  exact hsized.roomy hroomy (hnodup.sublist hsub) fun column hmem =>
    mem_range.1 (hperm.mem_iff.1 (hsub.subset hmem))

omit hroomy in
/-- Columns are brought back into their order. -/
theorem emits_restored (hlabelled : F.Labelled e.graph node g.order len f) :
    ∃ places, Permutation.inverse g.order = .ok places ∧
      Emits e (emitTranspose node places) fun node h =>
        F.Labelled h node (List.range count) len f := by
  obtain ⟨places, hinverse, hback⟩ := Permutation.exists_inverse hperm
  have hlength : places.length = g.order.length := by
    rw [(Permutation.reorder_eq_ok_iff.1 hback).length_eq, hperm.length_eq]
  exact ⟨places, hinverse, emits_reordered hlabelled
    (Permutation.isPermutation_of_reorder hback nodup_range hlength) hlength hback⟩

end Grouped

/-- Where every column of the left operand is a column of the right one or needed later, none is summed
over before the product. -/
theorem filter_idle {count : Nat} {left right : List Nat}
    (hlater : ∀ column ∈ left, column ∈ right ∨ later column = true) :
    (List.range count).filter (fun column =>
      left.contains column && !right.contains column && !later column) = [] := by
  rw [filter_eq_nil_iff]
  intro column _
  simp only [contains_eq_mem, Bool.and_eq_true, decide_eq_true_eq, Bool.not_eq_true',
    decide_eq_false_iff_not, not_and, Bool.not_eq_false]
  rintro ⟨hmem, hother⟩
  exact (hlater column hmem).resolve_left hother

/-- Two operands are contracted: what they hold is multiplied, and summed over the columns of both that
are not needed later. -/
theorem emits_contract {count : Nat} {left right : Operand}
    {fl fr : List (Tensor α) → (Nat → Nat) → R}
    (hleft : F.Labelled e.graph left.node (List.range count) len fl)
    (hright : F.Labelled e.graph right.node (List.range count) len' fr)
    (hroomy : F.Roomy ((List.range count).map F.len))
    (hunits : ∀ column ∉ left.present, len column = 1)
    (hunits' : ∀ column ∉ right.present, len' column = 1)
    (hlater : ∀ column ∈ left.present, column ∈ right.present ∨ later column = true)
    (hgroups : Grouping.of count left.present right.present later = g)
    (hempty : ∀ column, column ∈ g.batch ∨ column ∈ g.summed → (len column = 0 ↔ len' column = 0))
    (hfull : ∀ column ∈ g.summed, jointLen g len len' column = F.len column)
    (hpasses : g.Passes (jointLen g len len')) :
    Emits e (emitContract count left right later) fun operand h =>
      operand.present = g.batch ++ g.leftOnly ++ g.rightOnly ∧
        F.Labelled h operand.node (List.range count)
          (unitAt (g.summed ++ g.rest) (jointLen g len len'))
          fun tensors => sumOver F.len g.summed fun point => fl tensors point * fr tensors point := by
  have hkept : left.present.filter (fun column => !([] : List Nat).contains column) = left.present := by
    simp
  have hperm : g.order.Perm (List.range count) := hgroups ▸ Grouping.order_perm _ _ _ _
  have hnodup : g.order.Nodup := hperm.nodup_iff.2 nodup_range
  obtain ⟨hbatch, hleftOnly, hrightOnly, -⟩ := Grouping.apart hnodup
  obtain ⟨hownLeft, hownRight, -⟩ := Grouping.filter_matrices hnodup
  obtain ⟨hsubBatch, hsubLeft, hsubRight, hsubSummed, -⟩ := g.sublists_order
  have hleftUnits : ∀ column ∈ g.rightOnly ++ g.rest, len column = 1 := by
    intro column hmem
    rw [← hgroups, mem_append, Grouping.mem_rightOnly, Grouping.mem_rest] at hmem
    exact hunits column (by grind)
  have hrightUnits : ∀ column ∈ g.leftOnly ++ g.rest, len' column = 1 := by
    intro column hmem
    rw [← hgroups, mem_append, Grouping.mem_leftOnly, Grouping.mem_rest] at hmem
    exact hunits' column (by grind)
  have hempty' : ∀ column, column ∈ g.batch ∨ column ∈ g.summed →
      (len' column = 0 ↔ len column = 0) := fun column hmem => (hempty column hmem).symm
  -- From here on, columns are as long as in the product, and both operands differ from that only by
  -- the columns that they do not have.
  have hlWiden : ∀ column ∈ g.order, widened g len len' column =
      unitAt (g.rightOnly ++ g.rest) (jointLen g len len') column :=
    fun column _ => widened_left hnodup hleftUnits column
  have hrWiden : ∀ column ∈ g.order, widened g len' len column =
      unitAt (g.leftOnly ++ g.rest) (jointLen g len len') column :=
    fun column hmem => widened_right hnodup hrightUnits hmem
  have hsized : F.Sized (jointLen g len len') := hleft.sized.joint hright.sized hempty
  generalize jointLen g len len' = joint at *
  obtain ⟨hbatchLens, hleftLens, hrightLens, hsummedLens⟩ := spans_order hnodup joint
  unfold emitContract
  rw [filter_idle hlater]
  simp only [emitReduceSum, isEmpty_nil, if_true, pure_bind, hkept, hgroups]
  apply (emits_ordered hleft hperm).bind
  intro l e hextends hl
  apply (emits_ordered (hright.mono hextends) hperm).bind
  intro r e hextends hr
  apply (hl.mono hextends).located.lensOf_bind
  apply hr.located.lensOf_bind
  rw [sharedLens_map hnodup, sharedLens_map hnodup]
  have hlSized := hl.sized.widened hr.sized hempty
  have hrSized := hr.sized.widened hl.sized hempty'
  apply (emits_widened (hl.mono hextends) (fun column => (hlSized column).1)
    fun column _ => (hlSized column).2).bind
  intro l e hextends hl'
  apply (emits_widened (hr.mono hextends) (fun column => (hrSized column).1)
    fun column _ => (hrSized column).2).bind
  intro r e hextends hr'
  rw [map_congr_left hlWiden, map_congr_left hrWiden, hbatchLens, hleftLens, hrightLens,
    hsummedLens]
  apply Emits.checked_bind (hsized.product_eq hperm hroomy hsubBatch)
  apply Emits.checked_bind (hsized.product_eq hperm hroomy hsubSummed)
  apply Emits.checked_bind (hsized.product_eq hperm hroomy hsubLeft)
  have hlUnits := (hl'.mono hextends).relabel (hsized.reduce (g.rightOnly ++ g.rest))
    fun column hmem => (hlWiden column hmem).symm
  apply (emits_matrices hperm hroomy hownLeft hlUnits hpasses.left).bind
  intro l e hextends hlMatrices
  apply Emits.checked_bind (hsized.product_eq hperm hroomy hsubRight)
  have hrUnits := (hr'.mono hextends).relabel (hsized.reduce (g.leftOnly ++ g.rest))
    fun column hmem => (hrWiden column hmem).symm
  apply (emits_matrices hperm hroomy hownRight hrUnits hpasses.right).bind
  intro r e hextends hrMatrices
  have hturned : Emits e (emitTranspose r [0, 2, 1]) fun node h => F.Located h node
      [volume (g.batch.map joint), volume (g.summed.map joint), volume (g.rightOnly.map joint)]
      (fun point => [spot joint point g.batch, spot joint point g.summed,
        spot joint point g.rightOnly]) fr :=
    emits_transpose hrMatrices rfl rfl rfl fun _ => rfl
  apply hturned.bind
  intro r e hextends' hrTurned
  have hfree : ∀ column ∈ g.summed, column ∉ g.batch ∧ column ∉ g.leftOnly ∧ column ∉ g.rightOnly := by
    grind
  apply (emits_product hsized (hnodup.sublist hsubSummed) hfree hfull
    ((hlMatrices.mono hextends).mono hextends') hrTurned
    (hsized.roomy_matrices hperm hroomy)).bind
  intro product e _ hdot
  rw [← map_append, ← map_append, length_map]
  apply (emits_result hperm hroomy hsized hdot hpasses).bind
  intro product e _ hresult
  obtain ⟨places, hinverse, hrestored⟩ := emits_restored hperm hresult
  apply Emits.checked_bind hinverse
  apply hrestored.bind
  intro node e _ hnode
  exact .pure ⟨rfl, hnode⟩

end Frame

end TensorGraph.Einsum
