import TensorGraph.Proofs.Einsum.Contraction
import TensorGraph.Proofs.Einsum.Diagonal

/-!
# One operand after the other

The result so far holds the sum, over the columns that nothing needs any more, of the product of what the
operands hold, and the next operand keeps this true.
-/

namespace TensorGraph

open List

/-! ## Products and axes of the first operands -/

section Prefixes

variable {β γ : Type} {items : List β} {others : List γ} {item : β}

theorem exists_mem_zip (hlength : items.length = others.length) (hmem : item ∈ items) :
    ∃ other, (item, other) ∈ items.zip others := by
  rw [← map_fst_zip hlength.le] at hmem
  obtain ⟨pair, hpair, rfl⟩ := mem_map.1 hmem
  exact ⟨pair.2, hpair⟩

theorem mem_zip_of_getElem? {position : Nat} {other : γ} (hitem : items[position]? = some item)
    (hother : others[position]? = some other) :
    (item, other) ∈ items.zip others :=
  mem_of_getElem? (getElem?_zip_eq_some.2 ⟨hitem, hother⟩)

theorem zipWith_take {δ : Type} (f : β → γ → δ) (first : List β) (second : List γ) (n : Nat) :
    List.zipWith f (first.take n) second = (List.zipWith f first second).take n := by
  refine ext_getElem? fun i => ?_
  rw [getElem?_zipWith, getElem?_take, getElem?_take, getElem?_zipWith]
  split_ifs <;> rfl

variable {ι : Type} {inputs : List (List ι)} {lens : List (List Nat)} {position : Nat}
  {own : List ι} {ownLens : List Nat} {axis : ι × Nat}

theorem labelledAxes_take (inputs : List (List ι)) (lens : List (List Nat)) (position : Nat) :
    labelledAxes (inputs.take position) lens =
      ((inputs.zip lens).take position).flatMap fun (labels, lens) => labels.zip lens := by
  have htake := zipWith_take Prod.mk inputs lens position
  exact congrArg (List.flatMap _) htake

theorem labelledAxes_take_succ (hown : inputs[position]? = some own)
    (hlens : lens[position]? = some ownLens) :
    labelledAxes (inputs.take (position + 1)) lens =
      labelledAxes (inputs.take position) lens ++ own.zip ownLens := by
  have hpair : (inputs.zip lens)[position]? = some (own, ownLens) :=
    getElem?_zip_eq_some.2 ⟨hown, hlens⟩
  rw [labelledAxes_take, take_add_one, hpair, flatMap_append, ← labelledAxes_take]
  exact congrArg _ (append_nil _)

theorem labelledAxes_take_subset (inputs : List (List ι)) (lens : List (List Nat)) (position : Nat) :
    labelledAxes (inputs.take position) lens ⊆ labelledAxes inputs lens := by
  intro axis hmem
  rw [labelledAxes_take] at hmem
  obtain ⟨operand, hoperand, haxis⟩ := mem_flatMap.1 hmem
  exact mem_flatMap.2 ⟨operand, mem_of_mem_take hoperand, haxis⟩

/-- All axes of a label that only the first operands have are axes of the first operands. -/
theorem mem_labelledAxes_take (hmem : axis ∈ labelledAxes inputs lens)
    (hlater : ∀ own ∈ inputs.drop position, axis.1 ∉ own) :
    axis ∈ labelledAxes (inputs.take position) lens := by
  obtain ⟨⟨own, ownLens⟩, hoperand, haxis⟩ := mem_flatMap.1 hmem
  rw [labelledAxes_take]
  apply mem_flatMap.2 ⟨(own, ownLens), ?_, haxis⟩
  rw [← take_append_drop position (inputs.zip lens), mem_append] at hoperand
  apply hoperand.resolve_right
  intro hdrop
  rw [List.zip, drop_zipWith] at hdrop
  exact hlater own (of_mem_zip hdrop).1 (of_mem_zip haxis).1

variable {α R : Type} [Scalar α] [CommSemiring R] {point point' : ι → Nat}

/-- What an operand holds at a point. An operand that is not there counts one. -/
def heldAt (val : α → R) (own : List ι) (operand : Option (Tensor α)) (point : ι → Nat) : R :=
  match operand with
  | some t => val (t.entry (readIndex t.lens own point))
  | none => 1

theorem productAt_take_succ (val : α → R) (operands : List (Tensor α))
    (hown : inputs[position]? = some own) (point : ι → Nat) :
    productAt val (inputs.take (position + 1)) operands point =
      productAt val (inputs.take position) operands point *
        heldAt val own operands[position]? point := by
  rw [productAt, zipWith_take, take_add_one, prod_append, ← zipWith_take,
    getElem?_zipWith, hown]
  congr 1
  cases operands[position]? with
  | none => exact prod_nil
  | some t => exact prod_singleton

theorem heldAt_congr (val : α → R) (operand : Option (Tensor α))
    (hsame : ∀ label ∈ own, point' label = point label) :
    heldAt val own operand point' = heldAt val own operand point := by
  cases operand with
  | none => rfl
  | some t =>
    have hread := @readIndex_map _ _ id t.lens own point point' hsame
    rw [map_id] at hread
    rw [heldAt, heldAt, hread]

theorem productAt_congr (val : α → R) (operands : List (Tensor α))
    (hsame : ∀ label ∈ inputs.flatten, point' label = point label) :
    productAt val inputs operands point' = productAt val inputs operands point := by
  have hproduct := @productAt_map _ _ _ _ _ _ id val inputs operands point point' hsame
  simpa using hproduct

end Prefixes

namespace Einsum

open Graph

/-! ## Pending and settled columns -/

namespace Columns

variable (columns : Columns) (position : Nat)

/-- Whether an operand before this position has a column. -/
def metBefore (column : Nat) : Bool := (columns.inputs.take position).any (·.contains column)

/-- Whether an operand from this position on has a column, or the output. -/
def neededFrom (column : Nat) : Bool :=
  (columns.inputs.drop position).any (·.contains column) || columns.output.contains column

/-- The columns of the operands so far that are still needed. -/
def pending : List Nat :=
  (List.range columns.count).filter fun column =>
    columns.metBefore position column && columns.neededFrom position column

/-- The columns of the operands so far that are not needed any more. -/
def settled : List Nat :=
  (List.range columns.count).filter fun column =>
    columns.metBefore position column && !columns.neededFrom position column

/-- The columns that the operand at this position brings along: those of its own that are not summed
over at once. -/
def arriving : List Nat :=
  (List.range columns.count).filter fun column =>
    (columns.inputs.getD position []).contains column &&
      (columns.metBefore position column || columns.neededFrom (position + 1) column)

/-- How columns are grouped when the operand at this position is contracted with those before it. -/
def contraction : Grouping :=
  .of columns.count (columns.pending position) (columns.arriving position)
    (columns.neededAfter position)

variable {columns position} {column : Nat} {own : List Nat}

theorem metBefore_iff :
    columns.metBefore position column = true ↔ ∃ own ∈ columns.inputs.take position, column ∈ own := by
  simp [metBefore]

theorem neededFrom_iff :
    columns.neededFrom position column = true ↔
      (∃ own ∈ columns.inputs.drop position, column ∈ own) ∨ column ∈ columns.output := by
  simp [neededFrom]

theorem notMem_of_neededFrom (hneeded : columns.neededFrom position column = false) :
    ∀ own ∈ columns.inputs.drop position, column ∉ own := by
  intro own hown hcolumn
  rw [neededFrom_iff.2 (.inl ⟨own, hown, hcolumn⟩)] at hneeded
  cases hneeded

theorem mem_pending : column ∈ columns.pending position ↔
    column < columns.count ∧ columns.metBefore position column = true ∧
      columns.neededFrom position column = true := by
  simp [pending]

theorem mem_settled : column ∈ columns.settled position ↔
    column < columns.count ∧ columns.metBefore position column = true ∧
      columns.neededFrom position column = false := by
  simp [settled]

/-- What is needed after an operand is needed from the next one on. -/
theorem neededAfter_eq : columns.neededAfter position = columns.neededFrom (position + 1) := rfl

/-- The columns that an operand alone has and nothing else needs. -/
def dropped (columns : Columns) (position : Nat) : List Nat :=
  (List.range columns.count).filter fun column =>
    (columns.inputs.getD position []).contains column &&
      (!columns.metBefore position column && !columns.neededFrom (position + 1) column)

variable (hown : columns.inputs[position]? = some own)

include hown

theorem mem_arriving :
    column ∈ columns.arriving position ↔ column < columns.count ∧ column ∈ own ∧
      (columns.metBefore position column = true ∨
        columns.neededFrom (position + 1) column = true) := by
  simp [arriving, getD_eq_getElem?_getD, hown]

theorem metBefore_succ :
    columns.metBefore (position + 1) column = true ↔
      columns.metBefore position column = true ∨ column ∈ own := by
  rw [metBefore, take_add_one, hown, any_append, Bool.or_eq_true, ← metBefore]
  simp

theorem neededFrom_eq :
    columns.neededFrom position column = true ↔
      column ∈ own ∨ columns.neededFrom (position + 1) column = true := by
  obtain ⟨hbelow, rfl⟩ := List.getElem?_eq_some_iff.1 hown
  rw [neededFrom, drop_eq_getElem_cons hbelow, any_cons, Bool.or_assoc, Bool.or_eq_true,
    contains_iff_mem]
  rfl

theorem mem_dropped :
    column ∈ columns.dropped position ↔ column < columns.count ∧ column ∈ own ∧
      columns.metBefore position column = false ∧
        columns.neededFrom (position + 1) column = false := by
  simp [dropped, getD_eq_getElem?_getD, hown]

/-- What is pending after an operand: the columns that are left when it has been contracted. -/
theorem mem_pending_succ :
    column ∈ (columns.contraction position).batch ++ (columns.contraction position).leftOnly ++
        (columns.contraction position).rightOnly ↔ column ∈ columns.pending (position + 1) := by
  have hneeded := @neededFrom_eq columns position column own hown
  rw [mem_append, mem_append, contraction, Grouping.mem_batch, Grouping.mem_leftOnly,
    Grouping.mem_rightOnly, mem_pending, mem_arriving hown, mem_pending, metBefore_succ hown,
    neededAfter_eq]
  grind

/-- What is settled after an operand: what was settled before, what it alone had, and what it shared. -/
theorem settled_succ_perm :
    ((columns.contraction position).summed ++ (columns.dropped position ++ columns.settled position)).Perm
      (columns.settled (position + 1)) := by
  have hrange : (List.range columns.count).Nodup := nodup_range
  have hneeded := @neededFrom_eq columns position
  apply (perm_ext_iff_of_nodup _ (hrange.filter _)).2
  · intro column
    rw [mem_append, mem_append, contraction, Grouping.mem_summed, mem_pending,
      mem_arriving hown, mem_dropped hown, mem_settled, ← settled, mem_settled, metBefore_succ hown,
      neededAfter_eq]
    grind
  · have hsummed : (columns.contraction position).summed.Nodup := hrange.filter _
    have hdropped : (columns.dropped position).Nodup := hrange.filter _
    have hsettled : (columns.settled position).Nodup := hrange.filter _
    refine hsummed.append (hdropped.append hsettled ?_) ?_
    · intro column hfirst hsecond
      rw [mem_dropped hown] at hfirst
      rw [mem_settled] at hsecond
      grind
    · intro column hfirst hsecond
      rw [contraction, Grouping.mem_summed, mem_pending] at hfirst
      rw [mem_append, mem_dropped hown, mem_settled] at hsecond
      grind

end Columns

section JointLengths

variable {columns : Columns} {position column : Nat} {len len' : Nat → Nat}

theorem jointLen_of_both (hleft : column ∈ columns.pending position)
    (hright : column ∈ columns.arriving position) :
    Frame.jointLen (columns.contraction position) len len' column = max (len column) (len' column) := by
  have hbelow := (Columns.mem_pending.1 hleft).1
  rw [Frame.jointLen, if_neg, Frame.widened, if_pos]
  · rw [Columns.contraction, Grouping.mem_batch, Grouping.mem_summed]
    grind
  · rw [Columns.contraction, Grouping.mem_rightOnly]
    grind

theorem jointLen_of_left (hright : column ∉ columns.arriving position) :
    Frame.jointLen (columns.contraction position) len len' column = len column := by
  rw [Frame.jointLen, if_neg, Frame.widened, if_neg]
  · rw [Columns.contraction, Grouping.mem_batch, Grouping.mem_summed]
    grind
  · rw [Columns.contraction, Grouping.mem_rightOnly]
    grind

theorem jointLen_of_right (hleft : column ∉ columns.pending position)
    (hright : column ∈ columns.arriving position) (hbelow : column < columns.count) :
    Frame.jointLen (columns.contraction position) len len' column = len' column := by
  rw [Frame.jointLen, if_pos]
  rw [Columns.contraction, Grouping.mem_rightOnly]
  exact ⟨hbelow, hright, hleft⟩

end JointLengths

/-! ## Empty columns -/

section Zeros

variable {len len' : Nat → Nat} {columns : List Nat}

/-- Lists have their zeros at the same places. -/
abbrev SameZeros : List Nat → List Nat → Prop := Forall₂ fun a b => a = 0 ↔ b = 0

theorem SameZeros.getElem?_eq {lens lens' : List Nat} (hsame : SameZeros lens lens') (place : Nat) :
    lens[place]? = some 0 ↔ lens'[place]? = some 0 := by
  induction hsame generalizing place with
  | nil => exact Iff.rfl
  | cons hfirst _ ih =>
    cases place with
    | zero => simpa using hfirst
    | succ place => simpa using ih place

theorem SameZeros.ownZeros {source source' asked asked' : List Nat}
    (hsource : SameZeros source source') (hasked : SameZeros asked asked')
    (hzeros : Inference.OwnZeros source asked) : Inference.OwnZeros source' asked' := by
  intro place hplace hzero
  rw [← hsource.getElem?_eq]
  apply hzeros place (hasked.length_eq ▸ hplace)
  rw [hasked.getElem?_eq]
  exact hzero

theorem sameZeros_map (hsame : ∀ column ∈ columns, len column = 0 ↔ len' column = 0) :
    SameZeros (columns.map len) (columns.map len') := by
  rw [SameZeros, forall₂_map_left_iff, forall₂_map_right_iff, forall₂_same]
  exact hsame

theorem volume_eq_zero_congr (hsame : ∀ column ∈ columns, len column = 0 ↔ len' column = 0) :
    volume (columns.map len) = 0 ↔ volume (columns.map len') = 0 := by
  rw [volume_eq_zero_iff, volume_eq_zero_iff, mem_map, mem_map]
  exact exists_congr fun column => and_congr_right (hsame column)

/-- Which reshapes pass depends only on which columns are empty. -/
theorem Grouping.Passes.congr {g : Grouping} (hpasses : g.Passes len)
    (hsame : ∀ column, column ∈ g.batch ++ g.leftOnly ++ g.rightOnly ++ g.summed →
      (len column = 0 ↔ len' column = 0)) : g.Passes len' := by
  have hgroup : ∀ group, group ⊆ g.batch ++ g.leftOnly ++ g.rightOnly ++ g.summed →
      (volume (group.map len) = 0 ↔ volume (group.map len') = 0) :=
    fun group hsubset => volume_eq_zero_congr fun column hmem => hsame column (hsubset hmem)
  have hbatch := hgroup g.batch (by simp)
  have hleft := hgroup g.leftOnly (by simp)
  have hright := hgroup g.rightOnly fun column hmem => by simp [hmem]
  have hsummed := hgroup g.summed fun column hmem => by simp [hmem]
  have hunits : ∀ units : List Nat, g.rest ⊆ units → ∀ column ∈ g.order,
      (unitAt units len column = 0 ↔ unitAt units len' column = 0) := by
    intro units hrest column hmem
    by_cases hunit : column ∈ units
    · rw [unitAt_of_mem hunit, unitAt_of_mem hunit]
    · rw [unitAt_of_notMem hunit, unitAt_of_notMem hunit]
      apply hsame
      exact (mem_append.1 hmem).resolve_right fun hother => hunit (hrest hother)
  constructor
  · exact (sameZeros_map (hunits _ (by simp))).ownZeros
      (.cons hbatch (.cons hleft (.cons hsummed .nil))) hpasses.left
  · exact (sameZeros_map (hunits _ (by simp))).ownZeros
      (.cons hbatch (.cons hright (.cons hsummed .nil))) hpasses.right
  · have houter : ∀ column ∈ g.batch ++ g.leftOnly ++ g.rightOnly,
        (len column = 0 ↔ len' column = 0) :=
      fun column hmem => hsame column (mem_append_left _ hmem)
    exact SameZeros.ownZeros (.cons hbatch (.cons hleft (.cons hright .nil))) (sameZeros_map houter)
      hpasses.result

/-- Without empty columns all reshapes pass. -/
theorem Grouping.passes_of_pos (g : Grouping) (hpos : ∀ column, 0 < len column) : g.Passes len := by
  have hvolume : ∀ group : List Nat, volume (group.map len) ≠ 0 := by
    intro group hzero
    rw [volume_eq_zero_iff, mem_map] at hzero
    obtain ⟨column, -, hzero⟩ := hzero
    exact absurd (hpos column) (by omega)
  have hnone : ∀ {source asked : List Nat}, 0 ∉ asked → Inference.OwnZeros source asked :=
    fun hfree place _ hzero => absurd (mem_of_getElem? hzero) hfree
  constructor <;> apply hnone
  · simpa using ⟨(hvolume _).symm, (hvolume _).symm, (hvolume _).symm⟩
  · simpa using ⟨(hvolume _).symm, (hvolume _).symm, (hvolume _).symm⟩
  · rw [mem_map]
    rintro ⟨column, -, hzero⟩
    exact absurd (hpos column) (by omega)

end Zeros

/-! ## Columns that fit their operands -/

/-- The columns of an equation fit operands of these lengths. -/
structure Arranged (columns : Columns) (lens : List (List Nat)) : Prop where
  below : ∀ own ∈ columns.inputs, ∀ column ∈ own, column < columns.count
  ranks : Forall₂ (fun own lens => own.length = lens.length) columns.inputs lens
  once : ∀ own ∈ columns.inputs, ∀ a b, 1 < own.count a → 1 < own.count b → a = b
  /-- The axes of a column have one length within an operand. -/
  alike : ∀ operand ∈ columns.inputs.zip lens, ∀ column len len',
    (column, len) ∈ operand.1.zip operand.2 → (column, len') ∈ operand.1.zip operand.2 → len = len'
  agree : ∀ axis ∈ labelledAxes columns.inputs lens,
    axis.2 = 1 ∨ axis.2 = labelLen columns.inputs lens axis.1
  output_nodup : columns.output.Nodup
  output_subset : columns.output ⊆ columns.inputs.flatten

section OwnLengths

variable {own ownLens : List Nat} {columns : Columns} {lens : List (List Nat)}

/-- The lengths of the columns of an operand give the lengths of its axes. -/
theorem map_commonLen (hrank : own.length = ownLens.length)
    (halike : ∀ column len len', (column, len) ∈ own.zip ownLens →
      (column, len') ∈ own.zip ownLens → len = len') :
    own.map (commonLen (own.zip ownLens)) = ownLens := by
  rw [← forall₂_eq_eq_eq, forall₂_map_left_iff, forall₂_iff_zip]
  refine ⟨hrank, fun hmem => ?_⟩
  exact commonLen_eq_of_mem hmem fun other hother => halike _ _ _ hother hmem

variable {column : Nat}

theorem commonLen_of_notMem (hfree : column ∉ own) :
    commonLen (own.zip ownLens) column = 1 := by
  apply (commonLen_eq_one_or_mem _ _).resolve_right
  intro hmem
  exact hfree (of_mem_zip hmem).1

theorem metBefore_of_axis {position len : Nat}
    (haxis : (column, len) ∈ labelledAxes (columns.inputs.take position) lens) :
    columns.metBefore position column = true := by
  rw [Columns.metBefore_iff, ← mem_flatten]
  exact mem_flatten_of_mem_labelledAxes haxis

theorem Arranged.exists_axis (harranged : Arranged columns lens) {position : Nat}
    (hmet : columns.metBefore position column = true) :
    ∃ len, (column, len) ∈ labelledAxes (columns.inputs.take position) lens := by
  obtain ⟨own, hown, hcolumn⟩ := Columns.metBefore_iff.1 hmet
  have hranks := forall₂_take position harranged.ranks
  obtain ⟨ownLens, hoperand⟩ := exists_mem_zip hranks.length_eq hown
  obtain ⟨len, haxis⟩ := exists_mem_zip ((forall₂_iff_zip.1 hranks).2 hoperand) hcolumn
  refine ⟨len, ?_⟩
  rw [labelledAxes_take]
  refine mem_flatMap.2 ⟨(own, ownLens), ?_, haxis⟩
  rw [List.zip, take_zipWith]
  exact hoperand

end OwnLengths

namespace Frame

variable {α R : Type} [Scalar α] [CommSemiring R] {axis : Nat × Nat}

/-- The lengths of the operands. -/
def lens (F : Frame α R) : List (List Nat) := F.shapes.map Shape.lens

/-- A frame whose operands have these columns, and for which nothing stands in the way of lowering. -/
structure Fitted (F : Frame α R) (columns : Columns) : Prop where
  arranged : Arranged columns F.lens
  args_length : F.args.length = F.shapes.length
  /-- The lengths of the columns are those that the operands give them. -/
  len_eq : F.len = labelLen columns.inputs F.lens
  strided : ∀ s ∈ F.shapes, ∃ axes, s = .strided F.elem axes
  roomy : F.Roomy ((List.range columns.count).map F.len)
  roomy_operand : ∀ s ∈ F.shapes, F.Roomy s.lens
  countable : ∀ s ∈ F.shapes, s.lens.length < Word.limit
  /-- An empty column is empty in all operands that have it. -/
  empty : ∀ axis ∈ labelledAxes columns.inputs F.lens, F.len axis.1 = 0 → axis.2 = 0
  passes : ∀ position, 0 < position → position < columns.inputs.length →
    (columns.contraction position).Passes F.len

section Steps

variable {F : Frame α R} {columns : Columns} {position : Nat} {own : List Nat} {shape : Shape}
  {g : Graph α} {len : Nat → Nat} {soFar : Option Operand}

theorem lens_getElem? (hshape : F.shapes[position]? = some shape) :
    F.lens[position]? = some shape.lens := by
  rw [Frame.lens, getElem?_map, hshape]
  rfl

variable {arg : NodeId} {e : Emission α}

/-- An operand as it comes: its axes have its columns, and it holds what is read there. -/
theorem Fitted.labelled (hfitted : F.Fitted columns) (hshapes : g.shapes F.args = .ok F.shapes)
    (harg : F.args[position]? = some arg) (hown : columns.inputs[position]? = some own)
    (hshape : F.shapes[position]? = some shape) :
    F.Labelled g arg own (commonLen (own.zip shape.lens))
      fun tensors => heldAt F.val own tensors[position]? := by
  obtain ⟨axes, rfl⟩ := hfitted.strided shape (mem_of_getElem? hshape)
  have hlens := lens_getElem? hshape
  have hoperand := mem_zip_of_getElem? hown hlens
  have hmap : own.map (commonLen (own.zip axes.lens)) = axes.lens :=
    map_commonLen ((forall₂_iff_zip.1 hfitted.arranged.ranks).2 hoperand)
      (hfitted.arranged.alike _ hoperand)
  have hsized : F.Sized (commonLen (own.zip axes.lens)) := by
    intro column
    rw [hfitted.len_eq]
    rcases commonLen_eq_one_or_mem (own.zip axes.lens) column with hunit | haxis
    · exact .inl hunit
    · exact hfitted.arranged.agree _ (mem_flatMap.2 ⟨_, hoperand, haxis⟩)
  have hread : ∀ point, own.map (clip (commonLen (own.zip axes.lens)) point) =
      readIndex axes.lens own point := by
    intro point
    have hzip : List.zipWith (fun len label => if len = 1 then 0 else point label)
        (own.map (commonLen (own.zip axes.lens))) own =
          own.map (clip (commonLen (own.zip axes.lens)) point) := by
      rw [zipWith_map_left, zipWith_self]
      rfl
    rw [← hzip, hmap, readIndex]
  obtain ⟨node, hnode, hgshape⟩ :=
    exists_getElem?_of_forall₂ (shapes_eq_ok_iff.1 hshapes) hshape
  cases harg.symm.trans hnode
  refine ⟨hsized, axes, hmap.symm, ?_, hgshape, ?_⟩
  · intro point hpoint
    have hrange := hsized.inRange hpoint own
    rw [hmap] at hrange
    exact hrange
  · intro h run bindings tensors hextends hsupplies
    obtain ⟨t, ht, hyields⟩ := exists_getElem?_of_forall₂ hsupplies.yields.flip harg
    have htshape : t.shape = .strided F.elem axes := by
      have hshapes := congrArg (·[position]?) hsupplies.shapes_eq
      simp only [Tensor.shapes_eq_map, getElem?_map, ht, hshape] at hshapes
      exact Option.some.inj hshapes
    apply hyields.produces
    refine ⟨htshape, hsupplies.valid t (mem_of_getElem? ht), ?_⟩
    intro point _
    rw [ht, Shape.lens_strided, hread, heldAt, Tensor.lens_of_shape htshape]

/-- The result so far, after the operands before a position. -/
structure Accumulated (F : Frame α R) (columns : Columns) (position : Nat) (operand : Operand)
    (len : Nat → Nat) (g : Graph α) : Prop where
  present : ∀ column, column ∈ operand.present ↔ column ∈ columns.pending position
  /-- Settled columns are summed over. -/
  labelled : F.Labelled g operand.node (List.range columns.count) len fun tensors =>
    sumOver F.len (columns.settled position)
      (productAt F.val (columns.inputs.take position) tensors)
  unit : ∀ column ∉ columns.pending position, len column = 1
  /-- Pending columns are as long as the operands so far have them. -/
  reached : ∀ axis ∈ labelledAxes (columns.inputs.take position) F.lens,
    axis.1 ∈ columns.pending position → axis.2 = 1 ∨ axis.2 = len axis.1

theorem Accumulated.mono {operand : Operand} {h : Graph α}
    (haccumulated : F.Accumulated columns position operand len g) (hextends : g.Extends h) :
    F.Accumulated columns position operand len h :=
  ⟨haccumulated.present, haccumulated.labelled.mono hextends, haccumulated.unit, haccumulated.reached⟩

/-- What there is before the operand at a position is worked in: nothing before the first one. -/
def SoFar (F : Frame α R) (columns : Columns) (position : Nat) (g : Graph α) : Option Operand → Prop
  | none => position = 0
  | some operand => 0 < position ∧ ∃ len, F.Accumulated columns position operand len g

/-- The operand at a position, ready to be worked in. -/
structure Arrived (F : Frame α R) (columns : Columns) (position : Nat) (own ownLens : List Nat)
    (operand : Operand) (len : Nat → Nat) (g : Graph α) : Prop where
  present : ∀ column, column ∈ operand.present ↔ column ∈ columns.arriving position
  /-- Columns that it alone has are summed over. -/
  labelled : F.Labelled g operand.node (List.range columns.count) len fun tensors =>
    sumOver F.len (columns.dropped position) (heldAt F.val own tensors[position]?)
  unit : ∀ column ∉ columns.arriving position, len column = 1
  /-- Columns are as long as the operand has them. -/
  reached : ∀ axis ∈ own.zip ownLens, axis.1 ∈ columns.arriving position → axis.2 = len axis.1

/-- A column that no later operand has has got its length. -/
theorem Fitted.len_eq_of_reached (hfitted : F.Fitted columns) {column : Nat} (hsized : F.Sized len)
    (hlater : ∀ own ∈ columns.inputs.drop position, column ∉ own)
    (hreached : ∀ n, (column, n) ∈ labelledAxes (columns.inputs.take position) F.lens →
      n = 1 ∨ n = len column) : len column = F.len column := by
  have hcases := hsized column
  rcases commonLen_eq_one_or_mem (labelledAxes columns.inputs F.lens) column with hunit | hmem
  · have : F.len column = 1 := by
      rw [hfitted.len_eq]
      exact hunit
    omega
  · have hlen : commonLen (labelledAxes columns.inputs F.lens) column = F.len column := by
      rw [hfitted.len_eq]
      rfl
    rw [hlen] at hmem
    have := hreached _ (mem_labelledAxes_take hmem hlater)
    omega

section Lengths

variable (hfitted : F.Fitted columns) {column : Nat}

include hfitted

/-- A pending column is empty in the result so far if it is empty at all. -/
theorem Accumulated.len_eq_zero_iff {left : Operand}
    (hleft : F.Accumulated columns position left len g)
    (hpending : column ∈ columns.pending position) : len column = 0 ↔ F.len column = 0 := by
  have hsized := hleft.labelled.sized column
  constructor
  · omega
  · intro hzero
    obtain ⟨n, haxis⟩ := hfitted.arranged.exists_axis (Columns.mem_pending.1 hpending).2.1
    have hempty := hfitted.empty _ (labelledAxes_take_subset _ _ _ haxis) hzero
    have hreached := hleft.reached _ haxis hpending
    dsimp only at hempty hreached
    omega

variable (hown : columns.inputs[position]? = some own) {ownLens : List Nat}
  (hlens : F.lens[position]? = some ownLens)

include hown hlens

theorem Arrived.len_eq_zero_iff {right : Operand}
    (hright : F.Arrived columns position own ownLens right len g)
    (harriving : column ∈ columns.arriving position) : len column = 0 ↔ F.len column = 0 := by
  have hoperand := mem_zip_of_getElem? hown hlens
  have hsized := hright.labelled.sized column
  constructor
  · omega
  · intro hzero
    obtain ⟨n, haxis⟩ := exists_mem_zip ((forall₂_iff_zip.1 hfitted.arranged.ranks).2 hoperand)
      ((Columns.mem_arriving hown).1 harriving).2.1
    have hempty := hfitted.empty _ (mem_flatMap.2 ⟨_, hoperand, haxis⟩) hzero
    have hreached := hright.reached _ haxis harriving
    dsimp only at hempty hreached
    omega

variable {left right : Operand} {len len' : Nat → Nat} {g : Graph α}
  (hleft : F.Accumulated columns position left len g)
  (hright : F.Arrived columns position own ownLens right len' g)

include hleft hright

/-- The lengths of the product are those that the operands up to this one have. -/
theorem reached_joint (haxis : axis ∈ labelledAxes (columns.inputs.take (position + 1)) F.lens)
    (hmem : axis.1 ∈ columns.pending position ∨ axis.1 ∈ columns.arriving position) :
    axis.2 = 1 ∨ axis.2 = jointLen (columns.contraction position) len len' axis.1 := by
  have hpending := @Columns.mem_pending columns position axis.1
  have harriving := @Columns.mem_arriving columns position axis.1 own hown
  have hneeded := @Columns.neededFrom_eq columns position axis.1 own hown
  have hsized := hleft.labelled.sized axis.1
  have hsized' := hright.labelled.sized axis.1
  rw [labelledAxes_take_succ hown hlens, mem_append] at haxis
  rcases haxis with hbefore | hnow
  · have hmet := metBefore_of_axis hbefore
    have hin : axis.1 ∈ columns.pending position := by grind
    have hreached := hleft.reached axis hbefore hin
    by_cases hboth : axis.1 ∈ columns.arriving position
    · have := hleft.len_eq_zero_iff hfitted hin
      have := hright.len_eq_zero_iff hfitted hown hlens hboth
      rw [jointLen_of_both hin hboth]
      omega
    · rw [jointLen_of_left hboth]
      exact hreached
  · have hin : axis.1 ∈ columns.arriving position := by
      have := (of_mem_zip hnow).1
      grind
    have hreached := hright.reached axis hnow hin
    by_cases hboth : axis.1 ∈ columns.pending position
    · have := hleft.len_eq_zero_iff hfitted hboth
      have := hright.len_eq_zero_iff hfitted hown hlens hin
      rw [jointLen_of_both hboth hin]
      omega
    · rw [jointLen_of_right hboth hin (harriving.1 hin).1]
      exact .inr hreached

theorem joint_eq_zero_iff
    (hmem : column ∈ columns.pending position ∨ column ∈ columns.arriving position) :
    F.len column = 0 ↔ jointLen (columns.contraction position) len len' column = 0 := by
  by_cases hin : column ∈ columns.pending position
  · have := hleft.len_eq_zero_iff hfitted hin
    by_cases hboth : column ∈ columns.arriving position
    · have := hright.len_eq_zero_iff hfitted hown hlens hboth
      rw [jointLen_of_both hin hboth]
      omega
    · rw [jointLen_of_left hboth]
      omega
  · have hnow := hmem.resolve_left hin
    have := hright.len_eq_zero_iff hfitted hown hlens hnow
    rw [jointLen_of_right hin hnow ((Columns.mem_arriving hown).1 hnow).1]
    omega

end Lengths

/-- Sums over what was settled before, over what an operand alone has and over what it shares make one
sum over what is settled after it. -/
theorem sumOver_settled (hown : columns.inputs[position]? = some own) (tensors : List (Tensor α))
    (point : Nat → Nat) :
    sumOver F.len (columns.contraction position).summed (fun point =>
        sumOver F.len (columns.settled position)
          (productAt F.val (columns.inputs.take position) tensors) point *
        sumOver F.len (columns.dropped position) (heldAt F.val own tensors[position]?) point) point =
      sumOver F.len (columns.settled (position + 1))
        (productAt F.val (columns.inputs.take (position + 1)) tensors) point := by
  have hproduct : Ignores (productAt F.val (columns.inputs.take position) tensors)
      (columns.dropped position) := by
    intro point point' hsame
    apply productAt_congr
    intro column hcolumn
    rw [mem_flatten, ← Columns.metBefore_iff] at hcolumn
    apply hsame
    rw [Columns.mem_dropped hown]
    grind
  have hheld : Ignores (heldAt F.val own tensors[position]?) (columns.settled position) := by
    intro point point' hsame
    apply heldAt_congr
    intro column hcolumn
    apply hsame
    rw [Columns.mem_settled]
    have := @Columns.neededFrom_eq columns position column own hown
    grind
  rw [← sumOver_perm (Columns.settled_succ_perm hown), sumOver_append]
  apply sumOver_congr
  intro other _ _
  rw [sumOver_append, ← sumOver_mul_left (hproduct.sumOver _)]
  apply sumOver_congr
  intro other _ _
  rw [← sumOver_mul_right hheld]
  apply sumOver_congr
  intro other _ _
  rw [productAt_take_succ F.val tensors hown]

/-- An operand is contracted with the result so far. -/
theorem emits_contracted (hfitted : F.Fitted columns) (hown : columns.inputs[position]? = some own)
    {ownLens : List Nat} (hlens : F.lens[position]? = some ownLens) (hposition : 0 < position)
    {left right : Operand} {len' : Nat → Nat}
    (hleft : F.Accumulated columns position left len e.graph)
    (hright : F.Arrived columns position own ownLens right len' e.graph) :
    Emits e (emitContract columns.count left right (columns.neededAfter position)) fun operand g =>
      ∃ len, F.Accumulated columns (position + 1) operand len g := by
  have hgroups : Grouping.of columns.count left.present right.present (columns.neededAfter position) =
      columns.contraction position := by
    -- How columns are grouped depends on which columns the operands have.
    simp only [Columns.contraction, Grouping.of, contains_eq_mem, hleft.present, hright.present]
  have hlater : ∀ column ∈ left.present,
      column ∈ right.present ∨ columns.neededAfter position column = true := by
    intro column hmem
    rw [hleft.present, Columns.mem_pending, Columns.neededFrom_eq hown] at hmem
    rw [hright.present, Columns.mem_arriving hown]
    rcases hmem.2.2 with hcolumn | hneeded
    · exact .inl ⟨hmem.1, hcolumn, .inl hmem.2.1⟩
    · exact .inr hneeded
  have hsome : ∀ column, column ∈ (columns.contraction position).batch ++
      (columns.contraction position).leftOnly ++ (columns.contraction position).rightOnly ++
        (columns.contraction position).summed →
      column ∈ columns.pending position ∨ column ∈ columns.arriving position := by
    intro column hmem
    simp only [mem_append, Columns.contraction, Grouping.mem_batch, Grouping.mem_leftOnly,
      Grouping.mem_rightOnly, Grouping.mem_summed] at hmem
    grind
  have hempty : ∀ column, column ∈ (columns.contraction position).batch ∨
      column ∈ (columns.contraction position).summed → (len column = 0 ↔ len' column = 0) := by
    intro column hmem
    rw [Columns.contraction, Grouping.mem_batch, Grouping.mem_summed] at hmem
    rw [hleft.len_eq_zero_iff hfitted (by grind),
      hright.len_eq_zero_iff hfitted hown hlens (by grind)]
  have hjoint := hleft.labelled.sized.joint hright.labelled.sized hempty
  have hfull : ∀ column ∈ (columns.contraction position).summed,
      jointLen (columns.contraction position) len len' column = F.len column := by
    intro column hmem
    have hboth := hsome column (mem_append_right _ hmem)
    rw [Columns.contraction, Grouping.mem_summed] at hmem
    apply hfitted.len_eq_of_reached hjoint (Columns.notMem_of_neededFrom hmem.2.2.2)
    intro n haxis
    exact reached_joint hfitted hown hlens hleft hright haxis hboth
  have hpasses := (hfitted.passes position hposition (List.getElem?_eq_some_iff.1 hown).1).congr
    fun column hmem => joint_eq_zero_iff hfitted hown hlens hleft hright (hsome column hmem)
  have hemits := emits_contract hleft.labelled hright.labelled hfitted.roomy
    (fun column hfree => hleft.unit column (by rwa [← hleft.present]))
    (fun column hfree => hright.unit column (by rwa [← hright.present])) hlater hgroups hempty hfull
    hpasses
  have hperm : (columns.contraction position).order.Perm (List.range columns.count) :=
    Grouping.order_perm _ _ _ _
  apply hemits.mono
  rintro operand g _ ⟨hpresent, hlabelled⟩
  refine ⟨_, ?_, hlabelled.congr ?_, ?_, ?_⟩
  · intro column
    rw [hpresent, Columns.mem_pending_succ hown]
  · intro tensors point _
    exact (sumOver_settled hown tensors point).symm
  · intro column hfree
    rw [← Columns.mem_pending_succ hown] at hfree
    by_cases hunit : column ∈ (columns.contraction position).summed ++ (columns.contraction position).rest
    · exact unitAt_of_mem hunit _
    · have hbeyond : ¬ column < columns.count := by
        rw [← mem_range, ← hperm.mem_iff, Grouping.order, append_assoc, mem_append]
        grind
      rw [unitAt_of_notMem hunit, jointLen_of_left]
      · exact hleft.unit column fun hmem => hbeyond (Columns.mem_pending.1 hmem).1
      · exact fun hmem => hbeyond ((Columns.mem_arriving hown).1 hmem).1
  · intro axis haxis hmem
    rw [← Columns.mem_pending_succ hown] at hmem
    rw [unitAt_of_notMem]
    · exact reached_joint hfitted hown hlens hleft hright haxis
        (hsome axis.1 (mem_append_left _ hmem))
    · have hnodup := hperm.nodup_iff.2 nodup_range
      rw [Grouping.order, append_assoc] at hnodup
      exact disjoint_of_nodup_append hnodup hmem

/-- The columns that the result so far has are the pending ones. -/
theorem SoFar.present_iff (hsoFar : F.SoFar columns position g soFar) (column : Nat) :
    (soFar.map (·.present.contains column)).getD false = true ↔ column ∈ columns.pending position := by
  cases soFar with
  | none =>
    obtain rfl : position = 0 := hsoFar
    simp [Columns.pending, Columns.metBefore]
  | some left =>
    obtain ⟨-, len, hleft⟩ := hsoFar
    rw [← hleft.present]
    exact contains_iff_mem

/-- The first operand is the result so far. -/
theorem Arrived.first {right : Operand} {ownLens : List Nat}
    (hright : F.Arrived columns 0 own ownLens right len g) (hown : columns.inputs[0]? = some own)
    (hlens : F.lens[0]? = some ownLens) : F.Accumulated columns 1 right len g := by
  have hmet : ∀ column, columns.metBefore 0 column = false := fun _ => rfl
  have hsettled : columns.settled 0 = [] := by
    rw [Columns.settled, filter_eq_nil_iff]
    simp [hmet]
  have hsummed : (columns.contraction 0).summed = [] := by
    rw [eq_nil_iff_forall_not_mem]
    intro column hmem
    rw [Columns.contraction, Grouping.mem_summed, Columns.mem_pending, hmet] at hmem
    cases hmem.2.1.2.1
  have hpending : ∀ column, column ∈ columns.pending 1 ↔ column ∈ columns.arriving 0 := by
    intro column
    rw [Columns.mem_pending, Columns.metBefore_succ hown, Columns.mem_arriving hown, hmet]
    grind
  refine ⟨?_, hright.labelled.congr ?_, ?_, ?_⟩
  · intro column
    rw [hright.present, hpending]
  · intro tensors point _
    have hsum := @sumOver_settled _ _ _ _ F columns 0 own hown tensors point
    rw [hsummed, hsettled] at hsum
    rw [← hsum]
    exact one_mul _
  · intro column hfree
    exact hright.unit column fun hmem => hfree ((hpending column).2 hmem)
  · intro axis haxis hmem
    rw [labelledAxes_take_succ hown hlens, mem_append] at haxis
    exact .inr (hright.reached axis (haxis.resolve_left not_mem_nil) ((hpending _).1 hmem))

/-- The columns that are summed over at once. -/
theorem SoFar.filter_eq_dropped (hsoFar : F.SoFar columns position g soFar)
    (hown : columns.inputs[position]? = some own) {own' : List Nat}
    (hsame : ∀ column, column ∈ own' ↔ column ∈ own) :
    (List.range columns.count).filter (fun column => own'.contains column &&
      !(soFar.map (·.present.contains column)).getD false && !columns.neededAfter position column) =
        columns.dropped position := by
  apply filter_congr
  intro column hcolumn
  rw [Bool.eq_iff_iff]
  have hpresent := hsoFar.present_iff column
  have hpending := @Columns.mem_pending columns position column
  have hneeded := @Columns.neededFrom_eq columns position column own hown
  have hgetD : columns.inputs.getD position [] = own := by
    rw [getD_eq_getElem?_getD, hown]
    rfl
  rw [hgetD, Columns.neededAfter_eq]
  simp only [Bool.and_eq_true, Bool.not_eq_true', contains_iff_mem, hsame]
  rw [mem_range] at hcolumn
  grind

section Own

variable {ownLens : List Nat} (hown : columns.inputs[position]? = some own)
  (hlens : F.lens[position]? = some ownLens)

include hown hlens

/-- The axes of an operand have the lengths of its columns. -/
theorem Fitted.len_own (hfitted : F.Fitted columns)
    (haxis : axis ∈ own.zip ownLens) : axis.2 = commonLen (own.zip ownLens) axis.1 :=
  (commonLen_eq_of_mem haxis fun _ hother =>
    hfitted.arranged.alike _ (mem_zip_of_getElem? hown hlens) _ _ _ hother haxis).symm

/-- A column that no other operand has is as long as in its operand. -/
theorem Fitted.len_dropped (hfitted : F.Fitted columns) {column : Nat}
    (hsized : F.Sized (commonLen (own.zip ownLens))) (hmem : column ∈ columns.dropped position) :
    commonLen (own.zip ownLens) column = F.len column := by
  rw [Columns.mem_dropped hown] at hmem
  apply hfitted.len_eq_of_reached hsized (Columns.notMem_of_neededFrom hmem.2.2.2)
  intro n haxis
  rw [labelledAxes_take_succ hown hlens, mem_append] at haxis
  rcases haxis with hbefore | hnow
  · rw [metBefore_of_axis hbefore] at hmem
    cases hmem.2.2.1
  · exact .inr (hfitted.len_own hown hlens hnow)

/-- What is left of an operand after the sum over the columns that no other one needs. -/
theorem Fitted.arrived (hfitted : F.Fitted columns) {own' : List Nat}
    (hsame : ∀ column, column ∈ own' ↔ column ∈ own) {node : NodeId}
    (hlabelled : F.Labelled g node (List.range columns.count)
      (unitAt (columns.dropped position) (commonLen (own.zip ownLens)))
      fun tensors => sumOver F.len (columns.dropped position)
        (heldAt F.val own tensors[position]?)) :
    F.Arrived columns position own ownLens
      ⟨node, own'.filter fun column => !(columns.dropped position).contains column⟩
      (unitAt (columns.dropped position) (commonLen (own.zip ownLens))) g := by
  have hcases : ∀ column ∈ own, column ∉ columns.dropped position ↔
      column ∈ columns.arriving position := by
    intro column hmem
    have := hfitted.arranged.below own (mem_of_getElem? hown) column hmem
    rw [Columns.mem_dropped hown, Columns.mem_arriving hown]
    grind
  have hsubset : ∀ column ∈ columns.arriving position, column ∈ own :=
    fun column hmem => ((Columns.mem_arriving hown).1 hmem).2.1
  refine ⟨?_, hlabelled, ?_, ?_⟩
  · intro column
    simp only [mem_filter, hsame, Bool.not_eq_true', contains_eq_mem,
      decide_eq_false_iff_not]
    grind
  · intro column hfree
    by_cases hmem : column ∈ columns.dropped position
    · exact unitAt_of_mem hmem _
    · rw [unitAt_of_notMem hmem]
      exact commonLen_of_notMem fun hin => hfree ((hcases column hin).1 hmem)
  · intro axis haxis hmem
    rw [unitAt_of_notMem ((hcases _ (hsubset _ hmem)).2 hmem)]
    exact hfitted.len_own hown hlens haxis

end Own

/-- The next operand is worked in. -/
theorem emits_operand (hfitted : F.Fitted columns) (hshapes : e.graph.shapes F.args = .ok F.shapes)
    (harg : F.args[position]? = some arg) (hown : columns.inputs[position]? = some own)
    (hsoFar : F.SoFar columns position e.graph soFar) :
    Emits e (emitOperand columns soFar arg own position) fun operand g =>
      ∃ len, F.Accumulated columns (position + 1) operand len g := by
  obtain ⟨shape, hshape⟩ : ∃ shape, F.shapes[position]? = some shape := by
    obtain ⟨hbelow, -⟩ := List.getElem?_eq_some_iff.1 harg
    exact ⟨_, getElem?_eq_getElem (hfitted.args_length ▸ hbelow)⟩
  have hmemShape := mem_of_getElem? hshape
  have hlens := lens_getElem? hshape
  have hoperand := mem_zip_of_getElem? hown hlens
  have hmemOwn := mem_of_getElem? hown
  have hrank : own.length = shape.lens.length :=
    (forall₂_iff_zip.1 hfitted.arranged.ranks).2 hoperand
  have hmap := map_commonLen hrank (hfitted.arranged.alike _ hoperand)
  unfold emitOperand
  apply (emits_diagonal (hfitted.labelled hshapes harg hown hshape)
    (by rw [hmap]; exact hfitted.roomy_operand shape hmemShape)
    (by rw [hrank]; exact hfitted.countable shape hmemShape)
    (hfitted.arranged.once own hmemOwn)).bind
  rintro ⟨node, own'⟩ e hextends ⟨hnodup, hsame, hdiagonal⟩
  dsimp only at hnodup hsame hdiagonal ⊢
  apply (emits_aligned hdiagonal hnodup
    (fun column hmem => hfitted.arranged.below own hmemOwn column ((hsame column).1 hmem))
    (fun column hfree => commonLen_of_notMem fun hmem => hfree ((hsame column).2 hmem))).bind
  intro node e hextends' haligned
  rw [hsoFar.filter_eq_dropped hown hsame]
  apply (emits_reduced haligned hfitted.roomy (nodup_range.filter _)
    (fun column hmem => ((Columns.mem_dropped hown).1 hmem).1)
    (fun column hmem => hfitted.len_dropped hown hlens haligned.sized hmem)).bind
  intro node e hextends'' hreduced
  have harrived := hfitted.arrived hown hlens hsame hreduced
  cases soFar with
  | none =>
    obtain rfl : position = 0 := hsoFar
    exact .pure ⟨_, harrived.first hown hlens⟩
  | some left =>
    obtain ⟨hposition, len, hleft⟩ := hsoFar
    exact emits_contracted hfitted hown hlens hposition
      (((hleft.mono hextends).mono hextends').mono hextends'') harrived

end Steps

end Frame

end Einsum

end TensorGraph
