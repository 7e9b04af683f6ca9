import TensorGraph.Proofs.Einsum.Grammar
import TensorGraph.Proofs.Graph.History
import TensorGraph.Proofs.Graph.Nesting
import TensorGraph.Scalar.Binary32

/-!
# A lowered einsum computes the einsum

Lowering goes through whenever no operand is empty. With empty axes an empty group of columns has to lie
where the input of a reshape is empty as well.
-/

namespace TensorGraph

open List

namespace Einsum

open Graph

namespace Frame

variable {α R : Type} [Scalar α] [CommSemiring R] {F : Frame α R} {columns : Columns}
  {e : Emission α} {len : Nat → Nat}

/-- All operands are worked in, one after the other. -/
theorem emits_operands (hfitted : F.Fitted columns) (hshapes : e.graph.shapes F.args = .ok F.shapes) :
    Emits e ((F.args.zip columns.inputs).zipIdx.foldlM
        (fun soFar ((arg, own), position) => some <$> emitOperand columns soFar arg own position) none)
      fun soFar g => F.SoFar columns columns.inputs.length g soFar := by
  have hlength : (F.args.zip columns.inputs).length = columns.inputs.length := by
    rw [length_zip, hfitted.args_length, hfitted.arranged.ranks.length_eq, Frame.lens,
      length_map, Nat.min_self]
  have hfold := @Emits.foldlM_zipIdx α _ e _ (F.args.zip columns.inputs)
    (fun soFar ((arg, own), position) => some <$> emitOperand columns soFar arg own position)
    (fun position soFar g => F.SoFar columns position g soFar) none 0 rfl
  rw [hlength, Nat.zero_add] at hfold
  apply hfold
  rintro k ⟨arg, own⟩ soFar e' hitem hextends hsoFar
  rw [Nat.zero_add] at hsoFar ⊢
  obtain ⟨harg, hown⟩ := getElem?_zip_eq_some.1 hitem
  have hshapes' : e'.graph.shapes F.args = .ok F.shapes := by
    rw [shapes_eq_ok_iff] at hshapes ⊢
    exact hshapes.imp fun node shape => hextends.shape
  show Emits e' (some <$> emitOperand columns soFar arg own k) _
  rw [map_eq_pure_bind]
  apply (emits_operand hfitted hshapes' harg hown hsoFar).bind
  intro operand e'' _ haccumulated
  exact .pure ⟨Nat.succ_pos k, haccumulated⟩

/-- When all operands are worked in, the columns of the output have their lengths. -/
theorem Accumulated.len_eq (hfitted : F.Fitted columns) {operand : Operand}
    {g : Graph α} (haccumulated : F.Accumulated columns columns.inputs.length operand len g)
    {column : Nat} (hcolumn : column ∈ columns.pending columns.inputs.length) :
    len column = F.len column := by
  apply hfitted.len_eq_of_reached haccumulated.labelled.sized
  · rw [drop_length]
    exact fun own hown => absurd hown not_mem_nil
  · intro n haxis
    exact haccumulated.reached _ haxis hcolumn

/-- The output columns, and after them axes of length one, which are dropped. -/
theorem emits_output {output : List Nat} {node : NodeId} {count : Nat}
    {f : List (Tensor α) → (Nat → Nat) → R}
    (hlabelled : F.Labelled e.graph node (output ++ missing output count) len f)
    (hlength : output.length + (missing output count).length = count)
    (hunits : ∀ column ∈ missing output count, len column = 1) :
    Emits e (if output.length < count then
        Emit.add (.squeeze (List.range' output.length (count - output.length))) [node] []
      else pure node) fun node g => F.Labelled g node output len f := by
  by_cases hmore : output.length < count
  · rw [if_pos hmore]
    have hcount : (missing output count).length = count - output.length := by omega
    have hlocated := (located_append_units hunits).1 hlabelled.located
    rw [hcount] at hlocated
    have hsqueeze := emits_squeeze (Nat.sub_pos_of_lt hmore) hlocated
      fun {point} hpoint => hlabelled.sized.inRange hpoint output
    rw [length_map] at hsqueeze
    exact emits_labelled hlabelled.sized hsqueeze
  · rw [if_neg hmore]
    have hnone : missing output count = [] := eq_nil_of_length_eq_zero (by omega)
    rw [hnone, append_nil] at hlabelled
    exact .pure hlabelled

/-- The lowering goes through. Its result has the columns of the output, with their lengths, and holds
the sum, over all other columns, of the product of what the operands hold. -/
theorem emits_columns (hfitted : F.Fitted columns) (hnonempty : columns.inputs ≠ [])
    (hshapes : e.graph.shapes F.args = .ok F.shapes) :
    Emits e (emitColumns columns F.args) fun node g =>
      F.Located g node (columns.output.map F.len) (fun point => columns.output.map point)
        fun tensors => sumOver F.len (columns.settled columns.inputs.length)
          (productAt F.val columns.inputs tensors) := by
  have hbelow : ∀ column ∈ columns.output, column < columns.count := by
    intro column hcolumn
    obtain ⟨own, hown, hmem⟩ := mem_flatten.1 (hfitted.arranged.output_subset hcolumn)
    exact hfitted.arranged.below own hown column hmem
  unfold emitColumns
  apply (emits_operands hfitted hshapes).bind
  intro soFar e hextends hsoFar
  cases soFar with
  | none => exact absurd (eq_nil_of_length_eq_zero hsoFar) hnonempty
  | some operand =>
    obtain ⟨-, len, hoperand⟩ := hsoFar
    have hpending : ∀ column, column ∈ columns.pending columns.inputs.length ↔
        column ∈ columns.output := by
      intro column
      rw [Columns.mem_pending, Columns.metBefore_iff, Columns.neededFrom_iff, take_length,
        drop_length, ← mem_flatten]
      constructor
      · rintro ⟨-, -, hneeded⟩
        exact hneeded.resolve_left fun ⟨own, hown, _⟩ => absurd hown not_mem_nil
      · intro hcolumn
        exact ⟨hbelow column hcolumn, hfitted.arranged.output_subset hcolumn, .inr hcolumn⟩
    have hleftover : (List.range columns.count).filter (fun column =>
        operand.present.contains column && !columns.output.contains column) = [] := by
      rw [filter_eq_nil_iff]
      intro column _
      simp [hoperand.present, hpending]
    have hlabelled := hoperand.labelled
    rw [take_length] at hlabelled
    have hperm := append_missing_perm hfitted.arranged.output_nodup hbelow
    have hlength : columns.output.length + (missing columns.output columns.count).length =
        columns.count := by
      rw [← length_append, hperm.length_eq, length_range]
    dsimp only
    rw [hleftover]
    apply (emits_reduced hlabelled hfitted.roomy .nil
      (fun column hmem => absurd hmem not_mem_nil)
      (fun column hmem => absurd hmem not_mem_nil)).bind
    intro node e _ hreduced
    apply (emits_ordered hreduced hperm).bind
    intro node e _ hordered
    apply (emits_output hordered hlength _).mono
    · intro node g _ houtput
      have hlens : ∀ column ∈ columns.output, unitAt [] len column = F.len column := by
        intro column hcolumn
        rw [unitAt_of_notMem not_mem_nil]
        exact hoperand.len_eq hfitted ((hpending column).2 hcolumn)
      have hlocated := houtput.located
      rw [map_congr_left hlens] at hlocated
      apply hlocated.congr _ fun _ _ _ => rfl
      intro point hpoint
      apply map_congr_left
      intro column hcolumn
      rw [clip_congr (hlens column hcolumn) rfl, clip_of_lt (hpoint column)]
    · intro column hmem
      rw [unitAt_of_notMem not_mem_nil]
      apply hoperand.unit
      rw [hpending]
      exact (mem_missing.1 hmem).2

end Frame

/-! ## From columns to labels -/

section Entries

variable {α R : Type} [Scalar α] [CommSemiring R] {columns : Columns} {lens : List (List Nat)}

/-- All columns that are not in the output are summed over. -/
theorem settled_perm (harranged : Arranged columns lens) :
    (columns.settled columns.inputs.length).Perm
      (columns.inputs.flatten.dedup.filter fun column => column ∉ columns.output) := by
  have hnodup : (columns.settled columns.inputs.length).Nodup := nodup_range.filter _
  rw [perm_ext_iff_of_nodup hnodup ((nodup_dedup _).filter _)]
  intro column
  rw [Columns.mem_settled, mem_filter, mem_dedup, Columns.metBefore_iff, take_length,
    ← mem_flatten, decide_eq_true_eq, ← Bool.not_eq_true, Columns.neededFrom_iff,
    drop_length]
  constructor
  · rintro ⟨-, hmet, hneeded⟩
    exact ⟨hmet, fun hmem => hneeded (.inr hmem)⟩
  · rintro ⟨hmem, hfree⟩
    obtain ⟨own, hown, hcolumn⟩ := mem_flatten.1 hmem
    refine ⟨harranged.below own hown column hcolumn, hmem, ?_⟩
    rintro (⟨own, hown, -⟩ | hneeded)
    · cases hown
    · exact hfree hneeded

/-- The point of an index gives the columns of the output their entries. -/
theorem map_getD_idxOf {output index : List Nat} (hnodup : output.Nodup)
    (hlength : index.length = output.length) :
    output.map (fun column => index.getD (output.idxOf column) 0) = index := by
  apply ext_getElem (by rw [length_map, hlength])
  intro place hplace hplace'
  rw [getElem_map, hnodup.idxOf_getElem, getD_eq_getElem?_getD,
    getElem?_eq_getElem hplace', Option.getD_some]

/-- What is located at the columns of the output is the entry of the einsum. -/
theorem Frame.val_entry {F : Frame α R} (hfitted : F.Fitted columns)
    (hpos : ∀ column, 0 < F.len column) {t : Tensor α} {tensors : List (Tensor α)}
    (hshapes : Tensor.shapes tensors = F.shapes)
    (hvalues : ∀ point, F.Bounded point → F.val (t.entry (columns.output.map point)) =
      sumOver F.len (columns.settled columns.inputs.length)
        (productAt F.val columns.inputs tensors) point)
    {index : List Nat} (hindex : InRange index (columns.output.map F.len)) :
    F.val (t.entry index) = einsumEntry F.val columns.inputs columns.output tensors index := by
  have hlength : index.length = columns.output.length := by
    rw [hindex.length_eq, length_map]
  have hlens : tensors.map Tensor.lens = F.lens := by
    rw [Frame.lens, ← hshapes, Tensor.shapes_eq_map, map_map]
    rfl
  have hbounded : F.Bounded fun column => index.getD (columns.output.idxOf column) 0 := by
    intro column
    show index.getD (columns.output.idxOf column) 0 < F.len column
    by_cases hcolumn : column ∈ columns.output
    · have hplace := idxOf_lt_length_iff.2 hcolumn
      have hat := Forall₂.get hindex (hlength.symm ▸ hplace) (by rwa [length_map])
      rw [get_eq_getElem, get_eq_getElem, getElem_map, getElem_idxOf] at hat
      rw [getD_eq_getElem?_getD, getElem?_eq_getElem (hlength.symm ▸ hplace),
        Option.getD_some]
      exact hat
    · rw [idxOf_eq_length hcolumn, ← hlength, getD_eq_getElem?_getD,
        getElem?_eq_none (Nat.le_refl _), Option.getD_none]
      exact hpos column
  have hentry := hvalues _ hbounded
  rw [map_getD_idxOf hfitted.arranged.output_nodup hlength,
    sumOver_perm (settled_perm hfitted.arranged)] at hentry
  rw [hentry, einsumEntry, hlens, hfitted.len_eq]

end Entries

/-! ## Lowered equations -/

/-- The products of the lengths of all labels, and of those of each operand, are below a bound. Lengths
of zero are left out. -/
structure Equation.Below (equation : Equation) (shapes : List Shape) (bound : Nat) : Prop where
  labels : bulk ((equation.inputLabels (shapes.map Shape.rank)).flatten.dedup.map
    (labelLen (equation.inputLabels (shapes.map Shape.rank)) (shapes.map Shape.lens))) < bound
  operands : ∀ s ∈ shapes, bulk s.lens < bound

section Lowered

variable {α R : Type} [Scalar α] [CommSemiring R] {text : String} {equation : Equation}
  {shapes : List Shape} {columns : Columns} {g : Graph α} {args : List NodeId} {elem : ElementType}

theorem lower_of_emits (hparsed : Equation.parse text = .ok equation)
    (hshapes : g.shapes args = .ok shapes) (hresolve : equation.resolve shapes = .ok columns)
    {property : NodeId → Graph α → Prop}
    (hindexed : g.Indexed) (hemits : Emits ⟨g, []⟩ (emitColumns columns args) property) :
    ∃ node h, lower text args g = .ok node h ∧ g.Extends h ∧ property node h := by
  obtain ⟨node, e, hrun, hextends, -, hproperty⟩ := hemits hindexed
  refine ⟨node, e.graph, ?_, hextends, hproperty⟩
  refine Change.lift_bind_eq_ok_iff.2 ⟨equation, by rw [hparsed]; rfl, ?_⟩
  rw [stateGet_bind]
  refine Change.liftChecked_bind_eq_ok_iff.2 ⟨shapes, hshapes, ?_⟩
  refine Change.lift_bind_eq_ok_iff.2 ⟨columns, by rw [hresolve]; rfl, ?_⟩
  exact Change.widen_eq_ok_iff.2 (Emit.commit_eq_ok_iff.2 ⟨e, hrun, rfl⟩)

/-- The frame of an equation with resolved columns. -/
def frameOf (val : α → R) (args : List NodeId) (shapes : List Shape) (elem : ElementType)
    (columns : Columns) (sure : Prop) : Frame α R where
  val := val
  args := args
  shapes := shapes
  elem := elem
  len := labelLen columns.inputs (shapes.map Shape.lens)
  sure := sure

theorem Equation.Resolved.bulk_eq (hresolved : equation.Resolved shapes columns) :
    bulk ((List.range columns.count).map (labelLen columns.inputs (shapes.map Shape.lens))) =
      bulk ((equation.inputLabels (shapes.map Shape.rank)).flatten.dedup.map
        (labelLen (equation.inputLabels (shapes.map Shape.rank)) (shapes.map Shape.lens))) := by
  rw [bulk_perm (hresolved.range_perm.map _), map_map]
  congr 1
  apply map_congr_left
  intro label hlabel
  exact hresolved.labelLen_columnOf _ (mem_dedup.1 hlabel)

/-- What is asked of the operands of an equation beyond that they resolve: one element type, products
of lengths that fit into a signed word, and that no empty axis is lost on the way. -/
structure Lowerable (equation : Equation) (shapes : List Shape) (columns : Columns)
    (elem : ElementType) : Prop where
  elem_eq : ∀ s ∈ shapes, s.elem = elem
  ranks : ∀ s ∈ shapes, s.rank < Word.limit
  below : equation.Below shapes Word.signedLimit
  /-- An empty column is empty in all operands that have it. -/
  empty : ∀ axis ∈ labelledAxes columns.inputs (shapes.map Shape.lens),
    labelLen columns.inputs (shapes.map Shape.lens) axis.1 = 0 → axis.2 = 0
  /-- The reshapes of contractions take no length from their inputs. -/
  passes : ∀ position, 0 < position → position < columns.inputs.length →
    (columns.contraction position).Passes (labelLen columns.inputs (shapes.map Shape.lens))

theorem Lowerable.fitted (hlowerable : Lowerable equation shapes columns elem)
    (hresolved : equation.Resolved shapes columns) (hsound : equation.Sound) (val : α → R)
    (hargs : args.length = shapes.length) :
    (frameOf val args shapes elem columns
      (equation.Below shapes (largestListing + 1))).Fitted columns where
  arranged := hresolved.arranged hsound.input
  args_length := hargs
  len_eq := rfl
  strided := by
    intro s hs
    obtain ⟨axes, haxes⟩ := hresolved.exists_strided hs
    rw [hlowerable.elem_eq s hs] at haxes
    exact ⟨axes, haxes⟩
  roomy := by
    constructor
    · rw [frameOf, hresolved.bulk_eq]
      exact hlowerable.below.labels
    · intro hsure
      rw [frameOf, hresolved.bulk_eq]
      exact Nat.lt_succ_iff.1 hsure.labels
  roomy_operand := fun s hs =>
    ⟨hlowerable.below.operands s hs, fun hsure => Nat.lt_succ_iff.1 (hsure.operands s hs)⟩
  countable := by
    intro s hs
    rw [← hresolved.rank_eq hs]
    exact hlowerable.ranks s hs
  empty := hlowerable.empty
  passes := hlowerable.passes

/-- An equation that can be lowered is, to a node that holds the sum of products. -/
theorem Lowerable.lower (hlowerable : Lowerable equation shapes columns elem)
    (val : α → R) (hparsed : Equation.parse text = .ok equation) (hindexed : g.Indexed)
    (hshapes : g.shapes args = .ok shapes) (hresolve : equation.resolve shapes = .ok columns) :
    ∃ node h, lower text args g = .ok node h ∧ g.Extends h ∧
      (frameOf val args shapes elem columns (equation.Below shapes (largestListing + 1))).Located h
        node (columns.output.map (labelLen columns.inputs (shapes.map Shape.lens)))
        (fun point => columns.output.map point)
        fun tensors => sumOver (labelLen columns.inputs (shapes.map Shape.lens))
          (columns.settled columns.inputs.length) (productAt val columns.inputs tensors) := by
  have hsound := Equation.sound_of_parse hparsed
  have hresolved := hsound.resolved hresolve
  have hfitted := hlowerable.fitted hresolved hsound val (Graph.shapes_eq_ok_iff.1 hshapes).length_eq
  have hnonempty : columns.inputs ≠ [] := by
    rw [hresolved.inputs_eq, Equation.inputLabels, map_map]
    exact fun hnil => hsound.nonempty (map_eq_nil_iff.1 hnil)
  exact lower_of_emits hparsed hshapes hresolve hindexed
    (Frame.emits_columns hfitted hnonempty hshapes)

/-- Where no operand has an empty axis, no column is empty. -/
theorem labelLen_pos {ι : Type} [DecidableEq ι] {inputs : List (List ι)} {lens : List (List Nat)}
    (hpos : ∀ own ∈ lens, 0 ∉ own) (label : ι) : 0 < labelLen inputs lens label := by
  rcases commonLen_eq_one_or_mem (labelledAxes inputs lens) label with hunit | hmem
  · rw [labelLen, hunit]
    exact Nat.one_pos
  · obtain ⟨⟨labels, own⟩, hoperand, hmem⟩ := mem_flatMap.1 hmem
    rw [Nat.pos_iff_ne_zero]
    intro hzero
    rw [labelLen] at hzero
    rw [hzero] at hmem
    exact hpos own (of_mem_zip hoperand).2 (of_mem_zip hmem).2

end Lowered

end Einsum

open Einsum

/-- Every equation that was read and resolved can be lowered, and whatever the resulting node evaluates
to is the einsum of the operands: it has the lengths of the labels of the output, and its entries are
the sums of products. It does evaluate unless there are more entries than memory can address. -/
theorem lowerEinsum_computes {α R : Type} [Scalar α] [CommSemiring R] {val : α → R}
    (hexact : Exact val) {text : String} {equation : Equation}
    (hparsed : Equation.parse text = .ok equation) {g : Graph α} (hindexed : g.Indexed)
    {args : List NodeId} {shapes : List Shape} (hshapes : g.shapes args = .ok shapes)
    {columns : Columns} (hresolve : equation.resolve shapes = .ok columns) {elem : ElementType}
    (helem : ∀ s ∈ shapes, s.elem = elem) (hranks : ∀ s ∈ shapes, s.rank < Word.limit)
    (hpos : ∀ s ∈ shapes, 0 ∉ s.lens) (hbelow : equation.Below shapes Word.signedLimit) :
    ∃ node h, lower text args g = .ok node h ∧
      ∀ bindings tensors, Forall₂ (fun arg t => g.value bindings arg = .ok t) args tensors →
        Tensor.shapes tensors = shapes → (∀ t ∈ tensors, t.Valid) →
        (∀ t, h.value bindings node = .ok t →
          t.lens = (equation.outputLabels (shapes.map Shape.rank)).map
            (labelLen (equation.inputLabels (shapes.map Shape.rank)) (shapes.map Shape.lens)) ∧
          ∀ index, InRange index t.lens → val (t.entry index) =
            einsumEntry val (equation.inputLabels (shapes.map Shape.rank))
              (equation.outputLabels (shapes.map Shape.rank)) tensors index) ∧
        (equation.Below shapes (largestListing + 1) → ∃ t, h.value bindings node = .ok t) := by
  have hsound := Equation.sound_of_parse hparsed
  have hresolved := hsound.resolved hresolve
  have hlens : ∀ column, 0 < labelLen columns.inputs (shapes.map Shape.lens) column :=
    labelLen_pos (forall_mem_map.2 hpos)
  have hlowerable : Lowerable equation shapes columns elem := by
    refine ⟨helem, hranks, hbelow, fun axis _ hzero => ?_, fun position _ _ => ?_⟩
    · exact absurd hzero (hlens axis.1).ne'
    · exact Grouping.passes_of_pos _ hlens
  obtain ⟨node, h, hlower, hextends, axes, haxes, hmeans⟩ :=
    hlowerable.lower val hparsed hindexed hshapes hresolve
  refine ⟨node, h, hlower, fun bindings tensors htensors hsame hvalid => ?_⟩
  have hyields := htensors.imp fun arg t hvalue =>
    Graph.Yields.mono_extends hextends (Graph.value_eq_ok_iff_yields.1 hvalue)
  have hproduces := hmeans.gives.2 (.refl h) ⟨hexact, hyields, hsame, hvalid⟩
  refine ⟨fun t hvalue => ?_, fun hsure => ?_⟩
  · obtain ⟨hshape, -, hvalues⟩ := hproduces.post (Graph.value_eq_ok_iff_yields.1 hvalue)
    have htlens := (Tensor.lens_of_shape hshape).trans haxes
    refine ⟨htlens.trans (hresolved.map_output _), fun index hindex => ?_⟩
    rw [htlens] at hindex
    have hfitted := hlowerable.fitted hresolved hsound val (Graph.shapes_eq_ok_iff.1 hshapes).length_eq
    have hentry := Frame.val_entry hfitted hlens hsame hvalues hindex
    rw [hresolved.inputs_eq, hresolved.output_eq] at hentry
    rw [← einsumEntry_map val columnOf_inj_of_mem (hresolved.admits.labels_subset _)]
    exact hentry
  · obtain ⟨t, ht⟩ := hproduces.runs hsure
    exact ⟨t, Graph.value_eq_ok_iff_yields.2 ht⟩

/-- A graph with two operands. -/
def operandPair (α : Type) (first second : Shape) : Graph α where
  name := "main"
  nodes :=
    [(1, ⟨.parameter "b" second, second, [], []⟩), (0, ⟨.parameter "a" first, first, [], []⟩)]
  vacant := []
  fresh := 2

theorem indexed_operandPair (α : Type) (first second : Shape) :
    (operandPair α first second).Indexed := by
  have hhistory : Command.history "main" [.parameter "a" first, .parameter "b" second] =
      .ok (operandPair α first second) := by rfl
  exact (history_coherent hhistory).toIndexed

/-- Rows along a diagonal are summed and scaled. -/
def scaledDiagonal : Equation :=
  ⟨[[.letter 'i', .letter 'i', .letter 'j'], [.letter 'k', .letter 'j']],
    some [.letter 'i', .letter 'k']⟩

/-- The numbers from one to eight, and three factors. -/
def cubeAndFactors : List (Tensor (Positioned ℕ)) :=
  [.strided .float32 [⟨2, 4⟩, ⟨2, 2⟩, ⟨2, 1⟩]
     #[⟨1, 0⟩, ⟨2, 0⟩, ⟨3, 0⟩, ⟨4, 0⟩, ⟨5, 0⟩, ⟨6, 0⟩, ⟨7, 0⟩, ⟨8, 0⟩],
   .strided .float32 [⟨3, 1⟩, ⟨1, 1⟩] #[⟨1, 0⟩, ⟨10, 0⟩, ⟨100, 0⟩]]

theorem below_scaledDiagonal {bound : Nat} (hbound : 12 < bound) :
    scaledDiagonal.Below (Tensor.shapes cubeAndFactors) bound := by
  constructor
  · exact lt_of_le_of_lt (by decide +kernel) hbound
  · intro s hs
    apply lt_of_le_of_lt _ hbound
    revert s
    decide

/-- The column that is summed over has length one in the second operand. -/
theorem computes_scaledDiagonal :
    ∃ node h t, lower "iij,kj->ik" [0, 1] (operandPair (Positioned ℕ)
        (.strided .float32 [⟨2, 4⟩, ⟨2, 2⟩, ⟨2, 1⟩]) (.strided .float32 [⟨3, 1⟩, ⟨1, 1⟩])) =
          .ok node h ∧
      h.value (["a", "b"].zip cubeAndFactors) node = .ok t ∧ t.lens = [2, 3] ∧
      (t.entry [0, 1]).value = (1 + 2) * 10 ∧ (t.entry [1, 2]).value = (7 + 8) * 100 := by
  have hparsed : Equation.parse "iij,kj->ik" = .ok scaledDiagonal := by decide +kernel
  have hresolve : scaledDiagonal.resolve (Tensor.shapes cubeAndFactors) =
      .ok ⟨3, [[0, 0, 1], [2, 1]], [0, 2]⟩ := by decide +kernel
  have hvalid : ∀ t ∈ cubeAndFactors, t.Valid := by
    rw [cubeAndFactors, forall_mem_cons, forall_mem_singleton]
    exact ⟨.strided rfl (by decide), .strided rfl (by decide)⟩
  obtain ⟨node, h, hlower, hvalues⟩ := lowerEinsum_computes (@Positioned.exact ℕ _) hparsed
    (indexed_operandPair _ _ _) (rfl : Graph.shapes _ [0, 1] = .ok (Tensor.shapes cubeAndFactors))
    hresolve (by decide : ∀ s ∈ _, Shape.elem s = .float32) (by decide) (by decide)
    (below_scaledDiagonal (by decide))
  obtain ⟨hpost, hruns⟩ := hvalues (["a", "b"].zip cubeAndFactors) cubeAndFactors
    (.cons rfl (.cons rfl .nil)) rfl hvalid
  obtain ⟨t, ht⟩ := hruns (below_scaledDiagonal (by decide))
  obtain ⟨hlens, hentries⟩ := hpost t ht
  have hlens : t.lens = [2, 3] := hlens.trans (by decide +kernel)
  rw [hlens] at hentries
  refine ⟨node, h, t, hlower, ht, hlens, ?_, ?_⟩
  · exact (hentries [0, 1] (.cons (by decide) (.cons (by decide) .nil))).trans (by decide +kernel)
  · exact (hentries [1, 2] (.cons (by decide) (.cons (by decide) .nil))).trans (by decide +kernel)

/-- One entry that is repeated along all axes of a cube of 62 dimensions. -/
def repeatedEntry : Tensor (Positioned ℕ) :=
  .strided .float32 (List.replicate 62 ⟨2, 0⟩) #[⟨1, 0⟩]

/-- A graph with an operand of this shape. -/
def repeatedOperand : Graph (Positioned ℕ) where
  name := "main"
  nodes := [(0, ⟨.parameter "a" repeatedEntry.shape, repeatedEntry.shape, [], []⟩)]
  vacant := []
  fresh := 1

/-- The diagonal of the cube. -/
def longDiagonal : Equation := ⟨[List.replicate 62 (.letter 'i')], none⟩

/-- A lowered einsum need not evaluate: the entries of an operand are laid out before its diagonal is
taken, and there can be more than memory can address. -/
theorem not_lowerEinsum_evaluates :
    ¬ ∀ (text : String) (equation : Equation) (g h : Graph (Positioned ℕ)) (args : List NodeId)
      (shapes : List Shape) (columns : Columns) (elem : ElementType)
      (bindings : Bindings (Positioned ℕ)) (tensors : List (Tensor (Positioned ℕ))) (node : NodeId),
      Equation.parse text = .ok equation → g.Indexed → g.shapes args = .ok shapes →
      equation.resolve shapes = .ok columns → (∀ s ∈ shapes, s.elem = elem) →
      (∀ s ∈ shapes, s.rank < Word.limit) → (∀ s ∈ shapes, 0 ∉ s.lens) →
      equation.Below shapes Word.signedLimit → lower text args g = .ok node h →
      Forall₂ (fun arg t => g.value bindings arg = .ok t) args tensors →
      Tensor.shapes tensors = shapes → (∀ t ∈ tensors, t.Valid) →
      ∃ t, h.value bindings node = .ok t := by
  intro hclaim
  have hhistory : Command.history "main" [.parameter "a" repeatedEntry.shape] =
      .ok repeatedOperand := by rfl
  have hparsed : Equation.parse (String.ofList (List.replicate 62 'i')) = .ok longDiagonal := by
    decide +kernel
  have hresolve : longDiagonal.resolve [repeatedEntry.shape] =
      .ok ⟨1, [List.replicate 62 0], []⟩ := by decide +kernel
  have hbelow : longDiagonal.Below [repeatedEntry.shape] Word.signedLimit := by
    refine ⟨by decide +kernel, ?_⟩
    rw [forall_mem_singleton]
    decide +kernel
  have hfault : (match lower (String.ofList (List.replicate 62 'i')) [0] repeatedOperand with
      | .ok node h => (h.value [("a", repeatedEntry)] node).isOk
      | .error _ _ => true) = false := by decide +kernel
  cases hlower : lower (String.ofList (List.replicate 62 'i')) [0] repeatedOperand with
  | error cause h =>
    rw [hlower] at hfault
    cases hfault
  | ok node h =>
    rw [hlower] at hfault
    dsimp only at hfault
    have hvalue := hclaim _ _ _ _ _ _ _ .float32 [("a", repeatedEntry)] [repeatedEntry] _ hparsed
      (history_coherent hhistory).toIndexed rfl hresolve (by decide) (by decide +kernel)
      (by decide +kernel) hbelow hlower (.cons rfl .nil) rfl
      (forall_mem_singleton.2 (.strided rfl (by decide)))
    rw [isOk_eq_true_iff.2 hvalue] at hfault
    cases hfault

/-- The lengths of a lowered einsum are those of the labels of the output, empty ones included, as long
as no operand repeats an empty column and the reshapes of contractions take no length from their
inputs. -/
theorem lowerEinsum_lens {α : Type} [Scalar α] {text : String} {equation : Equation}
    (hparsed : Equation.parse text = .ok equation) {g : Graph α} (hindexed : g.Indexed)
    {args : List NodeId} {shapes : List Shape} (hshapes : g.shapes args = .ok shapes)
    {columns : Columns} (hresolve : equation.resolve shapes = .ok columns) {elem : ElementType}
    (hlowerable : Lowerable equation shapes columns elem) :
    ∃ node h shape, lower text args g = .ok node h ∧ h.shape node = .ok shape ∧
      shape.lens = (equation.outputLabels (shapes.map Shape.rank)).map
        (labelLen (equation.inputLabels (shapes.map Shape.rank)) (shapes.map Shape.lens)) := by
  have hresolved := (Equation.sound_of_parse hparsed).resolved hresolve
  -- Nothing is asked of the values, so elements may be seen as anything.
  obtain ⟨node, h, hlower, -, axes, haxes, hmeans⟩ :=
    hlowerable.lower (fun _ => (0 : ℕ)) hparsed hindexed hshapes hresolve
  refine ⟨node, h, _, hlower, hmeans.gives.1, ?_⟩
  rw [Shape.lens_strided, haxes]
  exact hresolved.map_output _

/-- A product of matrices. -/
def matrixProduct : Equation :=
  ⟨[[.letter 'i', .letter 'j'], [.letter 'j', .letter 'k']], some [.letter 'i', .letter 'k']⟩

/-- The product of a matrix without columns and one without rows. -/
theorem lens_emptyProduct :
    ∃ node h shape, lower "ij,jk->ik" [0, 1] (operandPair Float32
        (.strided .float32 [⟨2, 0⟩, ⟨0, 1⟩]) (.strided .float32 [⟨0, 3⟩, ⟨3, 1⟩])) = .ok node h ∧
      h.shape node = .ok shape ∧ shape.lens = [2, 3] := by
  have hparsed : Equation.parse "ij,jk->ik" = .ok matrixProduct := by decide +kernel
  have hresolve : matrixProduct.resolve
      [.strided .float32 [⟨2, 0⟩, ⟨0, 1⟩], .strided .float32 [⟨0, 3⟩, ⟨3, 1⟩]] =
        .ok ⟨3, [[0, 1], [1, 2]], [0, 2]⟩ := by decide +kernel
  have hlowerable : Lowerable matrixProduct
      [.strided .float32 [⟨2, 0⟩, ⟨0, 1⟩], .strided .float32 [⟨0, 3⟩, ⟨3, 1⟩]]
      ⟨3, [[0, 1], [1, 2]], [0, 2]⟩ .float32 := by
    refine ⟨by decide, by decide, ⟨by decide +kernel, by decide⟩, by decide +kernel, ?_⟩
    intro position hpos hposition
    obtain rfl : position = 1 := Nat.le_antisymm (Nat.lt_succ_iff.1 hposition) hpos
    exact ⟨by decide +kernel, by decide +kernel, by decide +kernel⟩
  have hshapes : (operandPair Float32 (.strided .float32 [⟨2, 0⟩, ⟨0, 1⟩])
      (.strided .float32 [⟨0, 3⟩, ⟨3, 1⟩])).shapes [0, 1] = .ok
        [.strided .float32 [⟨2, 0⟩, ⟨0, 1⟩], .strided .float32 [⟨0, 3⟩, ⟨3, 1⟩]] := rfl
  obtain ⟨node, h, shape, hlower, hshape, hlens⟩ :=
    lowerEinsum_lens hparsed (indexed_operandPair _ _ _) hshapes hresolve hlowerable
  exact ⟨node, h, shape, hlower, hshape, hlens.trans (by decide +kernel)⟩

/-- A sum over the last axis of an elementwise product. -/
def innerProducts : Equation :=
  ⟨[[.letter 'a', .letter 'b', .letter 'c'], [.letter 'a', .letter 'b', .letter 'c']],
    some [.letter 'a', .letter 'b']⟩

/-- An empty axis need not stay empty: operands with lengths 5, 0 and 0 are merged into matrices by a
reshape that asks for lengths 0, 1 and 0 and gets 5, 1 and 0. -/
theorem not_lowerEinsum_lens :
    ¬ ∀ (text : String) (equation : Equation) (g : Graph Float32) (args : List NodeId)
      (shapes : List Shape) (columns : Columns) (elem : ElementType),
      Equation.parse text = .ok equation → g.Indexed → g.shapes args = .ok shapes →
      equation.resolve shapes = .ok columns → (∀ s ∈ shapes, s.elem = elem) →
      (∀ s ∈ shapes, s.rank < Word.limit) → equation.Below shapes Word.signedLimit →
      ∃ node h shape, lower text args g = .ok node h ∧ h.shape node = .ok shape ∧
        shape.lens = (equation.outputLabels (shapes.map Shape.rank)).map
          (labelLen (equation.inputLabels (shapes.map Shape.rank)) (shapes.map Shape.lens)) := by
  intro hclaim
  have hparsed : Equation.parse "abc,abc->ab" = .ok innerProducts := by decide +kernel
  have hresolve : innerProducts.resolve (List.replicate 2 (.strided .float32 [⟨5, 0⟩, ⟨0, 0⟩, ⟨0, 1⟩])) =
      .ok ⟨3, [[0, 1, 2], [0, 1, 2]], [0, 1]⟩ := by decide +kernel
  obtain ⟨node, h, shape, hlower, hshape, hlens⟩ := hclaim _ _
    (operandPair Float32 (.strided .float32 [⟨5, 0⟩, ⟨0, 0⟩, ⟨0, 1⟩])
      (.strided .float32 [⟨5, 0⟩, ⟨0, 0⟩, ⟨0, 1⟩])) [0, 1] _ _ .float32 hparsed
    (indexed_operandPair _ _ _) rfl hresolve (by decide) (by decide) ⟨by decide +kernel, by decide⟩
  have hlost : (match lower "abc,abc->ab" [0, 1] (operandPair Float32
      (.strided .float32 [⟨5, 0⟩, ⟨0, 0⟩, ⟨0, 1⟩]) (.strided .float32 [⟨5, 0⟩, ⟨0, 0⟩, ⟨0, 1⟩])) with
      | .ok node h => (h.shape node).toOption.map Shape.lens
      | .error _ _ => none) = some [5, 1] := by decide +kernel
  rw [hlower] at hlost
  dsimp only at hlost
  rw [hshape] at hlost
  have hwrong : shape.lens = [5, 1] := Option.some.inj hlost
  rw [hwrong] at hlens
  revert hlens
  decide +kernel

end TensorGraph
