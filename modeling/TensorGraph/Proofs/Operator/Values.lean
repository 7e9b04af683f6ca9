import TensorGraph.Proofs.Operator.Views

/-!
# What operators compute

A `Reading` is what a strided tensor means. `Computes` says that a computation gives nothing but what a
formula over readings says, and when it gives anything.
-/

namespace TensorGraph

open Inference Layout List Tensor

variable {elem elem' : ElementType} {lens index : List Nat} {out : Shape} {axes : Layout} {ε : Type}

/-- Element type, lengths, and an entry for every index. Entries out of range are zero, so readings
that agree in range are equal. -/
structure Reading (α : Type) where
  elem : ElementType
  lens : List Nat
  value : List Nat → α

variable {α : Type} [Scalar α]

/-- The reading with the element type and lengths of a shape and these entries. -/
def Reading.of (shape : Shape) (f : List Nat → α) : Reading α :=
  ⟨shape.elem, shape.lens, fun index => if InRange index shape.lens then f index else Scalar.zero⟩

variable {f : List Nat → α} {computed : Except ε (Tensor α)} {fits : Prop} {layout : Layout}
  {rows columns : Nat}

theorem Reading.of_congr {shape other : Shape} {g : List Nat → α} (helem : shape.elem = other.elem)
    (hlens : shape.lens = other.lens)
    (hvalue : ∀ index, InRange index shape.lens → f index = g index) :
    Reading.of shape f = Reading.of other g := by
  unfold Reading.of
  rw [← helem, ← hlens]
  congr 1
  funext index
  split_ifs with hrange
  · exact hvalue index hrange
  · rfl

namespace Tensor

variable {t : Tensor α} {elem : ElementType} {axes : Layout}

/-- What a tensor means. -/
def reading (t : Tensor α) : Reading α := Reading.of t.shape t.entry

@[simp]
theorem lens_reading (t : Tensor α) : t.reading.lens = t.lens := rfl

theorem value_reading (hrange : InRange index t.lens) :
    t.reading.value index = t.entry index := if_pos hrange

omit [Scalar α] in
theorem eq_strided_of_shape (hshape : t.shape = .strided elem axes) :
    t = .strided elem axes t.data := by
  cases t with
  | strided => cases hshape; rfl
  | tuple parts => cases hshape

omit [Scalar α] in
theorem lens_of_shape (hshape : t.shape = .strided elem axes) : t.lens = axes.lens := by
  rw [lens, hshape, Shape.lens_strided]

/-- A valid tensor can be read at every logical index. -/
theorem Valid.get_eq (hvalid : t.Valid) (hshape : t.shape = .strided elem axes)
    (hrange : InRange index axes.lens) : t.get index = .ok (t.reading.value index) := by
  rw [value_reading (lens_of_shape hshape ▸ hrange)]
  rw [eq_strided_of_shape hshape] at hvalid ⊢
  exact hvalid.get_eq_entry hrange

/-- A tensor of this shape with these entries. -/
structure Holds (t : Tensor α) (shape : Shape) (f : List Nat → α) : Prop where
  shape_eq : t.shape = shape
  strided : ∃ elem axes, shape = .strided elem axes
  valid : t.Valid
  entry_eq : ∀ index, InRange index shape.lens → t.entry index = f index

variable {shape : Shape} {f : List Nat → α}

theorem Holds.get_eq (hholds : t.Holds shape f) (hrange : InRange index shape.lens) :
    t.get index = .ok (f index) := by
  obtain ⟨rfl, ⟨elem, axes, hshape⟩, hvalid, hentries⟩ := hholds
  rw [← hentries index hrange, ← value_reading hrange]
  rw [hshape] at hrange
  exact hvalid.get_eq hshape hrange

theorem Holds.reading_eq (hholds : t.Holds shape f) :
    t.reading = Reading.of shape f := by
  obtain ⟨rfl, -, -, hentries⟩ := hholds
  exact Reading.of_congr rfl rfl hentries

end Tensor

/-- A computation gives a tensor of this shape with these entries, or nothing; it gives one exactly
when a condition is met. -/
structure Computes {ε : Type} (computed : Except ε (Tensor α)) (fits : Prop) (out : Shape)
    (f : List Nat → α) : Prop where
  holds : ∀ {t}, computed = .ok t → t.Holds out f
  exists_iff : (∃ t, computed = .ok t) ↔ fits

theorem Computes.of_exists (hrun : ∃ t, computed = .ok t ∧ t.Holds out f) :
    Computes computed True out f := by
  obtain ⟨t, hrun, hholds⟩ := hrun
  refine ⟨fun hrun' => ?_, ⟨fun _ => trivial, fun _ => ⟨t, hrun⟩⟩⟩
  rw [hrun] at hrun'
  cases hrun'
  exact hholds

/-- A condition that is met whenever something is given. -/
theorem Computes.of_needed {needed : Prop} (hneeded : ∀ t, computed = .ok t → needed)
    (hcomputes : needed → Computes computed fits out f) :
    Computes computed (needed ∧ fits) out f := by
  refine ⟨fun hrun => (hcomputes (hneeded _ hrun)).holds hrun, ⟨?_, ?_⟩⟩
  · rintro ⟨t, hrun⟩
    exact ⟨hneeded t hrun, (hcomputes (hneeded t hrun)).exists_iff.1 ⟨t, hrun⟩⟩
  · rintro ⟨hmet, hfits⟩
    exact (hcomputes hmet).exists_iff.2 hfits

theorem Computes.lift {computed : Checked (Tensor α)} (hcomputes : Computes computed fits out f) :
    Computes (liftM computed : Outcome ε (Tensor α)) fits out f := by
  refine ⟨fun hrun => hcomputes.holds (Outcome.lift_eq_ok_iff.1 hrun), ?_⟩
  simp only [Outcome.lift_eq_ok_iff]
  exact hcomputes.exists_iff

/-- Tabulating a dense shape gives the tabulated values, when the buffer can be had. -/
theorem computes_tabulate (hdense : out.IsDense elem lens) {value : List Nat → Checked α}
    (hvalue : ∀ index, InRange index lens → value index = .ok (f index)) :
    Computes (Tensor.tabulate out value) (volume lens ≤ Tensor.largestBuffer) out f := by
  obtain ⟨axes, rfl, rfl, hdense⟩ := hdense
  have hexists (hfits : volume axes.lens ≤ Tensor.largestBuffer) :
      ∃ t, Tensor.tabulate (.strided elem axes) value = .ok t ∧
        t.Holds (.strided elem axes) f := by
    have hspace := hdense.space_eq (Nat.lt_of_le_of_lt hfits (by decide))
    obtain ⟨data, hrun, hvalid, hentries⟩ := exists_tabulate hdense hspace hfits hvalue
    exact ⟨_, hrun, rfl, ⟨elem, axes, rfl⟩, hvalid, hentries⟩
  have hfits {t : Tensor α} (hrun : Tensor.tabulate (.strided elem axes) value = .ok t) :
      volume axes.lens ≤ Tensor.largestBuffer := by
    obtain ⟨_, _, n, heq, hspace, hle, -⟩ := tabulate_eq_ok hrun
    cases heq
    exact hdense.space_eq_volume hspace ▸ hle
  refine ⟨fun hrun => ?_, fun ⟨t, hrun⟩ => hfits hrun, fun hle => ?_⟩
  · exact (Computes.of_exists (hexists (hfits hrun))).holds hrun
  · obtain ⟨t, hrun, -⟩ := hexists hle
    exact ⟨t, hrun⟩

/-- A view through a traced layout. -/
theorem computes_view {a : Tensor α} (hvalid : a.Valid) {out : Layout}
    (hshape : a.shape = .strided elem axes) {source : List Nat → List Nat}
    (htraces : out.Traces axes 0 source) :
    Computes (a.view (.strided elem' out)) True (.strided elem' out)
      fun index => a.reading.value (source index) := by
  have hlens := lens_of_shape hshape
  rw [eq_strided_of_shape hshape] at hvalid
  obtain ⟨t, hrun, hout, hvalid', hentries⟩ := hvalid.exists_view htraces
  rw [← eq_strided_of_shape hshape] at hrun hentries
  refine Computes.of_exists ⟨t, hrun, hout, ⟨_, _, rfl⟩, hvalid', fun index hrange => ?_⟩
  rw [hentries index hrange, value_reading (hlens ▸ (htraces index hrange).1)]

/-! ## Elementwise operators -/

/-- A function of one operand at every index. -/
def Reading.unary (fn : UnaryFn) (r : Reading α) (index : List Nat) : α :=
  Scalar.unary fn (r.value index)

/-- A function of two operands at every index. -/
def Reading.binary (fn : BinaryFn) (r s : Reading α) (index : List Nat) : α :=
  Scalar.binary fn (r.value index) (s.value index)

namespace Evaluation

variable {a b : Tensor α} {elem elem' : ElementType} {axes axes' : Layout} {out : Shape}

theorem computes_unary (fn : UnaryFn) (hvalid : a.Valid) (hshape : a.shape = .strided elem axes)
    (hdense : out.IsDense elem' axes.lens) :
    Computes (unaryValue fn out a) (volume axes.lens ≤ Tensor.largestBuffer) out
      (Reading.unary fn a.reading) := by
  refine computes_tabulate hdense fun index hrange => ?_
  rw [hvalid.get_eq hshape hrange]
  rfl

theorem computes_binary (fn : BinaryFn) (hvalid : a.Valid) (hshape : a.shape = .strided elem axes)
    (hvalid' : b.Valid) (hshape' : b.shape = .strided elem axes') (hlens : axes'.lens = axes.lens)
    (hdense : out.IsDense elem' axes.lens) :
    Computes (binaryValue fn out a b) (volume axes.lens ≤ Tensor.largestBuffer) out
      (Reading.binary fn a.reading b.reading) := by
  refine computes_tabulate hdense fun index hrange => ?_
  rw [hvalid.get_eq hshape hrange, hvalid'.get_eq hshape' (hlens ▸ hrange)]
  rfl

end Evaluation

/-! ## Sums -/

/-- The sum over all positions of the reduced axes. -/
def Reading.reduceSum (axes : List Nat) (r : Reading α) (index : List Nat) : α :=
  (indices (axes.eraseDups.map (r.lens.getD · 0))).foldl
    (fun total positions =>
      Scalar.add total (r.value (Evaluation.placeAt axes.eraseDups positions index)))
    Scalar.emptySum

theorem getElem?_foldl_set {axes : List Nat} {k : Nat} (hfree : k ∉ axes) :
    (axes.foldl (fun lens axis => lens.set axis 1) lens)[k]? = lens[k]? := by
  induction axes generalizing lens with
  | nil => rfl
  | cons axis axes ih =>
    rw [mem_cons, not_or] at hfree
    rw [foldl_cons, ih hfree.2, getElem?_set_ne (Ne.symm hfree.1)]

theorem length_foldl_set (axes lens : List Nat) :
    (axes.foldl (fun lens axis => lens.set axis 1) lens).length = lens.length := by
  induction axes generalizing lens with
  | nil => rfl
  | cons axis axes ih => rw [foldl_cons, ih, length_set]

theorem inRange_iff_getElem :
    InRange index lens ↔ index.length = lens.length ∧
      ∀ k len, lens[k]? = some len → index.getD k 0 < len := by
  rw [InRange, forall₂_iff_get]
  refine and_congr_right fun hlength => ⟨fun hall k len hlen => ?_, fun hall k hk hk' => ?_⟩
  · obtain ⟨hk, rfl⟩ := List.getElem?_eq_some_iff.1 hlen
    simpa [hlength, hk] using hall k (hlength ▸ hk) hk
  · simpa [hk] using hall k lens[k] (getElem?_eq_getElem hk')

/-- Placing positions at some axes of an index that is in range at all the others. -/
theorem inRange_placeAt {axes positions : List Nat} (hlength : index.length = lens.length)
    (hother : ∀ k len, k ∉ axes → lens[k]? = some len → index.getD k 0 < len)
    (hpositions : InRange positions (axes.map (lens.getD · 0))) :
    InRange (Evaluation.placeAt axes positions index) lens := by
  induction axes generalizing positions index with
  | nil =>
    refine inRange_iff_getElem.2 ⟨?_, fun k len hlen => ?_⟩
    · exact hlength
    · exact hother k len not_mem_nil hlen
  | cons axis axes ih =>
    obtain ⟨position, rest, hfirst, hrest, rfl⟩ := forall₂_cons_right_iff.1 hpositions
    refine ih (by simpa using hlength) (fun k len hfree hlen => ?_) hrest
    have hk : k < index.length := hlength ▸ (List.getElem?_eq_some_iff.1 hlen).1
    by_cases heq : k = axis
    · subst heq
      simpa [hk, getD_eq_getElem?_getD, hlen] using hfirst
    · have hset : (index.set axis position).getD k 0 = index.getD k 0 := by
        simp [getD_eq_getElem?_getD, getElem?_set_ne (Ne.symm heq)]
      rw [hset]
      exact hother k len (by simp [heq, hfree]) hlen

theorem Evaluation.computes_reduceSum {a : Tensor α} {axes : List Nat} (hvalid : a.Valid)
    (hshape : a.shape = .strided elem layout) (hbelow : ∀ axis ∈ axes, axis < layout.length)
    (hdense : out.IsDense elem' (axes.foldl (fun lens axis => lens.set axis 1) layout.lens)) :
    Computes (reduceSumValue axes out a)
      (volume (axes.foldl (fun lens axis => lens.set axis 1) layout.lens) ≤ Tensor.largestBuffer)
      out (Reading.reduceSum axes a.reading) := by
  have hlens := lens_of_shape hshape
  have hfetch : axes.eraseDups.mapM (fetch a.lens) = .ok (axes.eraseDups.map (a.lens.getD · 0)) := by
    rw [mapM_eq_ok_iff, forall₂_map_right_iff, forall₂_same]
    intro axis hmem
    rw [fetch_eq_ok_iff, hlens]
    simp [hbelow axis (mem_eraseDups.1 hmem)]
  unfold reduceSumValue
  dsimp only
  rw [hfetch, ok_bind]
  refine computes_tabulate hdense fun index hrange => ?_
  rw [foldIndicesM_eq_foldlM]
  refine foldlM_eq_ok (fun positions hmem total => ?_) _
  have hindex := inRange_iff_getElem.1 hrange
  rw [length_foldl_set] at hindex
  have hplaced : InRange (placeAt axes.eraseDups positions index) layout.lens := by
    refine inRange_placeAt hindex.1 (fun k len hfree hlen => hindex.2 k len ?_) ?_
    · rw [getElem?_foldl_set (fun hmem => hfree (mem_eraseDups.2 hmem)), hlen]
    · exact hlens ▸ mem_indices_iff.1 hmem
  rw [hvalid.get_eq hshape hplaced]
  rfl

/-! ## Products -/

/-- The products along the inner axis, added in order. -/
def Reading.dot (r s : Reading α) (index : List Nat) : α :=
  match matrixLens? r.lens, matrixLens? index with
  | some (_, _, inner), some (batch, row, column) =>
    (List.range inner).foldl
      (fun total k => Scalar.add total
        (Scalar.mul (r.value (batch ++ [row, k])) (s.value (batch ++ [k, column]))))
      Scalar.zero
  | _, _ => Scalar.zero

theorem exists_of_inRange_append (hrange : InRange index (lens ++ [rows, columns])) :
    ∃ batch row column, index = batch ++ [row, column] ∧ InRange batch lens ∧
      row < rows ∧ column < columns := by
  have hbatch := forall₂_take_append _ _ _ hrange
  have hmatrix := forall₂_drop_append _ _ _ hrange
  obtain ⟨row, rest, hrow, hrest, heq⟩ := forall₂_cons_right_iff.1 hmatrix
  obtain ⟨column, rfl, hcolumn⟩ := exists_of_forall₂_one hrest.flip
  refine ⟨_, row, column, ?_, hbatch, hrow, hcolumn⟩
  rw [← heq, take_append_drop]

theorem Evaluation.computes_dot {a b : Tensor α} {elem'' : ElementType} {axes' : Layout}
    {batch : List Nat} {inner : Nat} (hvalid : a.Valid) (hshape : a.shape = .strided elem axes)
    (hlens : axes.lens = batch ++ [rows, inner]) (hvalid' : b.Valid)
    (hshape' : b.shape = .strided elem' axes') (hlens' : axes'.lens = batch ++ [inner, columns])
    (hdense : out.IsDense elem'' (batch ++ [rows, columns])) :
    Computes (dotValue out a b)
      ((∃ n, Word.product (batch ++ [rows, columns]) = .ok n) ∧
        volume (batch ++ [rows, columns]) ≤ Tensor.largestBuffer)
      out (Reading.dot a.reading b.reading) := by
  have helements : out.elements = Word.product (batch ++ [rows, columns]) := by
    obtain ⟨layout, rfl, hout, -⟩ := hdense
    rw [← hout]
    rfl
  have hmatrix : matrixLens? a.lens = some (batch, rows, inner) := by
    rw [lens_of_shape hshape, hlens, matrixLens?_eq_some_iff]
  unfold dotValue
  rw [helements, hmatrix]
  refine Computes.of_needed (fun t hrun => ?_) ?_
  · obtain ⟨n, hn, -⟩ := bind_eq_ok_iff.1 hrun
    exact ⟨n, hn⟩
  · rintro ⟨n, hn⟩
    rw [hn, ok_bind]
    refine computes_tabulate hdense fun index hrange => ?_
    obtain ⟨outer, row, column, rfl, houter, hrow, hcolumn⟩ := exists_of_inRange_append hrange
    rw [Reading.dot, lens_reading, hmatrix, matrixLens?_eq_some_iff.2 rfl]
    dsimp only [dotEntry]
    rw [foldCountM_eq_foldlM, ← range_eq_range']
    refine foldlM_eq_ok (fun k hk total => ?_) _
    have hinner := mem_range.1 hk
    rw [hvalid.get_eq hshape (hlens ▸ rel_append houter (.cons hrow (.cons hinner .nil))),
      hvalid'.get_eq hshape' (hlens' ▸ rel_append houter (.cons hinner (.cons hcolumn .nil)))]
    rfl

/-! ## Picking -/

/-- The position along an axis that is picked for an index of the result. -/
def Reading.picked (place : Nat) (r picks : Reading α) (index : List Nat) : Checked Int :=
  Evaluation.namedPosition (r.lens.getD place 0)
    (picks.value ((index.drop place).take picks.lens.length))

/-- The picked position lies on the axis. -/
def Reading.Picks (place : Nat) (r picks : Reading α) (index : List Nat) : Prop :=
  ∃ position, r.picked place picks index = .ok position ∧
    Evaluation.outside (r.lens.getD place 0) position = false

/-- The entries at the picked positions. -/
def Reading.gather (place : Nat) (r picks : Reading α) (index : List Nat) : α :=
  match r.picked place picks index with
  | .ok position =>
    r.value (index.take place ++ position.toNat :: index.drop (place + picks.lens.length))
  | .error _ => Scalar.zero

namespace Evaluation

variable {place : Nat}

/-- No position is found outside exactly when every position is inside. -/
theorem lastOutside?_eq_none_iff {len : Nat} {picks : Tensor α} :
    lastOutside? place len picks lens = .ok none ↔
      ∀ index, InRange index lens →
        ∃ position, pickedPosition place len picks index = .ok position ∧
          outside len position = false := by
  unfold lastOutside?
  simp only [foldIndicesM_eq_foldlM, ← mem_indices_iff]
  generalize indices lens = items
  constructor
  · suffices hall : ∀ last?, items.foldlM (fun last? index => do
        let position ← pickedPosition place len picks index
        return if outside len position then some position else last?) last? = .ok none →
        last? = none ∧ ∀ index ∈ items, ∃ position,
          pickedPosition place len picks index = .ok position ∧ outside len position = false from
      fun hrun => (hall none hrun).2
    induction items with
    | nil =>
      intro last? hrun
      cases hrun
      exact ⟨rfl, by simp⟩
    | cons index items ih =>
      intro last? hrun
      rw [foldlM_cons] at hrun
      obtain ⟨next?, hnext, hrun⟩ := bind_eq_ok_iff.1 hrun
      obtain ⟨position, hposition, hpure⟩ := bind_eq_ok_iff.1 hnext
      cases hpure
      obtain ⟨hnone, hrest⟩ := ih _ hrun
      split_ifs at hnone with hout
      exact ⟨hnone, forall_mem_cons.2 ⟨⟨position, hposition, by simpa using hout⟩, hrest⟩⟩
  · intro hall
    have hfold : items.foldlM (fun (last? : Option Int) index => do
        let position ← pickedPosition place len picks index
        return if outside len position then some position else last?) none =
        .ok (items.foldl (fun last? _ => last?) none) := by
      refine foldlM_eq_ok (fun index hmem last? => ?_) none
      obtain ⟨position, hposition, hin⟩ := hall index hmem
      simp [hposition, hin, Except.pure_eq_ok]
    rw [hfold, foldl_fixed]

variable {a picks : Tensor α} {elem elem' elem'' : ElementType} {axes axes' : Layout} {out : Shape}

/-- An index of a gathered result, cut into its entries before, at and after the gathered axis. -/
theorem inRange_gathered {picked : List Nat} (hplace : place < lens.length)
    (hrange : InRange index (lens.take place ++ picked ++ lens.drop (place + 1))) :
    InRange ((index.drop place).take picked.length) picked ∧
      ∀ position < lens.getD place 0,
        InRange (index.take place ++ position :: index.drop (place + picked.length)) lens := by
  have hlength : (lens.take place).length = place := by
    rw [length_take, Nat.min_eq_left (Nat.le_of_lt hplace)]
  rw [append_assoc] at hrange
  have hbefore := forall₂_take_append _ _ _ hrange
  have hrest := forall₂_drop_append _ _ _ hrange
  rw [hlength] at hbefore hrest
  refine ⟨forall₂_take_append _ _ _ hrest, fun position hposition => ?_⟩
  have hafter := forall₂_drop_append _ _ _ hrest
  rw [drop_drop] at hafter
  have hself := take_append_drop place lens
  rw [drop_eq_getElem_cons hplace] at hself
  rw [← hself]
  refine rel_append (by simpa using hbefore) (.cons ?_ hafter)
  simpa [hplace] using hposition

theorem pickedPosition_eq (hvalid : picks.Valid) (hshape : a.shape = .strided elem axes)
    (hshape' : picks.shape = .strided elem' axes') (hplace : place < axes.length)
    (hrange : InRange index
      (axes.lens.take place ++ axes'.lens ++ axes.lens.drop (place + 1))) :
    pickedPosition place (axes.lens.getD place 0) picks index =
      a.reading.picked place picks.reading index := by
  have hpicks := (inRange_gathered (by simpa using hplace) hrange).1
  rw [pickedPosition, hshape', Shape.rank_strided, ← length_lens,
    hvalid.get_eq hshape' hpicks, ok_bind, Reading.picked, lens_reading, lens_reading,
    lens_of_shape hshape, lens_of_shape hshape']

theorem computes_gather {op : String} {axis : Int} (hvalid : a.Valid) (hvalid' : picks.Valid)
    (hshape : a.shape = .strided elem axes) (hshape' : picks.shape = .strided elem' axes')
    (hplace : resolveAxis op axis axes.length = .ok place) (hdense : out.IsDense elem''
      (axes.lens.take place ++ axes'.lens ++ axes.lens.drop (place + 1))) :
    Computes (gatherValue op axis out a picks)
      ((∀ index, InRange index out.lens → a.reading.Picks place picks.reading index) ∧
        volume out.lens ≤ Tensor.largestBuffer)
      out (a.reading.gather place picks.reading) := by
  have hbelow := resolveAxis_lt hplace
  have hout : out.lens = axes.lens.take place ++ axes'.lens ++ axes.lens.drop (place + 1) := by
    obtain ⟨layout, rfl, hout, -⟩ := hdense
    exact hout
  have hresolve : (liftM (resolveAxis op axis a.shape.rank) : Outcome EvalError Nat) =
      .ok place := by
    rw [hshape, Shape.rank_strided]
    exact Outcome.liftShape_eq_ok_iff.2 hplace
  have hfetch : (liftM (fetch a.lens place) : Outcome EvalError Nat) =
      .ok (axes.lens.getD place 0) := by
    rw [Outcome.lift_eq_ok_iff, fetch_eq_ok_iff, lens_of_shape hshape]
    simp [hbelow]
  have hpicks {index : List Nat} (hrange : InRange index out.lens) :
      pickedPosition place (axes.lens.getD place 0) picks index =
        a.reading.picked place picks.reading index :=
    pickedPosition_eq hvalid' hshape hshape' hbelow (hout ▸ hrange)
  have hnone : lastOutside? place (axes.lens.getD place 0) picks out.lens = .ok none ↔
      ∀ index, InRange index out.lens → a.reading.Picks place picks.reading index := by
    rw [lastOutside?_eq_none_iff]
    refine forall_congr' fun index => forall_congr' fun hrange => ?_
    rw [hpicks hrange, Reading.Picks, lens_reading, lens_of_shape hshape]
  unfold gatherValue
  rw [hresolve, ok_bind, hfetch, ok_bind]
  refine Computes.of_needed (fun t hrun => ?_) fun hpicked => ?_
  · obtain ⟨value, -, hrun⟩ := bind_eq_ok_iff.1 hrun
    obtain ⟨last?, hlast, hrun⟩ := bind_eq_ok_iff.1 hrun
    cases last? with
    | some position => cases hrun
    | none => exact hnone.1 (Outcome.lift_eq_ok_iff.1 hlast)
  · rw [Outcome.lift_eq_ok_iff.2 (hnone.2 hpicked)]
    simp only [ok_bind, bind_pure]
    refine Computes.lift (hout ▸ computes_tabulate hdense fun index hrange => ?_)
    obtain ⟨position, hposition, hin⟩ := hpicked index (hout ▸ hrange)
    rw [lens_reading, lens_of_shape hshape] at hin
    have hinside : position.toNat < axes.lens.getD place 0 := by
      simp only [outside, Bool.or_eq_false_iff, decide_eq_false_iff_not] at hin
      omega
    have hsource := (inRange_gathered (by simpa using hbelow) hrange).2 _ hinside
    rw [hpicks (hout ▸ hrange), Reading.gather, hposition, ok_bind, hin, hshape',
      Shape.rank_strided, ← length_lens, lens_reading,
      lens_of_shape hshape']
    exact hvalid.get_eq hshape hsource

end Evaluation

/-! ## Joining -/

/-- The parts one after another along an axis. -/
def Reading.join (axis : Nat) : List (Reading α) → List Nat → α
  | [], _ => Scalar.zero
  | r :: rest, index =>
    if index.getD axis 0 < r.lens.getD axis 0 then r.value index
    else join axis rest (index.set axis (index.getD axis 0 - r.lens.getD axis 0))

theorem AgreeOutside.set {place len : Nat} {other : List Nat}
    (hagree : AgreeOutside place lens other) : AgreeOutside place lens (other.set place len) := by
  refine ⟨by simpa using hagree.1, fun k hk => ?_⟩
  rw [getElem?_set_ne (Ne.symm hk), hagree.2 k hk]

namespace Evaluation

variable {place : Nat} {parts : List (Tensor α)}

/-- Along the joined axis the part is found that the index falls into. -/
theorem get_located (hplace : place < lens.length)
    (hparts : ∀ part ∈ parts, part.Valid ∧ ∃ elem axes, part.shape = .strided elem axes ∧
      AgreeOutside place axes.lens lens) (hlength : index.length = lens.length)
    (hothers : ∀ k len, k ≠ place → lens[k]? = some len → index.getD k 0 < len) :
    (do match ← locate place parts index with
      | some (part, inner) => part.get inner
      | none => return Scalar.zero) =
      Except.ok (Reading.join place (parts.map Tensor.reading) index) := by
  induction parts generalizing index with
  | nil => rfl
  | cons part parts ih =>
    rw [forall_mem_cons] at hparts
    obtain ⟨⟨hvalid, elem, axes, hshape, hagree⟩, hrest⟩ := hparts
    rw [locate, lens_of_shape hshape, fetch_of_lt (hagree.1 ▸ hplace), ok_bind,
      fetch_of_lt (hlength ▸ hplace), ok_bind, map_cons, Reading.join, lens_reading,
      lens_of_shape hshape]
    split_ifs with hbelow
    · refine hvalid.get_eq hshape (inRange_iff_getElem.2 ⟨hlength.trans hagree.1.symm, ?_⟩)
      intro k len hlen
      by_cases hk : k = place
      · subst hk
        simpa [getD_eq_getElem?_getD, hlen] using hbelow
      · exact hothers k len hk (hagree.2 k hk ▸ hlen)
    · refine ih hrest (by simpa using hlength) fun k len hk hlen => ?_
      have hkeep := hothers k len hk hlen
      simpa [getD_eq_getElem?_getD, getElem?_set_ne (Ne.symm hk)] using hkeep

theorem computes_join (hplace : place < lens.length)
    (hparts : ∀ part ∈ parts, part.Valid ∧ ∃ elem axes, part.shape = .strided elem axes ∧
      AgreeOutside place axes.lens lens) (hdense : out.IsDense elem lens) :
    Computes (joinValue place out parts) (volume lens ≤ Tensor.largestBuffer) out
      (Reading.join place (parts.map Tensor.reading)) := by
  refine computes_tabulate hdense fun index hrange => ?_
  obtain ⟨hlength, hentries⟩ := inRange_iff_getElem.1 hrange
  exact get_located hplace hparts hlength fun k len _ hlen => hentries k len hlen

end Evaluation

/-! ## Views and dense copies -/

theorem computes_contiguous {a : Tensor α} (hvalid : a.Valid)
    (hshape : a.shape = .strided elem axes)
    (hstandard : Layout.standard axes.lens = .ok (Layout.rowMajor axes.lens)) :
    Computes a.contiguous (axes.isStandard = .ok true ∨ volume axes.lens ≤ largestListing)
      (.strided elem (Layout.rowMajor axes.lens)) a.reading.value := by
  have hlens := lens_of_shape hshape
  have heq := eq_strided_of_shape hshape
  rw [heq] at hvalid
  refine ⟨fun hrun => ?_, ?_⟩
  · rw [heq] at hrun
    obtain ⟨data, rfl, -, hvalid', hentries⟩ := hvalid.contiguous_eq hrun
    refine ⟨rfl, ⟨_, _, rfl⟩, hvalid', fun index hrange => ?_⟩
    rw [Shape.lens_strided, lens_rowMajor] at hrange
    rw [hentries index hrange, value_reading (hlens ▸ hrange), ← heq]
  · rw [heq]
    exact hvalid.exists_contiguous_iff hstandard

/-- Reshaping keeps the row-major positions. -/
theorem computes_reshape {a : Tensor α} (hvalid : a.Valid) (hshape : a.shape = .strided elem axes)
    (hstandard : axes.isStandard = .ok true) (hvolume : volume lens = volume axes.lens) :
    Computes
      (do (← a.contiguous).view (.strided elem' (Layout.rowMajor lens)) : Outcome ε (Tensor α))
      True (.strided elem' (Layout.rowMajor lens))
      fun index => a.reading.value (unflatten axes.lens ((Layout.rowMajor lens).position index)) := by
  obtain ⟨heq, -⟩ := standard_eq_ok_iff.1 (isStandard_eq_ok_true_iff.1 hstandard)
  have hdense : a.contiguous = .ok a := by
    rw [Tensor.contiguous, hshape, Shape.isStandard, hstandard]
    rfl
  rw [Outcome.lift_eq_ok_iff.2 hdense, ok_bind]
  refine (computes_view hvalid hshape ?_).lift
  have htraces := traces_reshape hvolume
  rwa [← heq] at htraces

/-- A slice starts at a position of the buffer, which must be a number of 64 bits. -/
theorem Evaluation.computes_slice {a : Tensor α} (hvalid : a.Valid) {op : String} {axes : List Nat}
    {starts ends : List Int} {ranges : List AxisRange} (hnodup : axes.Nodup)
    (hshape : a.shape = .strided elem layout)
    (hranges : sliceRanges op (.strided elem layout) axes starts ends = .ok ranges) :
    Computes (sliceValue op axes starts ends (.strided elem (cutAxes ranges layout)) a)
      (sliceStart layout ranges < Word.limit ∧ True) (.strided elem (cutAxes ranges layout))
      fun index => a.reading.value (sliceSource ranges index) := by
  obtain ⟨rfl, hinside⟩ := sliceRanges_eq_ok hranges
  have hbelow : ∀ range ∈ ranges, range.axis < layout.length :=
    fun range hmem => by simpa using (hinside range hmem).below
  have hlens := lens_of_shape hshape
  have heq := eq_strided_of_shape hshape
  have htraces := traces_slice hnodup hinside
  unfold sliceValue
  rw [hshape, Outcome.liftShape_eq_ok_iff.2 hranges, ok_bind]
  refine Computes.of_needed (fun t hrun => ?_) fun hfits => ?_
  · obtain ⟨offset, hoffset, -⟩ := bind_eq_ok_iff.1 hrun
    obtain ⟨rfl, hfits⟩ := (sliceOffset_eq_ok_iff hbelow).1 (Outcome.lift_eq_ok_iff.1 hoffset)
    exact hfits
  · rw [Outcome.lift_eq_ok_iff.2 ((sliceOffset_eq_ok_iff hbelow).2 ⟨rfl, hfits⟩), ok_bind]
    rw [heq] at hvalid
    obtain ⟨t, hrun, hout, hvalid', hentries⟩ := hvalid.exists_offsetView htraces
    rw [← heq] at hrun hentries
    refine (Computes.of_exists ⟨t, hrun, hout, ⟨_, _, rfl⟩, hvalid', fun index hrange => ?_⟩).lift
    rw [hentries index hrange, value_reading (hlens ▸ (htraces index hrange).1)]

end TensorGraph
