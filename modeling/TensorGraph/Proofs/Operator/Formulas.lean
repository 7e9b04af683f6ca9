import TensorGraph.Proofs.Operator.Values

/-!
# A formula for every operator

Evaluation gives the tensor of the inferred shape that a formula over the readings of the inputs
describes, exactly when there is room for it.
-/

namespace TensorGraph

open Inference List

namespace Tensor

variable {α : Type} {ts : List (Tensor α)}

mutual

theorem isDynamic_shape : (t : Tensor α) → t.shape.isDynamic = false
  | .strided _ _ _ => rfl
  | .tuple parts => anyDynamic_shapes parts

theorem anyDynamic_shapes : (ts : List (Tensor α)) → Shape.anyDynamic (shapes ts) = false
  | [] => rfl
  | t :: rest => by
      rw [shapes, Shape.anyDynamic, isDynamic_shape t, anyDynamic_shapes rest]
      rfl

end

theorem exists_of_shapes_eq_one {s : Shape} (hshapes : shapes ts = [s]) :
    ∃ a, ts = [a] ∧ a.shape = s := by
  rcases ts with _ | ⟨a, _ | ⟨b, rest⟩⟩ <;> simp only [shapes] at hshapes <;> cases hshapes
  exact ⟨a, rfl, rfl⟩

theorem exists_of_shapes_eq_two {s t : Shape}
    (hshapes : shapes ts = [s, t]) : ∃ a b, ts = [a, b] ∧ a.shape = s ∧ b.shape = t := by
  rcases ts with _ | ⟨a, _ | ⟨b, _ | ⟨c, rest⟩⟩⟩ <;> simp only [shapes] at hshapes <;> cases hshapes
  exact ⟨a, b, rfl, rfl, rfl⟩

theorem shapes_eq_map (ts : List (Tensor α)) : shapes ts = ts.map shape := by
  induction ts with
  | nil => rfl
  | cons t ts ih => rw [shapes, ih, map_cons]

end Tensor

/-! ## Inference on the shapes of tensors -/

namespace Inference

variable {α : Type} {op : String} {inputs : List (Tensor α)} {out : Shape}

theorem unaryShape_static (hinfer : unaryShape op (Tensor.shapes inputs) = .ok out) :
    ∃ a elem axes, inputs = [a] ∧ a.shape = .strided elem axes ∧ out.IsDense elem axes.lens := by
  obtain ⟨s, hs, ⟨hdynamic, -⟩ | ⟨elem, axes, rfl, hdense⟩⟩ := unaryShape_eq_ok hinfer
  · obtain ⟨a, rfl, rfl⟩ := Tensor.exists_of_shapes_eq_one hs
    cases a.isDynamic_shape.symm.trans hdynamic
  · obtain ⟨a, rfl, hshape⟩ := Tensor.exists_of_shapes_eq_one hs
    exact ⟨a, elem, axes, rfl, hshape, hdense⟩

theorem elementwiseShape_static {shapes : List Shape} (hstatic : ∀ s ∈ shapes, s.isDynamic = false)
    (hinfer : elementwiseShape op shapes = .ok out) :
    ∃ first rest, shapes = first :: rest ∧
      (∀ s ∈ shapes, ∃ axes, s = .strided first.elem axes ∧ axes.lens = first.lens) ∧
      out.IsDense first.elem first.lens := by
  obtain ⟨first, rest, hshapes, hcases⟩ := elementwiseShape_eq_ok hinfer
  rcases hcases with ⟨hdynamic, -⟩ | ⟨hsame, axes, rfl, hpermuted⟩
  · obtain ⟨s, hmem, hself⟩ := any_eq_true.1 hdynamic
    cases (hstatic s hmem).symm.trans hself
  · exact ⟨first, rest, hshapes, hsame, axes, rfl, Layout.permuted_eq_ok hpermuted⟩

theorem binaryShape_static (hinfer : binaryShape op (Tensor.shapes inputs) = .ok out) :
    ∃ a b elem xs ys, inputs = [a, b] ∧ a.shape = .strided elem xs ∧ b.shape = .strided elem ys ∧
      ys.lens = xs.lens ∧ out.IsDense elem xs.lens := by
  obtain ⟨s, t, hs, hrun⟩ := binaryShape_eq_ok hinfer
  obtain ⟨a, b, rfl, rfl, rfl⟩ := Tensor.exists_of_shapes_eq_two hs
  obtain ⟨first, rest, heq, hsame, hdense⟩ :=
    elementwiseShape_static (by simp [Tensor.isDynamic_shape]) hrun
  cases heq
  obtain ⟨xs, hxs, hxlens⟩ := hsame a.shape (by simp)
  obtain ⟨ys, hys, hylens⟩ := hsame b.shape (by simp)
  exact ⟨a, b, _, xs, ys, rfl, hxs, hys, hylens.trans hxlens.symm, hxlens ▸ hdense⟩

theorem transposeShape_static {order : List Nat}
    (hinfer : transposeShape op order (Tensor.shapes inputs) = .ok out) :
    ∃ a elem axes moved, inputs = [a] ∧ a.shape = .strided elem axes ∧
      Permutation.isPermutation order = true ∧ order.length = axes.length ∧
      Permutation.reorder axes order = .ok moved ∧ out = .strided elem moved := by
  obtain ⟨s, hs, -⟩ := transposeShape_eq_ok hinfer
  obtain ⟨a, rfl, rfl⟩ := Tensor.exists_of_shapes_eq_one hs
  obtain ⟨elem, axes, moved, hsplit⟩ := transposeShape_strided a.isDynamic_shape hinfer
  exact ⟨a, elem, axes, moved, rfl, hsplit⟩

end Inference

variable {α : Type} [Scalar α] {parts : List (Tensor α)}

/-- A shape with the element type and the lengths of a reading. -/
def Reading.shape (r : Reading α) : Shape := .strided r.elem (Layout.rowMajor r.lens)

omit [Scalar α] in
/-- Parts that inference accepts agree outside the axis with the lengths that it finds, and fill
them along the axis. -/
theorem Inference.parts_of_joinLens {op : String} {axis : Int} {place : Nat} {lens : List Nat}
    (hjoin : joinLens op (Tensor.shapes parts) axis = .ok (place, lens)) :
    place < lens.length ∧
      (∀ part ∈ parts, ∃ elem axes, part.shape = .strided elem axes ∧
        AgreeOutside place axes.lens lens) ∧
      lens.getD place 0 = Word.total (parts.map (·.lens.getD place 0)) := by
  obtain ⟨first, rest, hs, hstrided, hplace, hagree, -, rfl⟩ := joinLens_eq_ok_iff.1 hjoin
  obtain ⟨elem', firstAxes, rfl⟩ := hstrided first (hs ▸ mem_cons_self)
  have hbelow : place < firstAxes.lens.length := by simpa using resolveAxis_lt hplace
  rw [Tensor.shapes_eq_map] at hstrided hagree ⊢
  refine ⟨by simpa using hbelow, fun part hmem => ?_, ?_⟩
  · obtain ⟨elem, axes, heq⟩ := hstrided _ (mem_map_of_mem hmem)
    have hpart := hagree _ (mem_map_of_mem hmem)
    rw [heq] at hpart
    exact ⟨elem, axes, heq, hpart.set⟩
  · rw [getD_eq_getElem?_getD, Shape.lens_strided, getElem?_set_self hbelow, Option.getD_some,
      map_map]
    rfl

/-- Parts that inference accepts are joined where and in the lengths that it finds. -/
theorem Evaluation.computes_join_of_joinLens {op : String} {axis : Int} {place : Nat} {lens : List Nat}
    (hvalid : ∀ part ∈ parts, part.Valid)
    (hjoin : joinLens op (Tensor.shapes parts) axis = .ok (place, lens)) {out : Shape}
    {elem : ElementType} (hdense : out.IsDense elem lens) :
    Computes (Evaluation.joinValue place out parts) (volume lens ≤ Tensor.largestBuffer) out
      (Reading.join place (parts.map Tensor.reading)) := by
  obtain ⟨hplace, hparts, -⟩ := parts_of_joinLens hjoin
  exact Evaluation.computes_join hplace (fun part hmem => ⟨hvalid part hmem, hparts part hmem⟩) hdense

namespace Operator

/-- A value is computed in the shape that is inferred from the inputs. -/
theorem apply_eq_ok_iff {op : Operator α} {inputs : List (Tensor α)} {modules : List (Callable α)}
    {t : Tensor α} :
    op.apply inputs modules = .ok t ↔
      ∃ out, op.infer (Tensor.shapes inputs) (modules.map Callable.signature) = .ok out ∧
        op.evaluate out inputs modules = .ok t := by
  rw [apply, bind_eq_ok_iff]
  simp only [Outcome.liftShape_eq_ok_iff]

/-- Whether the operator has a formula. -/
def hasFormula : Operator α → Bool
  | .contiguous | .unary _ | .binary _ | .reduceSum _ | .dot | .transpose _ | .reshape _ => true
  | .squeeze _ | .unsqueeze _ | .slice .. | .broadcast _ | .gather _ | .concat _ => true
  | _ => false

/-- The entry of the result at an index. -/
def formula (op : Operator α) (lens : List Nat) (inputs : List (Reading α)) (index : List Nat) : α :=
  match op, inputs with
  | .contiguous, [r] => r.value index
  | .unary fn, [r] => r.unary fn index
  | .binary fn, [r, s] => r.binary fn s index
  | .reduceSum axes, [r] => r.reduceSum axes index
  | .dot, [r, s] => r.dot s index
  | .transpose order, [r] => r.value (unpermute order index)
  | .reshape _, [r] => r.value (unflatten r.lens ((Layout.rowMajor lens).position index))
  | .squeeze axes, [r] =>
    r.value (restoreAt (squeezedAxes r.shape axes) (List.range r.lens.length) index)
  | .unsqueeze axes, [r] =>
    r.value (dropAt axes (List.range (r.lens.length + axes.length)) index)
  | .slice axes starts ends, [r] =>
    match sliceRanges op.name r.shape axes starts ends with
    | .ok ranges => r.value (sliceSource ranges index)
    | .error _ => Scalar.zero
  | .broadcast _, [r] => r.value (broadcastSource r.lens index)
  | .gather axis, [r, picks] =>
    match resolveAxis op.name axis r.lens.length with
    | .ok place => r.gather place picks index
    | .error _ => Scalar.zero
  | .concat axis, parts =>
    match resolveAxis op.name axis lens.length with
    | .ok place => Reading.join place parts index
    | .error _ => Scalar.zero
  | _, _ => Scalar.zero

/-- When there is room for the result. -/
def Fits (op : Operator α) (lens : List Nat) (inputs : List (Tensor α)) : Prop :=
  match op, inputs with
  | .contiguous, [a] => a.shape.isStandard = .ok true ∨ volume lens ≤ largestListing
  | .dot, _ => (∃ n, Word.product lens = .ok n) ∧ volume lens ≤ Tensor.largestBuffer
  | .gather axis, [a, picks] =>
    (∀ place, resolveAxis op.name axis a.lens.length = .ok place →
      ∀ index, InRange index lens → a.reading.Picks place picks.reading index) ∧
      volume lens ≤ Tensor.largestBuffer
  | .slice axes starts ends, [a] =>
    ∀ ranges, sliceRanges op.name a.shape axes starts ends = .ok ranges →
      sliceStart a.shape.axes ranges < Word.limit
  | .unary _, _ | .binary _, _ | .reduceSum _, _ | .concat _, _ =>
    volume lens ≤ Tensor.largestBuffer
  | _, _ => True

/-- A slice cuts no axis twice, and an embedded value has a buffer that is long enough. -/
def Proper : Operator α → Prop
  | .slice axes _ _ => axes.Nodup
  | .literal value => value.Valid
  | _ => True

instance : DecidablePred (@Proper α) := fun op =>
  decidable_of_iff ((match op with
    | .slice axes _ _ => decide axes.Nodup
    | .literal value => decide value.Valid
    | _ => true) = true) (by cases op <;> simp [Proper])

/-- Evaluation in a shape gives what the formula says, exactly when there is room for it. -/
def FollowsFormula (op : Operator α) (inputs : List (Tensor α)) (modules : List (Callable α))
    (out : Shape) : Prop :=
  Computes (op.evaluate out inputs modules) (op.Fits out.lens inputs) out
    (op.formula out.lens (inputs.map Tensor.reading))

section Movement

variable {a : Tensor α} {elem : ElementType} {layout : Layout}
  (hshape : a.shape = .strided elem layout)

include hshape

theorem formula_reshape (dims : List Int) (lens : List Nat) :
    (reshape dims).formula lens [a.reading] = fun index =>
      a.reading.value (unflatten layout.lens ((Layout.rowMajor lens).position index)) := by
  funext index
  rw [formula, Tensor.lens_reading, Tensor.lens_of_shape hshape]

theorem formula_squeeze (axes lens : List Nat) :
    (squeeze axes).formula lens [a.reading] = fun index =>
      a.reading.value (restoreAt (squeezedAxes (.strided elem layout) axes)
        (List.range layout.length) index) := by
  have hremoved : squeezedAxes a.reading.shape axes =
      squeezedAxes (.strided elem layout) axes := by
    unfold squeezedAxes
    rw [Reading.shape, Shape.lens_strided, Layout.lens_rowMajor, Tensor.lens_reading,
      Tensor.lens_of_shape hshape, Shape.lens_strided]
  funext index
  rw [formula, hremoved, Tensor.lens_reading, Tensor.lens_of_shape hshape, Layout.length_lens]

theorem formula_unsqueeze (axes lens : List Nat) :
    (unsqueeze axes).formula lens [a.reading] = fun index =>
      a.reading.value (dropAt axes (List.range (layout.length + axes.length)) index) := by
  funext index
  rw [formula, Tensor.lens_reading, Tensor.lens_of_shape hshape, Layout.length_lens]

end Movement

/-- What an operator computes in the inferred shape follows its formula. -/
def Follows (op : Operator α) : Prop :=
  ∀ ⦃inputs : List (Tensor α)⦄ ⦃modules signatures out⦄, (∀ a ∈ inputs, a.Valid) →
    op.infer (Tensor.shapes inputs) signatures = .ok out → op.FollowsFormula inputs modules out

theorem contiguous_follows : (contiguous : Operator α).Follows := by
  intro inputs modules signatures out hvalid hinfer
  obtain ⟨s, hs, htuple, hrun⟩ := contiguousShape_iff.1 hinfer
  obtain ⟨a, rfl, rfl⟩ := Tensor.exists_of_shapes_eq_one hs
  cases a with
  | tuple parts => cases htuple
  | strided elem axes data =>
    obtain ⟨rfl, hstandard⟩ := Shape.standard_eq_ok hrun
    have hcomputes := computes_contiguous (hvalid _ mem_cons_self) rfl hstandard
    rw [FollowsFormula, Shape.lens_strided, Layout.lens_rowMajor]
    exact hcomputes.lift

theorem unary_follows (fn : UnaryFn) : (unary fn : Operator α).Follows := by
  intro inputs modules signatures out hvalid hinfer
  obtain ⟨a, elem, axes, rfl, hshape, hdense⟩ := unaryShape_static hinfer
  have hcomputes := Evaluation.computes_unary fn (hvalid a mem_cons_self) hshape hdense
  rw [FollowsFormula, hdense.lens_eq]
  exact hcomputes.lift

theorem binary_follows (fn : BinaryFn) : (binary fn : Operator α).Follows := by
  intro inputs modules signatures out hvalid hinfer
  obtain ⟨a, b, elem, xs, ys, rfl, hxs, hys, hlens, hdense⟩ := binaryShape_static hinfer
  have hcomputes := Evaluation.computes_binary fn (hvalid a (by simp)) hxs (hvalid b (by simp)) hys
    hlens hdense
  rw [FollowsFormula, hdense.lens_eq]
  exact hcomputes.lift

theorem reduceSum_follows (axes : List Nat) : (reduceSum axes : Operator α).Follows := by
  intro inputs modules signatures out hvalid hinfer
  obtain ⟨elem, layout, hs, hbelow, hrun⟩ := reduceSumShape_iff.1 hinfer
  obtain ⟨a, rfl, hshape⟩ := Tensor.exists_of_shapes_eq_one hs
  have hdense := Shape.isDense_of_standard hrun
  have hcomputes :=
    Evaluation.computes_reduceSum (hvalid a mem_cons_self) hshape hbelow hdense
  rw [FollowsFormula, hdense.lens_eq]
  exact hcomputes.lift

theorem dot_follows : (dot : Operator α).Follows := by
  intro inputs modules signatures out hvalid hinfer
  obtain ⟨elem, xs, ys, batch, rows, inner, columns, hs, hxlens, hylens, hrun⟩ :=
    dotShape_iff.1 hinfer
  obtain ⟨a, b, rfl, hxs, hys⟩ := Tensor.exists_of_shapes_eq_two hs
  have hdense := Shape.isDense_of_standard hrun
  have hcomputes := Evaluation.computes_dot (hvalid a (by simp)) hxs hxlens (hvalid b (by simp)) hys
    hylens hdense
  rw [FollowsFormula, hdense.lens_eq]
  exact hcomputes.lift

theorem transpose_follows (order : List Nat) : (transpose order : Operator α).Follows := by
  intro inputs modules signatures out hvalid hinfer
  obtain ⟨a, elem, axes, moved, rfl, hshape, hperm, hlength, hmoved, rfl⟩ :=
    transposeShape_static hinfer
  exact (computes_view (hvalid a mem_cons_self) hshape
    (traces_transpose hperm hlength hmoved)).lift

theorem reshape_follows (dims : List Int) : (reshape dims : Operator α).Follows := by
  intro inputs modules signatures out hvalid hinfer
  obtain ⟨elem, axes, lens, hs, hstandard, hvolume, hrun⟩ := reshapeShape_eq_ok hinfer
  obtain ⟨a, rfl, hshape⟩ := Tensor.exists_of_shapes_eq_one hs
  obtain ⟨rfl, -⟩ := Shape.standard_eq_ok hrun
  rw [FollowsFormula, Shape.lens_strided, Layout.lens_rowMajor, map_singleton,
    formula_reshape hshape]
  exact computes_reshape (hvalid a mem_cons_self) hshape hstandard hvolume

theorem squeeze_follows (axes : List Nat) : (squeeze axes : Operator α).Follows := by
  intro inputs modules signatures out hvalid hinfer
  obtain ⟨elem, layout, hs, hunits, rfl⟩ := squeezeShape_iff.1 hinfer
  obtain ⟨a, rfl, hshape⟩ := Tensor.exists_of_shapes_eq_one hs
  rw [FollowsFormula, map_singleton, formula_squeeze hshape]
  exact (computes_view (hvalid a mem_cons_self) hshape (traces_squeeze hunits)).lift

theorem unsqueeze_follows (axes : List Nat) : (unsqueeze axes : Operator α).Follows := by
  intro inputs modules signatures out hvalid hinfer
  obtain ⟨elem, layout, widened, hs, hbelow, hnodup, hrun, rfl⟩ :=
    unsqueezeShape_eq_ok hinfer
  obtain ⟨a, rfl, hshape⟩ := Tensor.exists_of_shapes_eq_one hs
  rw [FollowsFormula, map_singleton, formula_unsqueeze hshape]
  exact (computes_view (hvalid a mem_cons_self) hshape
    (traces_unsqueeze hbelow hnodup hrun)).lift

theorem broadcast_follows (lens : List Nat) : (broadcast lens : Operator α).Follows := by
  intro inputs modules signatures out hvalid hinfer
  obtain ⟨elem, layout, inner, hs, hrank, hinner, rfl⟩ := broadcastShape_iff.1 hinfer
  obtain ⟨a, rfl, hshape⟩ := Tensor.exists_of_shapes_eq_one hs
  have hsource (lens' : List Nat) : (broadcast lens).formula lens' [a.reading] = fun index =>
      a.reading.value (broadcastSource layout.lens index) := by
    funext index
    rw [formula, Tensor.lens_reading, Tensor.lens_of_shape hshape]
  rw [FollowsFormula, map_singleton, hsource]
  exact (computes_view (hvalid a mem_cons_self) hshape (traces_broadcast hrank hinner)).lift

theorem slice_follows {axes : List Nat} {starts ends : List Int} (hnodup : axes.Nodup) :
    (slice axes starts ends : Operator α).Follows := by
  intro inputs modules signatures out hvalid hinfer
  obtain ⟨elem, layout, ranges, hs, hranges, rfl⟩ := sliceShape_iff.1 hinfer
  obtain ⟨a, rfl, hshape⟩ := Tensor.exists_of_shapes_eq_one hs
  have hsource (lens : List Nat) : (slice axes starts ends).formula lens [a.reading] = fun index =>
      a.reading.value (sliceSource ranges index) := by
    funext index
    have hsame : sliceRanges (slice axes starts ends : Operator α).name a.reading.shape
        axes starts ends = .ok ranges := by
      refine sliceRanges_congr ?_ hranges
      rw [Reading.shape, Shape.lens_strided, Layout.lens_rowMajor, Tensor.lens_reading,
        Tensor.lens_of_shape hshape, Shape.lens_strided]
    rw [formula, hsame]
  have hfits (lens : List Nat) : (slice axes starts ends).Fits lens [a] ↔
      sliceStart layout ranges < Word.limit ∧ True := by
    rw [Fits, hshape, Shape.axes_strided, hranges, and_true]
    exact ⟨fun hall => hall ranges rfl, fun hlt _ heq => Except.ok.inj heq ▸ hlt⟩
  have hcomputes := Evaluation.computes_slice (hvalid a mem_cons_self) hnodup hshape hranges
  rwa [FollowsFormula, map_singleton, hsource, hfits]

theorem gather_follows (axis : Int) : (gather axis : Operator α).Follows := by
  intro inputs modules signatures out hvalid hinfer
  obtain ⟨elem, xs, elem', ys, place, hs, hplace, hrun⟩ := gatherShape_iff.1 hinfer
  obtain ⟨a, picks, rfl, hxs, hys⟩ := Tensor.exists_of_shapes_eq_two hs
  have hdense := Shape.isDense_of_standard hrun
  have hresolve : resolveAxis (gather axis : Operator α).name axis a.lens.length =
      .ok place := by
    rw [Tensor.lens_of_shape hxs, Layout.length_lens, hplace]
  have hsource (lens : List Nat) : (gather axis).formula lens [a.reading, picks.reading] =
      a.reading.gather place picks.reading := by
    funext index
    rw [formula, Tensor.lens_reading, hresolve]
  have hfits (lens : List Nat) : (gather axis).Fits lens [a, picks] ↔
      (∀ index, InRange index lens → a.reading.Picks place picks.reading index) ∧
        volume lens ≤ Tensor.largestBuffer := by
    rw [Fits, hresolve]
    exact and_congr_left fun _ => ⟨fun hall => hall place rfl, fun hall _ heq =>
      Except.ok.inj heq ▸ hall⟩
  have hcomputes := Evaluation.computes_gather (hvalid a (by simp)) (hvalid picks (by simp)) hxs hys
    hplace hdense
  rwa [FollowsFormula, map_cons, map_singleton, hsource, hfits]

section Join

variable {inputs : List (Tensor α)} {modules : List (Callable α)} {out : Shape}
  {signatures : List Signature} {axis : Int}
  (hinfer : (concat axis : Operator α).infer (Tensor.shapes inputs) signatures = .ok out)

include hinfer

/-- A join puts the parts together where inference finds, in the lengths that it finds. -/
theorem concat_evaluates :
    ∃ first rest place lens, Tensor.shapes inputs = first :: rest ∧ (∀ s ∈ rest, s.elem = first.elem) ∧
      joinLens (concat axis : Operator α).name (Tensor.shapes inputs) axis = .ok (place, lens) ∧
      out.IsDense first.elem lens ∧
      resolveAxis (concat axis : Operator α).name axis out.lens.length = .ok place ∧
      ∀ modules, (concat axis).evaluate out inputs modules =
        liftM (Evaluation.joinValue place out inputs) := by
  obtain ⟨first, rest, place, lens, hs, helem, hjoin, hdense⟩ := concatShape_eq_ok hinfer
  obtain ⟨_, _, hparts, hstrided, hplace, -, -, hlens⟩ := joinLens_eq_ok_iff.1 hjoin
  cases hs.symm.trans hparts
  obtain ⟨_, axes, rfl⟩ := hstrided first (hs ▸ mem_cons_self)
  have hresolve : resolveAxis (concat axis : Operator α).name axis out.lens.length =
      .ok place := by
    rw [hdense.lens_eq, hlens, length_set, Shape.lens_strided, Layout.length_lens]
    exact hplace
  have hrank : out.rank = out.lens.length := by
    obtain ⟨axes, rfl, -⟩ := hdense
    exact (Layout.length_lens axes).symm
  refine ⟨_, rest, place, lens, hs, helem, hjoin, hdense, hresolve, fun modules => ?_⟩
  change Evaluation.concatValue _ axis out inputs = _
  unfold Evaluation.concatValue
  rw [hrank]
  exact congrArg (· >>= _) (Outcome.liftShape_eq_ok_iff.2 hresolve)

/-- What a join computes. -/
theorem concat_computes (hvalid : ∀ a ∈ inputs, a.Valid) :
    ∃ place lens, joinLens (concat axis : Operator α).name (Tensor.shapes inputs) axis =
        .ok (place, lens) ∧ out.IsDense out.elem lens ∧
      resolveAxis (concat axis : Operator α).name axis out.lens.length = .ok place ∧
      Computes ((concat axis).evaluate out inputs modules)
        (volume lens ≤ Tensor.largestBuffer) out
        (Reading.join place (inputs.map Tensor.reading)) := by
  obtain ⟨first, _, place, lens, -, -, hjoin, hdense, hresolve, hevaluate⟩ := concat_evaluates hinfer
  have helem : first.elem = out.elem := by
    obtain ⟨axes, rfl, -⟩ := hdense
    rfl
  refine ⟨place, lens, hjoin, helem ▸ hdense, hresolve, ?_⟩
  rw [hevaluate]
  exact (Evaluation.computes_join_of_joinLens hvalid hjoin hdense).lift

end Join

theorem concat_follows (axis : Int) : (concat axis : Operator α).Follows := by
  intro inputs modules signatures out hvalid hinfer
  obtain ⟨place, lens, -, hdense, hresolve, hcomputes⟩ := concat_computes hinfer hvalid
  have hsource : (concat axis).formula out.lens (inputs.map Tensor.reading) =
      Reading.join place (inputs.map Tensor.reading) := by
    funext index
    rw [formula, hresolve]
  rw [FollowsFormula, hsource, hdense.lens_eq]
  exact hcomputes

/-- Every operator with a formula follows it in the inferred shape. -/
theorem followsFormula_of_infer {op : Operator α} {inputs : List (Tensor α)}
    (modules : List (Callable α)) {signatures : List Signature} {out : Shape}
    (hformula : op.hasFormula = true) (hproper : op.Proper) (hvalid : ∀ a ∈ inputs, a.Valid)
    (hinfer : op.infer (Tensor.shapes inputs) signatures = .ok out) :
    op.FollowsFormula inputs modules out := by
  cases op with
  | contiguous => exact contiguous_follows hvalid hinfer
  | unary fn => exact unary_follows fn hvalid hinfer
  | binary fn => exact binary_follows fn hvalid hinfer
  | reduceSum axes => exact reduceSum_follows axes hvalid hinfer
  | dot => exact dot_follows hvalid hinfer
  | transpose order => exact transpose_follows order hvalid hinfer
  | reshape dims => exact reshape_follows dims hvalid hinfer
  | squeeze axes => exact squeeze_follows axes hvalid hinfer
  | unsqueeze axes => exact unsqueeze_follows axes hvalid hinfer
  | slice axes starts ends => exact slice_follows hproper hvalid hinfer
  | broadcast lens => exact broadcast_follows lens hvalid hinfer
  | gather axis => exact gather_follows axis hvalid hinfer
  | concat axis => exact concat_follows axis hvalid hinfer
  | parameter | literal | returns | identity | pointwise | fusedConcat | scan | tupleElem =>
    cases hformula

end Operator

end TensorGraph
