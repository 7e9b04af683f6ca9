import TensorGraph.Proofs.Layout.Dense

/-!
# What inference must have found

One inversion lemma for each operator: if inference gives a shape, then these are the inputs, and
this is the shape.
-/

namespace TensorGraph

open List

/-- A strided shape with these lengths whose layout is dense. -/
def Shape.IsDense (shape : Shape) (elem : ElementType) (lens : List Nat) : Prop :=
  ∃ axes, shape = .strided elem axes ∧ axes.lens = lens ∧ axes.Dense

namespace Shape

variable {elem : ElementType} {lens : List Nat} {out : Shape}

@[simp]
theorem elem_strided (elem : ElementType) (axes : Layout) : (strided elem axes).elem = elem := rfl

@[simp]
theorem axes_strided (elem : ElementType) (axes : Layout) : (strided elem axes).axes = axes := rfl

@[simp]
theorem lens_strided (elem : ElementType) (axes : Layout) :
    (strided elem axes).lens = axes.lens := rfl

@[simp]
theorem rank_strided (elem : ElementType) (axes : Layout) :
    (strided elem axes).rank = axes.length := rfl

theorem IsDense.lens_eq {shape : Shape} (hdense : shape.IsDense elem lens) : shape.lens = lens := by
  obtain ⟨axes, rfl, hlens, -⟩ := hdense
  exact hlens

theorem standard_eq_ok (hrun : standard elem lens = .ok out) :
    out = .strided elem (Layout.rowMajor lens) ∧
      Layout.standard lens = .ok (Layout.rowMajor lens) := by
  obtain ⟨axes, haxes, hpure⟩ := bind_eq_ok_iff.1 hrun
  cases hpure
  have hself := haxes
  obtain ⟨rfl, -⟩ := Layout.standard_eq_ok_iff.1 haxes
  exact ⟨rfl, hself⟩

theorem isDense_of_standard (hrun : standard elem lens = .ok out) : out.IsDense elem lens :=
  ⟨_, (standard_eq_ok hrun).1, Layout.lens_rowMajor lens, Layout.rowMajor_dense lens⟩

theorem isDense_of_permuted {order : List Nat} (hrun : permuted elem lens order = .ok out) :
    out.IsDense elem lens := by
  obtain ⟨axes, haxes, hpure⟩ := bind_eq_ok_iff.1 hrun
  cases hpure
  exact ⟨axes, rfl, Layout.permuted_eq_ok haxes⟩

end Shape

/-- Lengths of one rank that agree on all axes but one. -/
def AgreeOutside (axis : Nat) (lens other : List Nat) : Prop :=
  lens.length = other.length ∧ ∀ k, k ≠ axis → lens[k]? = other[k]?

namespace Inference

variable {op : String} {inputs : List Shape} {out s : Shape} {axes lens order : List Nat}
  {axis : Int} {place : Nat} {modules : List Signature} {elem : ElementType}

/-! ## Checks -/

theorem oneInput_iff : oneInput op inputs = .ok s ↔ inputs = [s] := by
  refine ⟨fun hrun => ?_, fun heq => heq ▸ rfl⟩
  rcases inputs with _ | ⟨first, _ | ⟨second, rest⟩⟩ <;> cases hrun
  rfl

theorem twoInputs_iff {pair : Shape × Shape} :
    twoInputs op inputs = .ok pair ↔ inputs = [pair.1, pair.2] := by
  refine ⟨fun hrun => ?_, fun heq => heq ▸ rfl⟩
  rcases inputs with _ | ⟨first, _ | ⟨second, _ | ⟨third, rest⟩⟩⟩ <;> cases hrun
  rfl

/-- Shapes that pass are strided. -/
theorem requireStrided_iff :
    requireStrided op inputs = .ok () ↔ ∀ s ∈ inputs, ∃ elem axes, s = .strided elem axes := by
  have hshape (s : Shape) :
      (∃ elem axes, s = .strided elem axes) ↔ ¬ s.isDynamic = true ∧ ¬ s.isTuple = true := by
    cases s <;> simp [Shape.isDynamic, Shape.isTuple]
  simp only [requireStrided, invalid, Outcome.refuse, ite_error_eq_ok_iff, and_true, any_eq_true,
    not_exists, not_and, hshape, imp_and, forall_and]

theorem exists_strided_of_requireStrided (hrun : requireStrided op [s] = .ok ()) :
    ∃ elem axes, s = .strided elem axes :=
  requireStrided_iff.1 hrun s mem_cons_self

/-- An operator on one strided shape. -/
theorem oneStrided_iff {β : Type} {next : Shape → Outcome ShapeError β} {result : β} :
    (do let s ← oneInput op inputs; requireStrided op inputs; next s) = .ok result ↔
      ∃ elem layout, inputs = [.strided elem layout] ∧ next (.strided elem layout) = .ok result := by
  constructor
  · intro hrun
    obtain ⟨s, hs, hrun⟩ := bind_eq_ok_iff.1 hrun
    obtain rfl := oneInput_iff.1 hs
    obtain ⟨_, hstrided, hrun⟩ := bind_eq_ok_iff.1 hrun
    obtain ⟨elem, layout, rfl⟩ := exists_strided_of_requireStrided hstrided
    exact ⟨elem, layout, rfl, hrun⟩
  · rintro ⟨elem, layout, rfl, hrun⟩
    exact hrun

theorem exists_strided_of_twoInputs {t : Shape} (hpair : twoInputs op inputs = .ok (s, t))
    (hrun : requireStrided op inputs = .ok ()) :
    ∃ elem a elem' b, inputs = [.strided elem a, .strided elem' b] ∧ s = .strided elem a ∧
      t = .strided elem' b := by
  obtain rfl := twoInputs_iff.1 hpair
  have hstrided := requireStrided_iff.1 hrun
  obtain ⟨elem, a, rfl⟩ := hstrided s (by simp)
  obtain ⟨elem', b, rfl⟩ := hstrided t (by simp)
  exact ⟨elem, a, elem', b, rfl, rfl, rfl⟩

theorem allEqual_map_iff {β γ : Type} [DecidableEq β] {view : γ → β} {items : List γ} :
    allEqual (items.map view) = true ↔ ∀ a ∈ items, ∀ b ∈ items, view a = view b := by
  cases items with
  | nil => simp [allEqual]
  | cons first rest =>
    have hfirst : allEqual ((first :: rest).map view) = true ↔
        ∀ a ∈ first :: rest, view a = view first := by simp [allEqual]
    rw [hfirst]
    exact ⟨fun hsame a ha b hb => (hsame a ha).trans (hsame b hb).symm,
      fun hsame a ha => hsame a ha first mem_cons_self⟩

/-! ## Elementwise operators -/

theorem unaryShape_eq_ok (hinfer : unaryShape op inputs = .ok out) :
    ∃ s, inputs = [s] ∧ ((s.isDynamic = true ∧ out = s) ∨
      ∃ elem axes, s = .strided elem axes ∧ out.IsDense elem axes.lens) := by
  obtain ⟨s, hs, hrun⟩ := bind_eq_ok_iff.1 hinfer
  obtain rfl := oneInput_iff.1 hs
  refine ⟨s, rfl, ?_⟩
  split_ifs at hrun with hdynamic
  · cases hrun
    exact .inl ⟨hdynamic, rfl⟩
  · obtain ⟨_, hstrided, hrun⟩ := bind_eq_ok_iff.1 hrun
    obtain ⟨elem, axes, rfl⟩ := exists_strided_of_requireStrided hstrided
    obtain ⟨packed, -, hrun⟩ := bind_eq_ok_iff.1 hrun
    refine .inr ⟨elem, axes, rfl, ?_⟩
    cases packed with
    | true => exact Shape.isDense_of_permuted (Outcome.lift_eq_ok_iff.1 hrun)
    | false => exact Shape.isDense_of_standard (Outcome.lift_eq_ok_iff.1 hrun)

/-- Operands of one element type and one list of lengths are laid out anew. -/
theorem elementwiseShape_of_strided (hne : inputs ≠ [])
    (hshapes : ∀ s ∈ inputs, ∃ axes, s = .strided elem axes ∧ axes.lens = lens) :
    elementwiseShape op inputs =
      liftM (Shape.permuted elem lens (Shape.commonAxisOrder inputs)) := by
  have hsame : ∀ s ∈ inputs, s.elem = elem ∧ s.lens = lens ∧ s.isDynamic = false ∧
      s.isTuple = false := by
    intro s hmem
    obtain ⟨axes, rfl, hlens⟩ := hshapes s hmem
    exact ⟨rfl, hlens, rfl, rfl⟩
  have htypes : allEqual (inputs.map Shape.elem) = true :=
    allEqual_map_iff.2 fun s hs t ht => (hsame s hs).1.trans (hsame t ht).1.symm
  have hlengths : allEqual (inputs.map Shape.lens) = true :=
    allEqual_map_iff.2 fun s hs t ht => (hsame s hs).2.1.trans (hsame t ht).2.1.symm
  have hdynamic : inputs.any Shape.isDynamic = false :=
    any_eq_false.2 fun s hmem => by simp [hsame s hmem]
  have htuple : inputs.any Shape.isTuple = false :=
    any_eq_false.2 fun s hmem => by simp [hsame s hmem]
  cases inputs with
  | nil => exact absurd rfl hne
  | cons first rest =>
    obtain ⟨helem, hlens, -⟩ := hsame first mem_cons_self
    simp only [elementwiseShape, htypes, hdynamic, requireStrided, htuple, hlengths, helem, hlens]
    rfl

/-- Where a length is open, operands of one element type and one list of ranges give these. -/
theorem elementwiseShape_of_dynamic {dims : List DimRange}
    (hdynamic : inputs.any Shape.isDynamic = true)
    (hsame : ∀ s ∈ inputs, s.elem = elem ∧ s.ranges = dims) :
    elementwiseShape op inputs = .ok (.ranged elem dims) := by
  have htypes : allEqual (inputs.map Shape.elem) = true :=
    allEqual_map_iff.2 fun s hs t ht => (hsame s hs).1.trans (hsame t ht).1.symm
  have hranges : allEqual (inputs.map Shape.ranges) = true :=
    allEqual_map_iff.2 fun s hs t ht => (hsame s hs).2.trans (hsame t ht).2.symm
  cases inputs with
  | nil => cases hdynamic
  | cons first rest =>
    obtain ⟨helem, hdims⟩ := hsame first mem_cons_self
    simp only [elementwiseShape, htypes, hdynamic, hranges, helem, hdims]
    rfl

/-- All other operands are refused. -/
theorem elementwiseShape_cases (op : String) (inputs : List Shape) :
    (∃ cause, elementwiseShape op inputs = .refuse cause) ∨
      (inputs.any Shape.isDynamic = true ∧
        ∃ elem dims, ∀ s ∈ inputs, s.elem = elem ∧ s.ranges = dims) ∨
      inputs ≠ [] ∧
        ∃ elem lens, ∀ s ∈ inputs, ∃ axes, s = .strided elem axes ∧ axes.lens = lens := by
  cases inputs with
  | nil => exact .inl ⟨_, rfl⟩
  | cons first rest =>
    rw [elementwiseShape, requireStrided]
    split_ifs with htypes hdynamic hranges htuple hlens hlens
    · exact .inl ⟨_, rfl⟩
    · exact .inl ⟨_, rfl⟩
    · rw [Bool.not_eq_true', Bool.not_eq_false, allEqual_map_iff] at htypes hranges
      exact .inr (.inl ⟨hdynamic, first.elem, first.ranges, fun s hmem =>
        ⟨htypes s hmem first mem_cons_self, hranges s hmem first mem_cons_self⟩⟩)
    · exact .inl ⟨_, rfl⟩
    · exact .inl ⟨_, rfl⟩
    · exact .inl ⟨_, rfl⟩
    · rw [Bool.not_eq_true', Bool.not_eq_false, allEqual_map_iff] at htypes hlens
      have hstrided : requireStrided op (first :: rest) = .ok () := by
        rw [requireStrided, if_neg hdynamic, if_neg htuple]
      refine .inr (.inr ⟨cons_ne_nil _ _, first.elem, first.lens, fun s hmem => ?_⟩)
      obtain ⟨elem, axes, rfl⟩ := requireStrided_iff.1 hstrided s hmem
      exact ⟨axes, congrArg (Shape.strided · axes) (htypes _ hmem first mem_cons_self),
        hlens _ hmem first mem_cons_self⟩

/-- A result has the ranges of all operands, or else their lengths. -/
theorem elementwiseShape_eq_ok (hinfer : elementwiseShape op inputs = .ok out) :
    ∃ first rest, inputs = first :: rest ∧
      ((inputs.any Shape.isDynamic = true ∧ out = .ranged first.elem first.ranges) ∨
        ((∀ s ∈ inputs, ∃ axes, s = .strided first.elem axes ∧ axes.lens = first.lens) ∧
          ∃ axes, out = .strided first.elem axes ∧
            Layout.permuted first.lens (Shape.commonAxisOrder inputs) = .ok axes)) := by
  rcases elementwiseShape_cases op inputs with
    ⟨cause, hrefused⟩ | ⟨hdynamic, elem, dims, hsame⟩ | ⟨hne, elem, lens, hshapes⟩
  · cases hrefused.symm.trans hinfer
  · cases (elementwiseShape_of_dynamic hdynamic hsame).symm.trans hinfer
    cases inputs with
    | nil => cases hdynamic
    | cons first rest =>
      obtain ⟨rfl, rfl⟩ := hsame first mem_cons_self
      exact ⟨first, rest, rfl, .inl ⟨hdynamic, rfl⟩⟩
  · rw [elementwiseShape_of_strided hne hshapes, Outcome.lift_eq_ok_iff] at hinfer
    obtain ⟨axes, haxes, hpure⟩ := bind_eq_ok_iff.1 hinfer
    cases hpure
    obtain ⟨first, rest, rfl⟩ := exists_cons_of_ne_nil hne
    obtain ⟨own, rfl, rfl⟩ := hshapes first mem_cons_self
    exact ⟨_, rest, rfl, .inr ⟨hshapes, axes, rfl, haxes⟩⟩

theorem binaryShape_eq_ok (hinfer : binaryShape op inputs = .ok out) :
    ∃ a b, inputs = [a, b] ∧ elementwiseShape op [a, b] = .ok out := by
  obtain ⟨pair, hpair, hrun⟩ := bind_eq_ok_iff.1 hinfer
  obtain rfl := twoInputs_iff.1 hpair
  exact ⟨pair.1, pair.2, rfl, hrun⟩

/-- Every reduced axis exists, and becomes one. -/
theorem reducedLens_iff {input : Shape} :
    reducedLens op input axes = .ok lens ↔ (∀ axis ∈ axes, axis < input.lens.length) ∧
      axes.foldl (fun lens axis => lens.set axis 1) input.lens = lens := by
  unfold reducedLens
  generalize input.lens = start
  induction axes generalizing start with
  | nil => simp [Except.pure_eq_ok]
  | cons axis axes ih =>
    rw [foldlM_cons, forall_mem_cons, foldl_cons]
    split_ifs with hbelow
    · rw [ok_bind, ih, length_set]
      simp only [hbelow, true_and]
    · simp [invalid, Outcome.refuse, hbelow]

theorem reduceSumShape_iff :
    reduceSumShape op axes inputs = .ok out ↔
      ∃ elem layout, inputs = [.strided elem layout] ∧ (∀ axis ∈ axes, axis < layout.length) ∧
        Shape.standard elem (axes.foldl (fun lens axis => lens.set axis 1) layout.lens) =
          .ok out := by
  rw [reduceSumShape, oneStrided_iff]
  simp only [bind_eq_ok_iff, reducedLens_iff, Outcome.lift_eq_ok_iff, and_assoc,
    exists_and_left, exists_eq_left', Shape.lens_strided, Shape.elem_strided, Layout.length_lens]

/-- A matrix seen as a stack is the stack, the rows and the columns. -/
theorem matrixLens?_eq_some_iff {batch : List Nat} {rows columns : Nat} :
    matrixLens? lens = some (batch, rows, columns) ↔ lens = batch ++ [rows, columns] := by
  unfold matrixLens?
  constructor
  · intro hsome
    split at hsome
    · rename_i columns' rows' rest hreverse
      cases hsome
      rw [← reverse_reverse lens, hreverse]
      simp
    · cases hsome
  · rintro rfl
    simp

theorem dotShape_iff :
    dotShape op inputs = .ok out ↔
      ∃ elem a b batch rows inner columns,
        inputs = [.strided elem a, .strided elem b] ∧ a.lens = batch ++ [rows, inner] ∧
        b.lens = batch ++ [inner, columns] ∧
        Shape.standard elem (batch ++ [rows, columns]) = .ok out := by
  constructor
  · intro hinfer
    obtain ⟨⟨s, t⟩, hpair, hnext⟩ := bind_eq_ok_iff.1 hinfer
    obtain ⟨_, hstrided, hrun⟩ := bind_eq_ok_iff.1 hnext
    obtain ⟨elem, a, elem', b, rfl, rfl, rfl⟩ := exists_strided_of_twoInputs hpair hstrided
    obtain ⟨htypes, hrun⟩ := ite_error_eq_ok_iff.1 hrun
    obtain ⟨-, hrun⟩ := ite_error_eq_ok_iff.1 hrun
    obtain rfl : elem = elem' := not_not.1 htypes
    split at hrun
    · rename_i aBatch rows aInner bBatch bInner columns ha hb
      rw [matrixLens?_eq_some_iff] at ha hb
      obtain ⟨hbatch, hrun⟩ := ite_error_eq_ok_iff.1 hrun
      obtain ⟨hinner, hstandard⟩ := ite_error_eq_ok_iff.1 hrun
      rw [not_not] at hbatch hinner
      subst hbatch hinner
      exact ⟨elem, a, b, aBatch, rows, aInner, columns, rfl, ha, hb,
        Outcome.lift_eq_ok_iff.1 hstandard⟩
    · cases hrun
  · rintro ⟨elem, a, b, batch, rows, inner, columns, rfl, ha, hb, hstandard⟩
    have hrank : a.length = b.length := by
      rw [← Layout.length_lens, ha, ← Layout.length_lens, hb, length_append, length_append]
      rfl
    show (if elem ≠ elem then _ else _ : Outcome ShapeError Shape) = _
    rw [if_neg (not_not.2 rfl), Shape.rank_strided, Shape.rank_strided, if_neg (not_not.2 hrank),
      Shape.lens_strided, Shape.lens_strided, matrixLens?_eq_some_iff.2 ha,
      matrixLens?_eq_some_iff.2 hb]
    simpa using Outcome.lift_eq_ok_iff.2 hstandard

/-! ## Movement -/

theorem transposeShape_eq_ok (hinfer : transposeShape op order inputs = .ok out) :
    ∃ s, inputs = [s] ∧ Permutation.isPermutation order = true ∧ order.length = s.rank ∧
      ((s.isDynamic = true ∧
          ∃ dims, Permutation.reorder s.ranges order = .ok dims ∧ out = .ranged s.elem dims) ∨
        ∃ elem axes moved, s = .strided elem axes ∧ Permutation.reorder axes order = .ok moved ∧
          out = .strided elem moved) := by
  obtain ⟨s, hs, hrun⟩ := bind_eq_ok_iff.1 hinfer
  obtain rfl := oneInput_iff.1 hs
  obtain ⟨hcheck, hrun⟩ := ite_error_eq_ok_iff.1 hrun
  obtain ⟨hperm, hlength⟩ : Permutation.isPermutation order = true ∧ order.length = s.rank := by
    simpa using hcheck
  split_ifs at hrun with hdynamic
  · obtain ⟨dims, hdims, hpure⟩ := bind_eq_ok_iff.1 hrun
    cases hpure
    exact ⟨s, rfl, hperm, hlength,
      .inl ⟨hdynamic, dims, Outcome.lift_eq_ok_iff.1 hdims, rfl⟩⟩
  · obtain ⟨_, hstrided, hrun⟩ := bind_eq_ok_iff.1 hrun
    obtain ⟨elem, axes, rfl⟩ := exists_strided_of_requireStrided hstrided
    obtain ⟨moved, hmoved, hpure⟩ := bind_eq_ok_iff.1 hrun
    cases hpure
    exact ⟨_, rfl, hperm, hlength,
      .inr ⟨elem, axes, moved, rfl, Outcome.lift_eq_ok_iff.1 hmoved, rfl⟩⟩

theorem transposeShape_strided (hstatic : s.isDynamic = false)
    (hinfer : transposeShape op order [s] = .ok out) :
    ∃ elem axes moved, s = .strided elem axes ∧ Permutation.isPermutation order = true ∧
      order.length = axes.length ∧ Permutation.reorder axes order = .ok moved ∧
      out = .strided elem moved := by
  obtain ⟨_, heq, hperm, hlength, ⟨hdynamic, -⟩ | ⟨elem, axes, moved, rfl, hmoved, rfl⟩⟩ :=
    transposeShape_eq_ok hinfer <;> cases heq
  · rw [hstatic] at hdynamic
    cases hdynamic
  · exact ⟨elem, axes, moved, rfl, hperm, hlength, hmoved, rfl⟩

/-- A reshaped input is standard, and the new lengths count as many indices as the old ones. -/
theorem reshapeShape_counts {dims : List Int} (hinfer : reshapeShape op dims inputs = .ok out) :
    ∃ elem axes lens n, inputs = [.strided elem axes] ∧ axes.isStandard = .ok true ∧
      Word.product lens = .ok n ∧ Word.product axes.lens = .ok n ∧
      Shape.standard elem lens = .ok out := by
  obtain ⟨elem, axes, rfl, hrun⟩ := oneStrided_iff.1 hinfer
  obtain ⟨standard, hstandard, hrun⟩ := bind_eq_ok_iff.1 hrun
  have hstandard := Outcome.lift_eq_ok_iff.1 hstandard
  cases standard with
  | false => cases hrun
  | true =>
    obtain ⟨-, hrun⟩ := ite_error_eq_ok_iff.1 hrun
    obtain ⟨-, hrun⟩ := ite_error_eq_ok_iff.1 hrun
    obtain ⟨requested, -, hrun⟩ := bind_eq_ok_iff.1 hrun
    obtain ⟨lens, -, hrun⟩ := bind_eq_ok_iff.1 hrun
    obtain ⟨count, hcount, hrun⟩ := bind_eq_ok_iff.1 hrun
    obtain ⟨elements, helements, hrun⟩ := bind_eq_ok_iff.1 hrun
    obtain ⟨hcounts, hrun⟩ := ite_error_eq_ok_iff.1 hrun
    rw [← not_not.1 hcounts] at helements
    exact ⟨elem, axes, lens, count, rfl, hstandard, Outcome.lift_eq_ok_iff.1 hcount,
      Outcome.lift_eq_ok_iff.1 helements, Outcome.lift_eq_ok_iff.1 hrun⟩

theorem reshapeShape_eq_ok {dims : List Int} (hinfer : reshapeShape op dims inputs = .ok out) :
    ∃ elem axes lens, inputs = [.strided elem axes] ∧ axes.isStandard = .ok true ∧
      volume lens = volume axes.lens ∧ Shape.standard elem lens = .ok out := by
  obtain ⟨elem, axes, lens, n, hs, hstandard, hcount, hcount', hrun⟩ := reshapeShape_counts hinfer
  obtain ⟨rfl, -⟩ := Word.product_eq_ok_iff.1 hcount
  exact ⟨elem, axes, lens, hs, hstandard, (Word.product_eq_ok_iff.1 hcount').1, hrun⟩

theorem squeezeShape_iff :
    squeezeShape op axes inputs = .ok out ↔
      ∃ elem layout, inputs = [.strided elem layout] ∧
        (∀ axis ∈ squeezedAxes (.strided elem layout) axes, layout.lens[axis]? = some 1) ∧
        out = .strided elem ((layout.zipIdx.filter fun entry =>
          !(squeezedAxes (.strided elem layout) axes).contains entry.2).map (·.1)) := by
  rw [squeezeShape, oneStrided_iff]
  refine exists_congr fun elem => exists_congr fun layout => and_congr_right fun _ => ?_
  have hunits : (squeezedAxes (.strided elem layout) axes).find?
      (fun axis => (Shape.strided elem layout).lens[axis]? != some 1) = none ↔
        ∀ axis ∈ squeezedAxes (.strided elem layout) axes, layout.lens[axis]? = some 1 := by
    simp
  dsimp only
  split
  · rename_i axis hfound
    rw [hfound] at hunits
    simp [← hunits, invalid, Outcome.refuse]
  · rename_i hfound
    simp only [← hunits, hfound, true_and, Except.pure_eq_ok, Except.ok.injEq]
    exact eq_comm

/-- Each place of the result is a unit axis or takes the next axis of the input. -/
theorem insertUnits_cons_eq_ok {places : List Nat} {layout widened : Layout}
    (hrun : insertUnits axes (place :: places) layout = .ok widened) :
    (place ∈ axes ∧ ∃ stride inner, insertUnits axes places layout = .ok inner ∧
        layout.head?.elim (.ok 1) (fun next => Word.mul next.len next.stride) = .ok stride ∧
        widened = ⟨1, stride⟩ :: inner) ∨
      (place ∉ axes ∧ ∃ next rest inner, layout = next :: rest ∧
        insertUnits axes places rest = .ok inner ∧ widened = next :: inner) := by
  unfold insertUnits at hrun
  split_ifs at hrun with hunit
  · refine .inl ⟨by simpa using hunit, ?_⟩
    cases layout
    all_goals
      obtain ⟨stride, hstride, hrun⟩ := bind_eq_ok_iff.1 hrun
      obtain ⟨inner, hinner, hpure⟩ := bind_eq_ok_iff.1 hrun
      cases hpure
      exact ⟨stride, inner, hinner, hstride, rfl⟩
  · refine .inr ⟨by simpa using hunit, ?_⟩
    cases layout with
    | nil => cases hrun
    | cons next rest =>
      obtain ⟨inner, hinner, hpure⟩ := bind_eq_ok_iff.1 hrun
      cases hpure
      exact ⟨next, rest, inner, rfl, hinner, rfl⟩

theorem unsqueezeShape_eq_ok (hinfer : unsqueezeShape op axes inputs = .ok out) :
    ∃ elem layout widened, inputs = [.strided elem layout] ∧
      (∀ axis ∈ axes, axis < layout.length + axes.length) ∧ axes.Nodup ∧
      insertUnits axes (List.range (layout.length + axes.length)) layout = .ok widened ∧
      out = .strided elem widened := by
  obtain ⟨elem, layout, rfl, hrun⟩ := oneStrided_iff.1 hinfer
  obtain ⟨hgood, hrun⟩ := ite_error_eq_ok_iff.1 hrun
  obtain ⟨widened, hwidened, hpure⟩ := bind_eq_ok_iff.1 hrun
  cases hpure
  simp only [Bool.or_eq_true, not_or, any_eq_true, decide_eq_true_iff, not_exists, not_and,
    Nat.not_le, Bool.not_eq_true', Bool.not_eq_false, decide_eq_true_iff] at hgood
  exact ⟨elem, layout, widened, rfl, hgood.1, hgood.2, Outcome.lift_eq_ok_iff.1 hwidened, rfl⟩

/-- A layout after every range has cut its axis. -/
def cutAxes (ranges : List AxisRange) (layout : Layout) : Layout :=
  ranges.foldl (fun (axes : Layout) range =>
    axes.modify range.axis fun axis => { axis with len := range.last - range.first }) layout

theorem sliceShape_iff {starts ends : List Int} :
    sliceShape op axes starts ends inputs = .ok out ↔
      ∃ elem layout ranges, inputs = [.strided elem layout] ∧
        sliceRanges op (.strided elem layout) axes starts ends = .ok ranges ∧
        out = .strided elem (cutAxes ranges layout) := by
  rw [sliceShape, oneStrided_iff]
  constructor
  · rintro ⟨elem, layout, rfl, hrun⟩
    obtain ⟨ranges, hranges, hpure⟩ := bind_eq_ok_iff.1 hrun
    cases hpure
    exact ⟨elem, layout, ranges, rfl, hranges, rfl⟩
  · rintro ⟨elem, layout, ranges, rfl, hranges, rfl⟩
    exact ⟨elem, layout, rfl, bind_eq_ok_iff.2 ⟨ranges, hranges, rfl⟩⟩

theorem broadcastShape_iff :
    broadcastShape op lens inputs = .ok out ↔
      ∃ elem layout inner, inputs = [.strided elem layout] ∧ layout.length ≤ lens.length ∧
        broadcastAxes? layout (lens.drop (lens.length - layout.length)) = some inner ∧
        out = .strided elem
          ((lens.take (lens.length - layout.length)).map (⟨·, 0⟩) ++ inner) := by
  rw [broadcastShape, oneStrided_iff]
  constructor
  · rintro ⟨elem, layout, rfl, hrun⟩
    split_ifs at hrun with hlower
    · cases hrun
    · dsimp only at hrun
      split at hrun
      · cases hrun
      · rename_i inner hinner
        cases hrun
        exact ⟨elem, layout, inner, rfl, Nat.le_of_not_lt hlower, hinner, rfl⟩
  · rintro ⟨elem, layout, inner, rfl, hrank, hinner, rfl⟩
    refine ⟨elem, layout, rfl, ?_⟩
    rw [Shape.rank_strided, if_neg (Nat.not_lt.2 hrank)]
    dsimp only [Shape.axes_strided]
    rw [hinner]
    rfl

theorem gatherShape_iff :
    gatherShape op axis inputs = .ok out ↔
      ∃ elem data elem' picks place, inputs = [.strided elem data, .strided elem' picks] ∧
        resolveAxis op axis data.length = .ok place ∧
        Shape.standard elem (data.lens.take place ++ picks.lens ++ data.lens.drop (place + 1)) =
          .ok out := by
  constructor
  · intro hinfer
    obtain ⟨⟨s, t⟩, hpair, hnext⟩ := bind_eq_ok_iff.1 hinfer
    obtain ⟨_, hstrided, hrun⟩ := bind_eq_ok_iff.1 hnext
    obtain ⟨elem, data, elem', picks, rfl, rfl, rfl⟩ := exists_strided_of_twoInputs hpair hstrided
    obtain ⟨place, hplace, hrun⟩ := bind_eq_ok_iff.1 hrun
    exact ⟨elem, data, elem', picks, place, rfl, hplace, Outcome.lift_eq_ok_iff.1 hrun⟩
  · rintro ⟨elem, data, elem', picks, place, rfl, hplace, hstandard⟩
    show (resolveAxis op axis data.length >>= _ : Outcome ShapeError Shape) = _
    rw [hplace, ok_bind]
    exact Outcome.lift_eq_ok_iff.2 hstandard

/-- A resolved axis exists. -/
theorem resolveAxis_lt {rank : Nat} (hrun : resolveAxis op axis rank = .ok place) :
    place < rank := by
  obtain ⟨hinside, hrun⟩ := ite_error_eq_ok_iff.1 hrun
  cases hrun
  omega

/-! ## Joins and modules -/

theorem agreeOutside_iff {elem' : ElementType} {axes axes' : Layout} :
    agreeOutside place (.strided elem axes) (.strided elem' axes') = true ↔
      AgreeOutside place axes.lens axes'.lens := by
  simp only [agreeOutside, Shape.rank_strided, Shape.lens_strided, Bool.and_eq_true,
    beq_iff_eq, all_eq_true, Bool.or_eq_true, ← Layout.length_lens]
  refine and_congr_right fun hlength => ⟨fun hall k hk => ?_, fun hall entry hmem => ?_⟩
  · by_cases hbelow : k < axes.lens.length
    · have hentry := hall ((axes.lens[k], axes'.lens[k]), k) (by
        rw [mem_zipIdx_iff_getElem?]
        simp [getElem?_zip_eq_some])
      rw [getElem?_eq_getElem hbelow, getElem?_eq_getElem (hlength ▸ hbelow)]
      simpa [hk] using hentry
    · rw [getElem?_eq_none (Nat.le_of_not_lt hbelow),
        getElem?_eq_none (hlength ▸ Nat.le_of_not_lt hbelow)]
  · rw [mem_zipIdx_iff_getElem?, getElem?_zip_eq_some] at hmem
    by_cases hk : entry.2 = place
    · exact .inl hk
    · exact .inr (Option.some.inj (hmem.1.symm.trans ((hall _ hk).trans hmem.2)))

/-- Strided parts that agree outside the axis are joined along it, if their lengths add up to a
word, and no others are. -/
theorem joinLens_eq_ok_iff {parts : List Shape} :
    joinLens op parts axis = .ok (place, lens) ↔
      ∃ first rest, parts = first :: rest ∧
        (∀ part ∈ parts, ∃ elem axes, part = .strided elem axes) ∧
        resolveAxis op axis first.rank = .ok place ∧
        (∀ part ∈ parts, AgreeOutside place part.lens first.lens) ∧
        Word.total (parts.map (·.lens.getD place 0)) < Word.limit ∧
        lens = first.lens.set place (Word.total (parts.map (·.lens.getD place 0))) := by
  have hfind {first : Shape} (hfirst : first ∈ parts)
      (hstrided : ∀ part ∈ parts, ∃ elem axes, part = .strided elem axes) (place : Nat) :
      parts.find? (fun part => !agreeOutside place part first) = none ↔
        ∀ part ∈ parts, AgreeOutside place part.lens first.lens := by
    obtain ⟨elem, axes, rfl⟩ := hstrided first hfirst
    rw [find?_eq_none]
    refine forall₂_congr fun part hmem => ?_
    obtain ⟨elem', axes', rfl⟩ := hstrided part hmem
    rw [Bool.not_eq_true', Bool.not_eq_false, agreeOutside_iff]
    rfl
  have hlengths {first : Shape} {place : Nat} (hplace : place < first.lens.length)
      (hagree : ∀ part ∈ parts, AgreeOutside place part.lens first.lens) :
      parts.mapM (fun part => (fetch part.lens place : Outcome ShapeError Nat)) =
        .ok (parts.map (·.lens.getD place 0)) := by
    rw [Outcome.mapM_lift_eq_ok_iff, mapM_eq_ok_iff, forall₂_map_right_iff, forall₂_same]
    exact fun part hmem => Layout.fetch_of_lt ((hagree part hmem).1 ▸ hplace)
  have hrank {first : Shape} (hfirst : first ∈ parts)
      (hstrided : ∀ part ∈ parts, ∃ elem axes, part = .strided elem axes) {place : Nat}
      (hplace : resolveAxis op axis first.rank = .ok place) : place < first.lens.length := by
    obtain ⟨elem, axes, rfl⟩ := hstrided first hfirst
    rw [Shape.lens_strided, Layout.length_lens]
    exact resolveAxis_lt hplace
  constructor
  · intro hjoin
    obtain ⟨_, hstrided, hrun⟩ := bind_eq_ok_iff.1 hjoin
    rw [requireStrided_iff] at hstrided
    cases parts with
    | nil => cases hrun
    | cons first rest =>
      obtain ⟨place', hplace, hrun⟩ := bind_eq_ok_iff.1 hrun
      split at hrun
      · cases hrun
      · rename_i hnone
        have hagree := (hfind mem_cons_self hstrided place').1 hnone
        rw [hlengths (hrank mem_cons_self hstrided hplace) hagree, ok_bind, bind_eq_ok_iff] at hrun
        obtain ⟨total, htotal, hpure⟩ := hrun
        cases hpure
        obtain ⟨rfl, hfits⟩ := Word.sum_eq_ok_iff.1 (Outcome.lift_eq_ok_iff.1 htotal)
        exact ⟨first, rest, rfl, hstrided, hplace, hagree, hfits, rfl⟩
  · rintro ⟨first, rest, rfl, hstrided, hplace, hagree, hfits, rfl⟩
    rw [joinLens, requireStrided_iff.2 hstrided, ok_bind, hplace, ok_bind,
      (hfind mem_cons_self hstrided place).2 hagree]
    dsimp only
    rw [hlengths (hrank mem_cons_self hstrided hplace) hagree, ok_bind,
      Outcome.lift_eq_ok_iff.2 (Word.sum_eq_ok_iff.2 ⟨rfl, hfits⟩)]
    rfl

theorem concatShape_eq_ok (hinfer : concatShape op axis inputs = .ok out) :
    ∃ first rest place lens, inputs = first :: rest ∧ (∀ s ∈ rest, s.elem = first.elem) ∧
      joinLens op inputs axis = .ok (place, lens) ∧ out.IsDense first.elem lens := by
  obtain ⟨htypes, hrun⟩ := ite_error_eq_ok_iff.1 hinfer
  obtain ⟨⟨place, lens⟩, hjoin, hrun⟩ := bind_eq_ok_iff.1 hrun
  cases inputs with
  | nil => cases hrun
  | cons first rest =>
    rw [Bool.not_eq_true', Bool.not_eq_false] at htypes
    exact ⟨first, rest, place, lens, rfl, fun s hmem =>
      allEqual_map_iff.1 htypes s (mem_cons_of_mem _ hmem) first mem_cons_self, hjoin,
      Shape.isDense_of_permuted (Outcome.lift_eq_ok_iff.1 hrun)⟩

theorem pointwiseShape_eq_ok (hinfer : pointwiseShape op inputs modules = .ok out) :
    ∃ module elem, modules = [module] ∧ module.arity = inputs.length ∧
      moduleElem op module = .ok elem ∧
      elementwiseShape op (inputs.map (·.withElem elem)) = .ok out := by
  unfold pointwiseShape at hinfer
  split at hinfer
  · rename_i module
    obtain ⟨harity, hrun⟩ := ite_error_eq_ok_iff.1 hinfer
    obtain ⟨elem, helem, hrun⟩ := bind_eq_ok_iff.1 hrun
    exact ⟨module, elem, rfl, not_not.1 harity, helem, hrun⟩
  · cases hinfer

theorem fusedConcatShape_eq_ok (hinfer : fusedConcatShape op axis inputs modules = .ok out) :
    ∃ plan parts place lens post elem, planFusion inputs.length modules = .ok plan ∧
      plan.ranges.mapM (fun (start, _) => fetch inputs start) = .ok parts ∧
      joinLens op parts axis = .ok (place, lens) ∧ modules.getLast? = some post ∧
      moduleElem op post = .ok elem ∧ out.IsDense elem lens := by
  obtain ⟨_, -, hrun⟩ := bind_eq_ok_iff.1 hinfer
  obtain ⟨-, hrun⟩ := ite_error_eq_ok_iff.1 hrun
  cases hplan : planFusion inputs.length modules with
  | error flaw => rw [hplan] at hrun; cases hrun
  | ok plan =>
    rw [hplan] at hrun
    obtain ⟨parts, hparts, hrun⟩ := bind_eq_ok_iff.1 hrun
    obtain ⟨⟨place, lens⟩, hjoin, hrun⟩ := bind_eq_ok_iff.1 hrun
    cases hpost : modules.getLast? with
    | none => simp only [hpost] at hrun; cases hrun
    | some post =>
      simp only [hpost] at hrun
      obtain ⟨elem, helem, hrun⟩ := bind_eq_ok_iff.1 hrun
      exact ⟨plan, parts, place, lens, post, elem, rfl,
        Outcome.mapM_lift_eq_ok_iff.1 hparts, hjoin, rfl, helem,
        Shape.isDense_of_permuted (Outcome.lift_eq_ok_iff.1 hrun)⟩

section Loops

variable {iterations scanInputs stateVars : Nat} {body : Signature} {parameters : List (String × Shape)}

/-- Lengths that are compared one by one are the declared ones. -/
theorem forM_lens_iff {check : Shape × String × Shape → Outcome ShapeError Unit}
    (hcheck : ∀ {input name declared}, check (input, name, declared) = .ok () ↔
      input.lens = declared.lens) {shapes : List Shape} (hlength : shapes.length ≤ parameters.length) :
    (shapes.zip parameters).forM check = .ok () ↔
      shapes.map Shape.lens = (parameters.take shapes.length).map (·.2.lens) := by
  have hzip : shapes.zip parameters = shapes.zip (parameters.take shapes.length) := by
    rw [zip_eq_zip_take_min, Nat.min_eq_left hlength, take_length]
  rw [forM_eq_ok_iff, hzip, ← forall₂_eq_eq_eq, forall₂_map_left_iff, forall₂_map_right_iff,
    forall₂_iff_zip, length_take, Nat.min_eq_left hlength, and_iff_right rfl]
  exact ⟨fun hchecks _ _ hmem => hcheck.1 (hchecks _ hmem),
    fun hlens _ hmem => hcheck.2 (hlens hmem)⟩

theorem lens_check_iff {flaw : ShapeFlaw} {input declared : Shape} :
    (if input.lens ≠ declared.lens then invalid op flaw else .ok ()) = .ok () ↔
      input.lens = declared.lens := by
  rw [invalid, Outcome.refuse, ite_error_eq_ok_iff, not_not, and_iff_left rfl]

theorem scanBody_iff : scanBody op modules = .ok body ↔ modules = [body] := by
  rcases modules with _ | ⟨first, _ | ⟨second, rest⟩⟩ <;> simp [scanBody, invalid, Outcome.refuse]

/-- What inference asks of the arguments and the body of a loop. -/
structure LoopChecked (iterations scanInputs stateVars : Nat) (inputs : List Shape)
    (body : Signature) : Prop where
  /-- There are states, and scan inputs for every iteration. -/
  count : inputs.length = stateVars + iterations * scanInputs
  strided : ∀ s ∈ inputs, ∃ elem axes, s = .strided elem axes
  arity : body.parameters.length = stateVars + scanInputs
  /-- In every iteration, lengths are as declared. -/
  args : ∀ i < iterations, (iterationArgs scanInputs stateVars inputs (inputs.take stateVars) i).map
    Shape.lens = body.parameters.map (·.2.lens)
  states : stateVars ≤ body.outputs.length
  /-- The states come back with lengths as declared. -/
  returned : (body.outputs.take stateVars).map Shape.lens =
    (body.parameters.take stateVars).map (·.2.lens)

theorem length_iterationArgs {β : Type} {inputs : List β}
    (hcount : inputs.length = stateVars + iterations * scanInputs) {i : Nat} (hi : i < iterations) :
    (iterationArgs scanInputs stateVars inputs (inputs.take stateVars) i).length =
      stateVars + scanInputs := by
  have hshare : (i + 1) * scanInputs ≤ iterations * scanInputs := Nat.mul_le_mul_right _ hi
  rw [Nat.succ_mul] at hshare
  rw [iterationArgs, length_append, length_take, length_take, length_drop, hcount]
  omega

theorem checkIteration_iff {i : Nat} {args : List Shape} (hlength : args.length = parameters.length) :
    checkIteration op parameters i args = .ok () ↔
      args.map Shape.lens = parameters.map (·.2.lens) := by
  rw [checkIteration, forM_lens_iff lens_check_iff (Nat.le_of_eq hlength), hlength, take_length]

theorem checkStates_iff (hfew : stateVars ≤ body.outputs.length)
    (hle : stateVars ≤ parameters.length) :
    checkStates op parameters (body.outputs.take stateVars) = .ok () ↔
      (body.outputs.take stateVars).map Shape.lens =
        (parameters.take stateVars).map (·.2.lens) := by
  have hlength : (body.outputs.take stateVars).length = stateVars := by
    rw [length_take, Nat.min_eq_left hfew]
  rw [checkStates, forM_lens_iff lens_check_iff (by rwa [hlength]), hlength]

theorem scanShape_iff :
    scanShape op iterations scanInputs stateVars inputs modules = .ok out ↔
      ∃ body, modules = [body] ∧ stateVars + iterations * scanInputs < Word.limit ∧
        LoopChecked iterations scanInputs stateVars inputs body ∧
        out = Shape.ofParts (body.outputs.take stateVars ++
          Nat.repeat (body.outputs.drop stateVars ++ ·) iterations []) := by
  simp only [scanShape, bind_eq_ok_iff, ite_error_eq_ok_iff, Outcome.refuse, invalid,
    Outcome.lift_eq_ok_iff, Word.mul_eq_ok_iff, Word.add_eq_ok_iff, scanBody_iff,
    foldCountM_unit_eq_ok_iff, Nat.zero_add, exists_const, not_not, Nat.not_lt]
  refine exists_congr fun body => and_congr_right fun _ => ⟨?_, ?_⟩
  · rintro ⟨_, ⟨rfl, -⟩, _, ⟨rfl, hfits⟩, hcount, _, hstrided, harity, hargs, hfew, _, hstates,
      hpure⟩
    refine ⟨hfits, ⟨hcount, requireStrided_iff.1 hstrided, harity, fun i hi => ?_, hfew, ?_⟩,
      (Except.ok.inj hpure).symm⟩
    · exact (checkIteration_iff ((length_iterationArgs hcount hi).trans harity.symm)).1 (hargs i hi)
    · exact (checkStates_iff hfew (Nat.le.intro harity.symm)).1 hstates
  · rintro ⟨hfits, ⟨hcount, hstrided, harity, hargs, hfew, hstates⟩, rfl⟩
    refine ⟨_, ⟨rfl, by omega⟩, _, ⟨rfl, hfits⟩, hcount, (), requireStrided_iff.2 hstrided, harity,
      fun i hi => ?_, hfew, (), ?_, rfl⟩
    · exact (checkIteration_iff ((length_iterationArgs hcount hi).trans harity.symm)).2 (hargs i hi)
    · exact (checkStates_iff hfew (Nat.le.intro harity.symm)).2 hstates

/-- The shape of a loop depends on its body alone. -/
theorem scanShape_eq_ok
    (hinfer : scanShape op iterations scanInputs stateVars inputs modules = .ok out) :
    ∃ body, modules = [body] ∧
      out = Shape.ofParts (body.outputs.take stateVars ++
        Nat.repeat (body.outputs.drop stateVars ++ ·) iterations []) := by
  obtain ⟨body, hmodules, -, -, hout⟩ := scanShape_iff.1 hinfer
  exact ⟨body, hmodules, hout⟩

end Loops

theorem tupleElemShape_iff {index : Nat} :
    tupleElemShape op index inputs = .ok out ↔
      ∃ elem parts, inputs = [.tuple elem parts] ∧ parts[index]? = some out := by
  constructor
  · intro hinfer
    obtain ⟨s, hs, hrun⟩ := bind_eq_ok_iff.1 hinfer
    obtain rfl := oneInput_iff.1 hs
    cases s with
    | strided elem axes => cases hrun
    | ranged elem dims => cases hrun
    | tuple elem parts =>
      rw [if_neg (by simp [Shape.isTuple])] at hrun
      split at hrun
      · rename_i part hpart
        cases hrun
        exact ⟨elem, parts, rfl, hpart⟩
      · cases hrun
  · rintro ⟨elem, parts, rfl, hpart⟩
    have hlooked : (Shape.tuple elem parts).parts[index]? = some out := hpart
    rw [tupleElemShape, oneInput_iff.2 rfl, ok_bind, if_neg (by simp [Shape.isTuple]), hlooked]
    rfl

end Inference

theorem Operator.contiguousShape_iff {op : String} {inputs : List Shape} {out : Shape} :
    contiguousShape op inputs = .ok out ↔
      ∃ s, inputs = [s] ∧ s.isTuple = false ∧ s.asStandard = .ok out := by
  rw [contiguousShape, bind_eq_ok_iff]
  refine exists_congr fun s => and_congr Inference.oneInput_iff ?_
  cases s.isTuple with
  | true => simp [Inference.invalid, Outcome.refuse]
  | false => simpa using Outcome.lift_eq_ok_iff

end TensorGraph
