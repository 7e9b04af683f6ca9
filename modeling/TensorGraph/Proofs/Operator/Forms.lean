import TensorGraph.Proofs.Operator.Inference

/-!
# Forms of shapes

The form of a shape is what is left when strides are forgotten. Two layouts of the same form that
inference accepts give results of the same form.
-/

namespace TensorGraph

open Layout List Shape

namespace Shape

variable {s : Shape}

mutual

/-- The shape without its strides. -/
def form : Shape → Shape
  | .strided elem axes => .strided elem (axes.lens.map (⟨·, 0⟩))
  | .ranged elem dims => .ranged elem dims
  | .tuple elem parts => .tuple elem (forms parts)

/-- The forms of several shapes. -/
def forms : List Shape → List Shape
  | [] => []
  | s :: rest => form s :: forms rest

end

theorem forms_eq_map (shapes : List Shape) : forms shapes = shapes.map form := by
  induction shapes with
  | nil => rfl
  | cons s shapes ih => rw [forms, ih, map_cons]

@[simp]
theorem elem_form (s : Shape) : s.form.elem = s.elem := by
  cases s <;> rfl

@[simp]
theorem lens_form (s : Shape) : s.form.lens = s.lens := by
  cases s with
  | strided elem axes => simp [form, Layout.lens, Function.comp_def]
  | ranged elem dims => rfl
  | tuple elem parts => rfl

@[simp]
theorem rank_form (s : Shape) : s.form.rank = s.rank := by
  cases s with
  | strided elem axes => simp [form]
  | ranged elem dims => rfl
  | tuple elem parts => rfl

@[simp]
theorem ranges_form (s : Shape) : s.form.ranges = s.ranges := by
  cases s with
  | strided elem axes => simp [form, ranges, Layout.lens, Function.comp_def]
  | ranged elem dims => rfl
  | tuple elem parts => rfl

theorem elem_congr {s t : Shape} (hform : s.form = t.form) : s.elem = t.elem := by
  rw [← elem_form, hform, elem_form]

theorem lens_congr {s t : Shape} (hform : s.form = t.form) : s.lens = t.lens := by
  rw [← lens_form, hform, lens_form]

theorem ranges_congr {s t : Shape} (hform : s.form = t.form) : s.ranges = t.ranges := by
  rw [← ranges_form, hform, ranges_form]

@[simp]
theorem isTuple_form (s : Shape) : s.form.isTuple = s.isTuple := by
  cases s <;> rfl

theorem parts_form (s : Shape) : s.form.parts = s.parts.map form := by
  cases s with
  | strided elem axes => rfl
  | ranged elem dims => rfl
  | tuple elem parts => exact forms_eq_map parts

mutual

theorem isDynamic_form : (s : Shape) → s.form.isDynamic = s.isDynamic
  | .strided _ _ => rfl
  | .ranged _ _ => rfl
  | .tuple _ parts => anyDynamic_forms parts

theorem anyDynamic_forms : (shapes : List Shape) → anyDynamic (forms shapes) = anyDynamic shapes
  | [] => rfl
  | s :: rest => by rw [forms, anyDynamic, anyDynamic, isDynamic_form s, anyDynamic_forms rest]

end

theorem form_withElem (s : Shape) (elem : ElementType) :
    (s.withElem elem).form = s.form.withElem elem := by
  cases s <;> rfl

theorem form_ofParts (parts : List Shape) : (ofParts parts).form = ofParts (parts.map form) := by
  rw [ofParts, form, forms_eq_map, ofParts, head?_map, Option.map_map]
  simp [Function.comp_def]

/-- Strided shapes have one form when they agree in element type and lengths. -/
theorem form_strided_eq_iff {e f : ElementType} {xs ys : Layout} :
    (strided e xs).form = (strided f ys).form ↔ e = f ∧ xs.lens = ys.lens := by
  constructor
  · intro hform
    exact ⟨elem_congr hform, lens_congr hform⟩
  · rintro ⟨rfl, hlens⟩
    rw [form, form, hlens]

variable {elem : ElementType} {t : Shape}

theorem exists_strided_of_form_eq {axes : Layout} (hform : s.form = (strided elem axes).form) :
    ∃ layout, s = .strided elem layout ∧ layout.lens = axes.lens := by
  cases s with
  | strided e layout =>
    obtain ⟨rfl, hlens⟩ := form_strided_eq_iff.1 hform
    exact ⟨layout, rfl, hlens⟩
  | ranged e dims => cases hform
  | tuple e parts => cases hform

theorem IsDense.form_eq {lens : List Nat} (hs : s.IsDense elem lens) (ht : t.IsDense elem lens) :
    s.form = t.form := by
  obtain ⟨xs, rfl, hxs, -⟩ := hs
  obtain ⟨ys, rfl, hys, -⟩ := ht
  exact form_strided_eq_iff.2 ⟨rfl, hxs.trans hys.symm⟩

/-- A standard shape is determined by its form. -/
theorem eq_of_form_eq_of_isStandard (hform : s.form = t.form) (hs : s.isStandard = .ok true)
    (ht : t.isStandard = .ok true) : s = t := by
  cases t with
  | strided elem axes =>
    obtain ⟨layout, rfl, hlens⟩ := exists_strided_of_form_eq hform
    have haxes := isStandard_eq_ok_true_iff.1 hs
    rw [hlens, isStandard_eq_ok_true_iff.1 ht, Except.ok.injEq] at haxes
    rw [haxes]
  | ranged elem dims => cases ht
  | tuple elem parts => cases ht

/-- Forcing the standard layout keeps the form. -/
theorem form_asStandard {out : Shape} (hrun : s.asStandard = .ok out) : out.form = s.form := by
  cases s with
  | strided elem axes =>
    obtain ⟨layout, rfl, hlens, -⟩ := isDense_of_standard hrun
    exact form_strided_eq_iff.2 ⟨rfl, hlens⟩
  | ranged elem dims =>
    cases hrun
    rfl
  | tuple elem parts =>
    cases hrun
    rfl

end Shape

namespace Inference

variable {op : String} {inputs others parts parts' : List Shape} {out : Shape} {axes lens : List Nat}
  {axis : Int} {s : Shape} {elem : ElementType} {layout inner : Layout} {order : List Nat}
  {starts ends : List Int} {modules : List Signature}

/-- Inputs of the same forms give results of the same form, if both are accepted. -/
def KeepsForms (infer : List Shape → Outcome ShapeError Shape) : Prop :=
  ∀ ⦃inputs others out out'⦄, others.map Shape.form = inputs.map Shape.form →
    infer inputs = .ok out → infer others = .ok out' → out'.form = out.form

/-- Inputs of the same forms are accepted alike, and give results of the same form. -/
def SeesForms (infer : List Shape → Outcome ShapeError Shape) : Prop :=
  ∀ ⦃inputs others out⦄, others.map Shape.form = inputs.map Shape.form → infer inputs = .ok out →
    ∃ out', infer others = .ok out' ∧ out'.form = out.form

theorem SeesForms.keeps {infer : List Shape → Outcome ShapeError Shape} (hsees : SeesForms infer) :
    KeepsForms infer := by
  intro inputs others out out' hforms hinfer hother
  obtain ⟨own, hown, hform⟩ := hsees hforms hinfer
  cases hown.symm.trans hother
  exact hform

theorem eq_singleton_of_forms (hforms : others.map Shape.form = [s].map Shape.form) :
    ∃ t, others = [t] ∧ t.form = s.form := by
  rw [map_singleton, map_eq_singleton_iff] at hforms
  exact hforms

theorem eq_strided_of_forms (hforms : others.map Shape.form = [strided elem layout].map Shape.form)
    :
    ∃ layout', others = [.strided elem layout'] ∧ layout'.lens = layout.lens := by
  obtain ⟨t, rfl, hform⟩ := eq_singleton_of_forms hforms
  obtain ⟨layout', rfl, hlens⟩ := exists_strided_of_form_eq hform
  exact ⟨layout', rfl, hlens⟩

theorem eq_strided_two_of_forms {elem' : ElementType} {a b : Layout}
    (hforms : others.map Shape.form = [strided elem a, strided elem' b].map Shape.form) :
    ∃ a' b', others = [.strided elem a', .strided elem' b'] ∧ a'.lens = a.lens ∧
      b'.lens = b.lens := by
  obtain ⟨s, rest, rfl, hs, hrest⟩ := map_eq_cons_iff.1 hforms
  obtain ⟨a', rfl, ha⟩ := exists_strided_of_form_eq hs
  obtain ⟨b', rfl, hb⟩ := eq_strided_of_forms hrest
  exact ⟨a', b', rfl, ha, hb⟩

/-! ## Elementwise operators -/

theorem any_isDynamic_of_forms (hforms : others.map Shape.form = inputs.map Shape.form) :
    others.any Shape.isDynamic = inputs.any Shape.isDynamic := by
  have hany := congrArg (List.any · Shape.isDynamic) hforms
  simpa only [any_map, Function.comp_def, isDynamic_form] using hany

theorem any_isDynamic_of_strided {shapes : List Shape}
    (hstrided : ∀ s ∈ shapes, ∃ axes, s = .strided elem axes ∧ axes.lens = lens) :
    shapes.any Shape.isDynamic = false := by
  rw [any_eq_false]
  intro s hmem
  obtain ⟨axes, rfl, -⟩ := hstrided s hmem
  simp [Shape.isDynamic]

theorem unaryShape_form : KeepsForms (unaryShape op) := by
  intro inputs others out out' hforms hinfer hother
  obtain ⟨s, rfl, hs⟩ := unaryShape_eq_ok hinfer
  obtain ⟨t, ht, htout⟩ := unaryShape_eq_ok hother
  obtain ⟨_, rfl, hform⟩ := eq_singleton_of_forms hforms
  cases ht
  rcases hs with ⟨hdynamic, rfl⟩ | ⟨elem, axes, rfl, hdense⟩
  · rcases htout with ⟨-, rfl⟩ | ⟨elem, axes, rfl, -⟩
    · exact hform
    · rw [← isDynamic_form, ← hform] at hdynamic
      cases hdynamic
  · obtain ⟨layout, rfl, hlens⟩ := exists_strided_of_form_eq hform
    rcases htout with ⟨hdynamic, -⟩ | ⟨elem', axes', heq, hdense'⟩
    · cases hdynamic
    · cases heq
      rw [hlens] at hdense'
      exact hdense'.form_eq hdense

theorem elementwiseShape_form : KeepsForms (elementwiseShape op) := by
  intro inputs others out out' hforms hinfer hother
  have hdynamics := any_isDynamic_of_forms hforms
  obtain ⟨first, rest, rfl, hout⟩ := elementwiseShape_eq_ok hinfer
  obtain ⟨first', rest', rfl, hout'⟩ := elementwiseShape_eq_ok hother
  have hfirst : first'.form = first.form := (List.cons.inj hforms).1
  rcases hout with ⟨hdynamic, rfl⟩ | ⟨hstrided, axes, rfl, haxes⟩
  · rcases hout' with ⟨-, rfl⟩ | ⟨hstrided', -⟩
    · rw [elem_congr hfirst, ranges_congr hfirst]
    · rw [← hdynamics, any_isDynamic_of_strided hstrided'] at hdynamic
      cases hdynamic
  · rcases hout' with ⟨hdynamic', -⟩ | ⟨-, axes', rfl, haxes'⟩
    · rw [hdynamics, any_isDynamic_of_strided hstrided] at hdynamic'
      cases hdynamic'
    · rw [form_strided_eq_iff, (permuted_eq_ok haxes).1, (permuted_eq_ok haxes').1]
      exact ⟨elem_congr hfirst, lens_congr hfirst⟩

theorem reduceSumShape_sees : SeesForms (reduceSumShape op axes) := by
  intro inputs others out hforms hinfer
  obtain ⟨elem, layout, rfl, hbelow, hout⟩ := reduceSumShape_iff.1 hinfer
  obtain ⟨layout', rfl, hlens⟩ := eq_strided_of_forms hforms
  rw [← hlens] at hout
  rw [← length_lens, ← hlens, length_lens] at hbelow
  exact ⟨out, reduceSumShape_iff.2 ⟨elem, layout', rfl, hbelow, hout⟩, rfl⟩

theorem dotShape_sees : SeesForms (dotShape op) := by
  intro inputs others out hforms hinfer
  obtain ⟨elem, a, b, batch, rows, inner, columns, rfl, ha, hb, hout⟩ := dotShape_iff.1 hinfer
  obtain ⟨a', b', rfl, ha', hb'⟩ := eq_strided_two_of_forms hforms
  exact ⟨out, dotShape_iff.2 ⟨elem, a', b', batch, rows, inner, columns, rfl, ha'.trans ha,
    hb'.trans hb, hout⟩, rfl⟩

/-! ## Movement -/

theorem reorder_map {β γ : Type} (f : β → γ) {items moved : List β}
    (hrun : Permutation.reorder items order = .ok moved) :
    Permutation.reorder (items.map f) order = .ok (moved.map f) := by
  rw [Permutation.reorder, mapM_eq_ok_iff] at hrun ⊢
  rw [forall₂_map_right_iff]
  refine hrun.imp fun i axis hfetch => ?_
  rw [fetch_eq_ok_iff] at hfetch ⊢
  rw [getElem?_map, hfetch]
  rfl

theorem reorder_lens {axes moved : Layout} (hrun : Permutation.reorder axes order = .ok moved) :
    Permutation.reorder axes.lens order = .ok moved.lens := reorder_map _ hrun

theorem transposeShape_form : KeepsForms (transposeShape op order) := by
  intro inputs others out out' hforms hinfer hother
  obtain ⟨s, rfl, -, -, hs⟩ := transposeShape_eq_ok hinfer
  obtain ⟨t, ht, -, -, htout⟩ := transposeShape_eq_ok hother
  obtain ⟨_, rfl, hform⟩ := eq_singleton_of_forms hforms
  cases ht
  rcases hs with ⟨hdynamic, dims, hdims, rfl⟩ | ⟨elem, axes, moved, rfl, hmoved, rfl⟩
  · rcases htout with ⟨-, dims', hdims', rfl⟩ | ⟨elem, axes, moved, rfl, -⟩
    · rw [ranges_congr hform, hdims, Except.ok.injEq] at hdims'
      rw [elem_congr hform, hdims']
    · rw [← isDynamic_form, ← hform] at hdynamic
      cases hdynamic
  · obtain ⟨layout, rfl, hlens⟩ := exists_strided_of_form_eq hform
    rcases htout with ⟨hdynamic, -⟩ | ⟨elem', axes', moved', heq, hmoved', rfl⟩
    · cases hdynamic
    · cases heq
      have hmovedLens := reorder_lens hmoved'
      rw [hlens, reorder_lens hmoved, Except.ok.injEq] at hmovedLens
      exact form_strided_eq_iff.2 ⟨rfl, hmovedLens.symm⟩

theorem reshapeShape_form {dims : List Int} : KeepsForms (reshapeShape op dims) := by
  intro inputs others out out' hforms hinfer hother
  obtain ⟨elem, axes, lens, rfl, hstandard, -⟩ := reshapeShape_eq_ok hinfer
  obtain ⟨elem', axes', lens', rfl, hstandard', -⟩ := reshapeShape_eq_ok hother
  -- Both inputs are standard, so they are the same shape.
  have hsame : Shape.strided elem' axes' = Shape.strided elem axes :=
    eq_of_form_eq_of_isStandard (List.cons.inj hforms).1 hstandard' hstandard
  rw [hsame, hinfer, Except.ok.injEq] at hother
  rw [hother]

theorem squeezeShape_sees : SeesForms (squeezeShape op axes) := by
  intro inputs others out hforms hinfer
  obtain ⟨elem, layout, rfl, hunits, rfl⟩ := squeezeShape_iff.1 hinfer
  obtain ⟨layout', rfl, hlens⟩ := eq_strided_of_forms hforms
  have hremoved : squeezedAxes (.strided elem layout) axes =
      squeezedAxes (.strided elem layout') axes := by
    simp only [squeezedAxes, lens_strided, hlens]
  have hkept (kept : Nat → Bool) (axes : Layout) :
      Layout.lens ((axes.zipIdx.filter fun entry => kept entry.2).map (·.1)) =
        (axes.lens.zipIdx.filter fun entry => kept entry.2).map (·.1) := by
    simp only [Layout.lens, zipIdx_map, filter_map, map_map]
    rfl
  rw [hremoved, ← hlens] at hunits
  refine ⟨_, squeezeShape_iff.2 ⟨elem, layout', rfl, hunits, rfl⟩, ?_⟩
  rw [form_strided_eq_iff, hremoved,
    hkept (fun i => !(squeezedAxes (.strided elem layout') axes).contains i),
    hkept (fun i => !(squeezedAxes (.strided elem layout') axes).contains i), hlens]
  exact ⟨rfl, rfl⟩

theorem insertUnits_lens {places : List Nat} {layout' widened widened' : Layout}
    (hlens : layout'.lens = layout.lens) (hrun : insertUnits axes places layout = .ok widened)
    (hother : insertUnits axes places layout' = .ok widened') : widened'.lens = widened.lens := by
  induction places generalizing layout layout' widened widened' with
  | nil =>
    cases hrun
    cases hother
    rfl
  | cons place places ih =>
    rcases insertUnits_cons_eq_ok hrun with
      ⟨hunit, _, inner, hinner, -, rfl⟩ | ⟨hother', next, rest, inner, rfl, hinner, rfl⟩
    · obtain ⟨-, _, inner', hinner', -, rfl⟩ | ⟨hnot, -⟩ := insertUnits_cons_eq_ok hother
      · rw [lens_cons, lens_cons, ih hlens hinner hinner']
      · exact absurd hunit hnot
    · obtain ⟨hunit, -⟩ | ⟨-, next', rest', inner', rfl, hinner', rfl⟩ :=
        insertUnits_cons_eq_ok hother
      · exact absurd hunit hother'
      · obtain ⟨hnext, hrest⟩ := List.cons.inj hlens
        rw [lens_cons, lens_cons, hnext, ih hrest hinner hinner']

theorem unsqueezeShape_form : KeepsForms (unsqueezeShape op axes) := by
  intro inputs others out out' hforms hinfer hother
  obtain ⟨elem, layout, widened, rfl, -, -, hwidened, rfl⟩ := unsqueezeShape_eq_ok hinfer
  obtain ⟨elem', layout', widened', rfl, -, -, hwidened', rfl⟩ := unsqueezeShape_eq_ok hother
  obtain ⟨rfl, hlens⟩ := form_strided_eq_iff.1 (List.cons.inj hforms).1
  have hlength : layout'.length = layout.length := by
    rw [← length_lens, hlens, length_lens]
  rw [hlength] at hwidened'
  exact form_strided_eq_iff.2 ⟨rfl, insertUnits_lens hlens hwidened hwidened'⟩

/-- Which ranges a slice selects depends on the lengths alone. -/
theorem sliceRanges_congr {t : Shape} {ranges : List AxisRange} (hlens : t.lens = s.lens)
    (hrun : sliceRanges op s axes starts ends = .ok ranges) :
    sliceRanges op t axes starts ends = .ok ranges := by
  unfold sliceRanges at hrun ⊢
  split_ifs at hrun ⊢
  · cases hrun
  · rw [mapM_eq_ok_iff] at hrun ⊢
    refine hrun.imp fun entry range hrange => ?_
    unfold sliceRange at hrange ⊢
    rw [hlens]
    cases hlen : s.lens[entry.1]? with
    | none =>
      simp only [hlen] at hrange
      cases hrange
    | some len => simpa only [hlen] using hrange

/-- Lengths after every range has cut its axis. -/
def cutLens (ranges : List AxisRange) (lens : List Nat) : List Nat :=
  ranges.foldl (fun lens range => lens.set range.axis (range.last - range.first)) lens

theorem lens_cut (ranges : List AxisRange) (layout : Layout) :
    (cutAxes ranges layout).lens = cutLens ranges layout.lens := by
  unfold cutLens cutAxes
  induction ranges generalizing layout with
  | nil => rfl
  | cons range ranges ih =>
    rw [foldl_cons, foldl_cons, ih]
    congr 1
    unfold Layout.lens
    refine ext_getElem? fun i => ?_
    rw [getElem?_map, getElem?_modify, getElem?_set, getElem?_map,
      Option.map_eq_map, Option.map_map]
    by_cases heq : range.axis = i
    · subst heq
      by_cases hbelow : range.axis < layout.length
      · simp [hbelow]
      · simp [hbelow]
    · simp [heq, Function.comp_def]

theorem sliceShape_sees : SeesForms (sliceShape op axes starts ends) := by
  intro inputs others out hforms hinfer
  obtain ⟨elem, layout, ranges, rfl, hranges, rfl⟩ := sliceShape_iff.1 hinfer
  obtain ⟨layout', rfl, hlens⟩ := eq_strided_of_forms hforms
  have hranges' := sliceRanges_congr (s := .strided elem layout) (t := .strided elem layout')
    hlens hranges
  refine ⟨_, sliceShape_iff.2 ⟨elem, layout', ranges, rfl, hranges', rfl⟩, ?_⟩
  rw [form_strided_eq_iff, lens_cut, lens_cut, hlens]
  exact ⟨rfl, rfl⟩

/-- Lengths of one rank, each of which stays or is one. -/
def Spreads (lens out : List Nat) : Prop := Forall₂ (fun len len' => len = len' ∨ len = 1) lens out

theorem exists_broadcastAxes?_iff (hlength : layout.length = lens.length) :
    (∃ inner, broadcastAxes? layout lens = some inner) ↔ Spreads layout.lens lens := by
  have haxis (axis : Axis) (len : Nat) :
      (∃ wide, broadcastAxis? axis len = some wide) ↔ axis.len = len ∨ axis.len = 1 := by
    unfold broadcastAxis?
    split_ifs <;> simp_all
  unfold broadcastAxes?
  simp only [mapM_eq_some_iff]
  rw [Spreads, Layout.lens, forall₂_map_left_iff, forall₂_iff_zip, and_iff_right hlength]
  constructor
  · rintro ⟨inner, hall⟩ axis len hmem
    obtain ⟨wide, -, hwide⟩ := exists_mem_right_of_forall₂ hall hmem
    exact (haxis axis len).1 ⟨wide, hwide⟩
  · intro hall
    exact exists_forall₂ fun pair hmem => (haxis pair.1 pair.2).2 (hall hmem)

theorem broadcastAxes?_lens (hlength : layout.length = lens.length)
    (hrun : broadcastAxes? layout lens = some inner) : inner.lens = lens := by
  have hlens : (layout.zip lens).map Prod.snd = inner.lens := by
    rw [← forall₂_eq_eq_eq, Layout.lens, forall₂_map_left_iff, forall₂_map_right_iff]
    refine (mapM_eq_some_iff.1 hrun).imp fun pair wide hwide => ?_
    change broadcastAxis? pair.1 pair.2 = some wide at hwide
    unfold broadcastAxis? at hwide
    split_ifs at hwide <;> cases hwide <;> rfl
  rw [← hlens, map_snd_zip (Nat.le_of_eq hlength.symm)]

theorem lens_broadcast (hrank : layout.length ≤ lens.length)
    (hinner : broadcastAxes? layout (lens.drop (lens.length - layout.length)) = some inner) :
    Layout.lens ((lens.take (lens.length - layout.length)).map (⟨·, 0⟩) ++ inner) = lens := by
  have hlens := broadcastAxes?_lens (by rw [length_drop]; omega) hinner
  rw [Layout.lens, map_append, ← Layout.lens, ← Layout.lens, hlens]
  simp [Layout.lens, Function.comp_def]

/-- A broadcast has the lengths that were asked for. -/
theorem broadcastShape_lens (hinfer : broadcastShape op lens inputs = .ok out) :
    out.lens = lens := by
  obtain ⟨elem, layout, inner, rfl, hrank, hinner, rfl⟩ := broadcastShape_iff.1 hinfer
  exact lens_broadcast hrank hinner

theorem broadcastShape_sees : SeesForms (broadcastShape op lens) := by
  intro inputs others out hforms hinfer
  have hout := broadcastShape_lens hinfer
  obtain ⟨elem, layout, inner, rfl, hrank, hinner, rfl⟩ := broadcastShape_iff.1 hinfer
  obtain ⟨layout', rfl, hlens⟩ := eq_strided_of_forms hforms
  have hspreads := (exists_broadcastAxes?_iff (by rw [length_drop]; omega)).1 ⟨inner, hinner⟩
  rw [← length_lens, ← hlens, length_lens] at hrank hspreads
  obtain ⟨inner', hinner'⟩ :=
    (exists_broadcastAxes?_iff (by rw [length_drop]; omega)).2 hspreads
  refine ⟨_, broadcastShape_iff.2 ⟨elem, layout', inner', rfl, hrank, hinner', rfl⟩, ?_⟩
  exact form_strided_eq_iff.2 ⟨rfl, (lens_broadcast hrank hinner').trans hout.symm⟩

theorem gatherShape_sees : SeesForms (gatherShape op axis) := by
  intro inputs others out hforms hinfer
  obtain ⟨elem, data, elem', picks, place, rfl, hplace, hout⟩ := gatherShape_iff.1 hinfer
  obtain ⟨data', picks', rfl, hdata, hpicks⟩ := eq_strided_two_of_forms hforms
  rw [← length_lens, ← hdata, length_lens] at hplace
  rw [← hdata, ← hpicks] at hout
  exact ⟨out, gatherShape_iff.2 ⟨elem, data', elem', picks', place, rfl, hplace, hout⟩, rfl⟩

/-! ## Joins and modules -/

/-- Where a join happens, and its lengths, depend on the forms of the parts. -/
theorem joinLens_congr {place place' : Nat} {lens' : List Nat}
    (hforms : parts'.map Shape.form = parts.map Shape.form)
    (hjoin : joinLens op parts axis = .ok (place, lens))
    (hother : joinLens op parts' axis = .ok (place', lens')) : place' = place ∧ lens' = lens := by
  obtain ⟨first, rest, rfl, -, hplace, -, -, rfl⟩ := joinLens_eq_ok_iff.1 hjoin
  obtain ⟨first', rest', rfl, -, hplace', -, -, rfl⟩ := joinLens_eq_ok_iff.1 hother
  have hfirst : first'.form = first.form := (List.cons.inj hforms).1
  have hrank : first'.rank = first.rank := by simpa using congrArg Shape.rank hfirst
  have hlengths (parts : List Shape) : parts.map (·.lens.getD place 0) =
      (parts.map Shape.form).map (·.lens.getD place 0) := by simp [Function.comp_def]
  rw [hrank, hplace, Except.ok.injEq] at hplace'
  rw [← hplace', lens_congr hfirst, hlengths (first' :: rest'), hforms, ← hlengths]
  exact ⟨rfl, rfl⟩

theorem concatShape_form : KeepsForms (concatShape op axis) := by
  intro inputs others out out' hforms hinfer hother
  obtain ⟨first, rest, place, lens, rfl, -, hjoin, hdense⟩ := concatShape_eq_ok hinfer
  obtain ⟨first', rest', place', lens', rfl, -, hjoin', hdense'⟩ := concatShape_eq_ok hother
  obtain ⟨-, rfl⟩ := joinLens_congr hforms hjoin hjoin'
  rw [elem_congr (List.cons.inj hforms).1] at hdense'
  exact hdense'.form_eq hdense

theorem pointwiseShape_form : KeepsForms (pointwiseShape op · modules) := by
  intro inputs others out out' hforms hinfer hother
  obtain ⟨module, elem, rfl, -, helem, hout⟩ := pointwiseShape_eq_ok hinfer
  obtain ⟨_, elem', hmodules, -, helem', hout'⟩ := pointwiseShape_eq_ok hother
  cases hmodules
  rw [helem, Except.ok.injEq] at helem'
  subst helem'
  refine elementwiseShape_form ?_ hout hout'
  have hretyped := congrArg (List.map (Shape.withElem · elem)) hforms
  simpa only [map_map, Function.comp_def, ← form_withElem] using hretyped

theorem mapM_fetch_forms {ranges : List (Nat × Nat)}
    (hforms : others.map Shape.form = inputs.map Shape.form)
    (hparts : ranges.mapM (fun (start, _) => fetch inputs start) = .ok parts)
    (hparts' : ranges.mapM (fun (start, _) => fetch others start) = .ok parts') :
    parts'.map Shape.form = parts.map Shape.form := by
  rw [mapM_eq_ok_iff] at hparts hparts'
  induction hparts generalizing parts' with
  | nil =>
    cases hparts'
    rfl
  | @cons range part ranges parts hpart _ ih =>
    obtain ⟨part', rest', hpart', hrest', rfl⟩ := forall₂_cons_left_iff.1 hparts'
    rw [map_cons, map_cons, ih hrest']
    have hat := congrArg (·[range.1]?) hforms
    simp only [getElem?_map, fetch_eq_ok_iff.1 hpart,
      fetch_eq_ok_iff.1 hpart', Option.map_some, Option.some.injEq] at hat
    rw [hat]

theorem fusedConcatShape_form : KeepsForms (fusedConcatShape op axis · modules) := by
  intro inputs others out out' hforms hinfer hother
  obtain ⟨plan, parts, place, lens, post, elem, hplan, hparts, hjoin, hpost, helem, hdense⟩ :=
    fusedConcatShape_eq_ok hinfer
  obtain ⟨plan', parts', place', lens', post', elem', hplan', hparts', hjoin', hpost', helem',
    hdense'⟩ := fusedConcatShape_eq_ok hother
  have hlength : others.length = inputs.length := by simpa using congrArg List.length hforms
  rw [hlength, hplan, Except.ok.injEq] at hplan'
  subst hplan'
  rw [hpost, Option.some.injEq] at hpost'
  subst hpost'
  rw [helem, Except.ok.injEq] at helem'
  subst helem'
  have hpartForms := mapM_fetch_forms hforms hparts hparts'
  obtain ⟨-, rfl⟩ := joinLens_congr hpartForms hjoin hjoin'
  exact hdense'.form_eq hdense

theorem tupleElemShape_sees {index : Nat} : SeesForms (tupleElemShape op index) := by
  intro inputs others out hforms hinfer
  obtain ⟨elem, parts, rfl, hpart⟩ := tupleElemShape_iff.1 hinfer
  obtain ⟨t, rfl, hform⟩ := eq_singleton_of_forms hforms
  cases t with
  | strided elem' layout => cases hform
  | ranged elem' dims => cases hform
  | tuple elem' parts' =>
    have hparts := congrArg (·.parts[index]?) hform
    simp only [parts_form, getElem?_map] at hparts
    obtain ⟨part', hpart', heq⟩ := Option.map_eq_some_iff.1
      (hparts.trans (congrArg (Option.map form) hpart))
    exact ⟨part', tupleElemShape_iff.2 ⟨elem', parts', rfl, hpart'⟩, heq⟩

end Inference

namespace Operator

open Inference

theorem contiguousShape_sees {op : String} : SeesForms (contiguousShape op) := by
  intro inputs others out hforms hinfer
  obtain ⟨s, rfl, htuple, hs⟩ := contiguousShape_iff.1 hinfer
  obtain ⟨t, rfl, hform⟩ := eq_singleton_of_forms hforms
  rw [← isTuple_form, ← hform, isTuple_form] at htuple
  obtain ⟨out', hout'⟩ : ∃ out', t.asStandard = .ok out' := by
    cases t with
    | strided elem axes =>
      obtain ⟨layout, rfl, hlens⟩ := exists_strided_of_form_eq hform.symm
      exact ⟨out, (congrArg (Shape.standard elem) hlens).symm.trans hs⟩
    | ranged elem dims => exact ⟨_, rfl⟩
    | tuple elem parts => cases htuple
  refine ⟨out', contiguousShape_iff.2 ⟨t, rfl, htuple, hout'⟩, ?_⟩
  rw [form_asStandard hs, form_asStandard hout', hform]

/-- What inference gives for two lists of inputs of the same forms has one form, if it gives
anything for both. -/
theorem infer_form {α : Type} {op : Operator α} {modules : List Signature} :
    KeepsForms (op.infer · modules) := by
  intro inputs others out out' hforms hinfer hother
  cases op with
  | parameter name shape | literal value =>
    obtain ⟨_, -, hpure⟩ := bind_eq_ok_iff.1 hinfer
    obtain ⟨_, -, hpure'⟩ := bind_eq_ok_iff.1 hother
    cases hpure
    cases hpure'
    rfl
  | returns =>
    cases hinfer
    cases hother
    rw [form_ofParts, form_ofParts, hforms]
  | identity =>
    obtain rfl := oneInput_iff.1 hinfer
    obtain rfl := oneInput_iff.1 hother
    exact (List.cons.inj hforms).1
  | contiguous => exact contiguousShape_sees.keeps hforms hinfer hother
  | unary fn => exact unaryShape_form hforms hinfer hother
  | binary fn =>
    obtain ⟨a, b, rfl, hout⟩ := binaryShape_eq_ok hinfer
    obtain ⟨a', b', rfl, hout'⟩ := binaryShape_eq_ok hother
    exact elementwiseShape_form hforms hout hout'
  | reduceSum axes => exact reduceSumShape_sees.keeps hforms hinfer hother
  | dot => exact dotShape_sees.keeps hforms hinfer hother
  | transpose order => exact transposeShape_form hforms hinfer hother
  | reshape dims => exact reshapeShape_form hforms hinfer hother
  | squeeze axes => exact squeezeShape_sees.keeps hforms hinfer hother
  | unsqueeze axes => exact unsqueezeShape_form hforms hinfer hother
  | slice axes starts ends => exact sliceShape_sees.keeps hforms hinfer hother
  | broadcast lens => exact broadcastShape_sees.keeps hforms hinfer hother
  | gather axis => exact gatherShape_sees.keeps hforms hinfer hother
  | concat axis => exact concatShape_form hforms hinfer hother
  | pointwise => exact pointwiseShape_form hforms hinfer hother
  | fusedConcat axis => exact fusedConcatShape_form hforms hinfer hother
  | scan iterations scanInputs stateVars =>
    obtain ⟨body, rfl, rfl⟩ := scanShape_eq_ok hinfer
    obtain ⟨_, hmodules, rfl⟩ := scanShape_eq_ok hother
    cases hmodules
    rfl
  | tupleElem index => exact tupleElemShape_sees.keeps hforms hinfer hother

end Operator

end TensorGraph
