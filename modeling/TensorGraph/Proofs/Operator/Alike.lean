import TensorGraph.Proofs.Operator.Formulas

/-!
# Independence of the layout

On tensors with the same reading an operator gives results with the same reading. It may still fault on
the one and not on the other.
-/

namespace TensorGraph

open Inference List Shape Tensor

variable {α : Type} [Scalar α] {elem : ElementType} {index : Nat} {f : List Nat → α}

namespace Tensor

variable {t : Tensor α}

/-- Strided tensors with the same reading, or the same tuple. -/
inductive Alike : Tensor α → Tensor α → Prop
  | strided {elem elem' : ElementType} {axes axes' : Layout} {data data' : Array α}
      (hreading : (Tensor.strided elem axes data).reading =
        (Tensor.strided elem' axes' data').reading) :
      Alike (.strided elem axes data) (.strided elem' axes' data')
  | tuple {parts : List (Tensor α)} : Alike (.tuple parts) (.tuple parts)

namespace Alike

variable {t u : Tensor α}

theorem refl (t : Tensor α) : Alike t t := by
  cases t with
  | strided elem axes data => exact .strided rfl
  | tuple parts => exact .tuple

theorem symm (halike : Alike t u) : Alike u t := by
  cases halike with
  | strided hreading => exact .strided hreading.symm
  | tuple => exact .tuple

theorem trans {v : Tensor α} (hfirst : Alike t u) (hsecond : Alike u v) : Alike t v := by
  cases hfirst with
  | strided hreading =>
    cases hsecond with
    | strided hreading' => exact .strided (hreading.trans hreading')
  | tuple => exact hsecond

theorem reading_eq (halike : Alike t u) : t.reading = u.reading := by
  cases halike with
  | strided hreading => exact hreading
  | tuple => rfl

theorem elem_eq (halike : Alike t u) : t.shape.elem = u.shape.elem :=
  congrArg Reading.elem halike.reading_eq

theorem lens_eq (halike : Alike t u) : t.lens = u.lens :=
  congrArg Reading.lens halike.reading_eq

theorem form_eq (halike : Alike t u) : u.shape.form = t.shape.form := by
  have helem := halike.elem_eq
  have hlens := halike.lens_eq
  cases halike with
  | strided _ => exact form_strided_eq_iff.2 ⟨helem.symm, hlens.symm⟩
  | tuple => rfl

theorem exists_strided (halike : Alike t u) {axes : Layout} (hshape : t.shape = .strided elem axes)
    :
    ∃ axes', u.shape = .strided elem axes' ∧ axes'.lens = axes.lens := by
  have helem := halike.elem_eq
  have hlens := halike.lens_eq
  cases halike with
  | @strided _ _ _ axes' =>
    cases hshape
    cases helem
    exact ⟨axes', rfl, hlens.symm⟩
  | tuple => cases hshape

/-- Tensors that hold the same entries in shapes of one form. -/
theorem of_holds {out out' : Shape} (hholds : t.Holds out f)
    (hholds' : u.Holds out' f) (hform : out'.form = out.form) : Alike t u := by
  have hreading : t.reading = u.reading := by
    rw [hholds.reading_eq, hholds'.reading_eq]
    refine Reading.of_congr ?_ ?_ fun _ _ => rfl
    · rw [← elem_form out, ← hform, elem_form]
    · rw [← lens_form out, ← hform, lens_form]
  obtain ⟨elem, axes, rfl⟩ := hholds.strided
  obtain ⟨elem', axes', rfl⟩ := hholds'.strided
  rw [eq_strided_of_shape hholds.shape_eq, eq_strided_of_shape hholds'.shape_eq] at hreading ⊢
  exact .strided hreading

end Alike

/-- Alike tensors whose buffers are long enough. -/
structure Twin (t u : Tensor α) : Prop where
  alike : t.Alike u
  valid : t.Valid
  valid' : u.Valid

theorem Twin.refl (hvalid : t.Valid) : t.Twin t := ⟨.refl t, hvalid, hvalid⟩

theorem Twin.symm {u : Tensor α} (htwin : t.Twin u) : u.Twin t :=
  ⟨htwin.alike.symm, htwin.valid', htwin.valid⟩

theorem Twin.trans {u v : Tensor α} (hfirst : t.Twin u) (hsecond : u.Twin v) : t.Twin v :=
  ⟨hfirst.alike.trans hsecond.alike, hfirst.valid, hsecond.valid'⟩

/-- Relations that compare strided tensors by their readings, and tuples component by component. -/
structure Componentwise (related : Tensor α → Tensor α → Prop) : Prop where
  of_twin : ∀ {t u}, t.Twin u → related t u
  /-- Strided tensors are related to their twins only. -/
  twin : ∀ {t u elem axes}, related t u → t.shape = .strided elem axes → t.Twin u
  /-- Tuples are related to tuples of related components. -/
  tuple : ∀ {t parts'}, related t (.tuple parts') → ∃ parts, t = .tuple parts ∧
    Forall₂ related parts parts'

theorem Componentwise.of_twins : Componentwise (@Twin α _) where
  of_twin htwin := htwin
  twin htwin _ := htwin
  tuple := by
    rintro t parts' ⟨halike, hvalid, -⟩
    cases halike
    cases hvalid with
    | tuple hparts => exact ⟨_, rfl, forall₂_same.2 fun part hmem => .refl (hparts part hmem)⟩

theorem Componentwise.twins {related : Tensor α → Tensor α → Prop} (hrelated : Componentwise related)
    {inputs others : List (Tensor α)} (hall : Forall₂ related inputs others)
    (hstrided : ∀ a ∈ inputs, ∃ elem axes, a.shape = .strided elem axes) :
    Forall₂ Twin inputs others := by
  refine forall₂_imp_mem hall fun a hmem b hpair => ?_
  obtain ⟨elem, axes, hshape⟩ := hstrided a hmem
  exact hrelated.twin hpair hshape

section Lists

variable {inputs others : List (Tensor α)} (htwins : Forall₂ Twin inputs others)

include htwins

theorem forall₂_alike_of_twins : Forall₂ Alike inputs others :=
  htwins.imp fun _ _ htwin => htwin.alike

theorem valid_of_twins : ∀ a ∈ inputs, a.Valid := by
  intro a hmem
  obtain ⟨b, -, htwin⟩ := exists_mem_right_of_forall₂ htwins hmem
  exact htwin.valid

theorem valid_of_twins' : ∀ b ∈ others, b.Valid := by
  intro b hmem
  obtain ⟨a, -, htwin⟩ := exists_mem_right_of_forall₂ htwins.flip hmem
  exact htwin.valid'

end Lists

theorem map_reading_eq {inputs others : List (Tensor α)} (halike : Forall₂ Alike inputs others) :
    others.map reading = inputs.map reading := by
  induction halike with
  | nil => rfl
  | cons hfirst _ ih => rw [map_cons, map_cons, ih, hfirst.reading_eq]

theorem map_form_eq {inputs others : List (Tensor α)} (halike : Forall₂ Alike inputs others) :
    (shapes others).map Shape.form = (shapes inputs).map Shape.form := by
  induction halike with
  | nil => rfl
  | cons hfirst _ ih => rw [shapes, shapes, map_cons, map_cons, ih, hfirst.form_eq]

end Tensor

/-- Computations of the same entries in shapes of one form give twins. -/
theorem Computes.twin {ε : Type} {computed computed' : Except ε (Tensor α)}
    {t : Tensor α} {fits fits' sure : Prop} {out out' : Shape}
    (hcomputes : Computes computed fits out f) (hcomputes' : Computes computed' fits' out' f)
    (hform : out'.form = out.form) (hfits : sure → fits → fits') (hrun : computed = .ok t) :
    Delivers sure (fun u => t.Twin u ∧ u.shape = out') computed' := by
  have hholds := hcomputes.holds hrun
  constructor
  · intro u hrun'
    have hholds' := hcomputes'.holds hrun'
    exact ⟨⟨.of_holds hholds hholds' hform, hholds.valid, hholds'.valid⟩, hholds'.shape_eq⟩
  · intro hsure
    exact hcomputes'.exists_iff.2 (hfits hsure (hcomputes.exists_iff.1 ⟨t, hrun⟩))

namespace Operator

/-- Where a change of layout cannot make the difference between a value and a fault. -/
def Roomy (op : Operator α) (lens : List Nat) : Prop :=
  match op with
  | .slice .. | .pointwise => 0 ∉ lens
  | .contiguous => volume lens ≤ largestListing
  | _ => True

instance (op : Operator α) (lens : List Nat) : Decidable (op.Roomy lens) :=
  decidable_of_iff ((match op with
    | .slice .. | .pointwise => decide (0 ∉ lens)
    | .contiguous => decide (volume lens ≤ largestListing)
    | _ => true) = true) (by cases op <;> simp [Roomy])

variable {op : Operator α} {inputs others : List (Tensor α)} {signatures : List Signature}
  {out : Shape}

/-- Where there is room for the result on some inputs there is room on alike ones. -/
theorem Fits.of_alike (hproper : op.Proper) (hroomy : op.Roomy out.lens)
    (hvalid : ∀ a ∈ others, a.Valid) (halike : Forall₂ Tensor.Alike inputs others)
    (hinfer : op.infer (Tensor.shapes others) signatures = .ok out)
    (hfits : op.Fits out.lens inputs) : op.Fits out.lens others := by
  cases op with
  | contiguous =>
    obtain ⟨s, hs, -, -⟩ := contiguousShape_iff.1 hinfer
    obtain ⟨a, rfl, -⟩ := exists_of_shapes_eq_one hs
    exact .inr hroomy
  | slice axes starts ends =>
    obtain ⟨elem, layout, ranges, hs, hranges, rfl⟩ := sliceShape_iff.1 hinfer
    obtain ⟨a, rfl, hshape⟩ := exists_of_shapes_eq_one hs
    intro ranges' hranges'
    rw [hshape] at hranges' ⊢
    cases hranges.symm.trans hranges'
    obtain ⟨rfl, hinside⟩ := sliceRanges_eq_ok hranges
    have hself := hvalid a mem_cons_self
    rw [eq_strided_of_shape hshape] at hself
    obtain ⟨n, hspace, -⟩ := hself.exists_space
    have hpos : 0 ∉ cutLens ranges layout.lens := by
      rw [← lens_cut]
      exact hroomy
    exact Nat.lt_trans (sliceStart_lt hspace hproper hinside hpos) (Layout.space_lt hspace)
  | gather axis =>
    obtain ⟨elem, xs, elem', ys, place, hs, hplace, hrun⟩ := gatherShape_iff.1 hinfer
    obtain ⟨b, picks', rfl, hxs, hys⟩ := exists_of_shapes_eq_two hs
    obtain ⟨a, _, hfirst, hrest, rfl⟩ := forall₂_cons_right_iff.1 halike
    obtain ⟨picks, rfl, hsecond⟩ := exists_of_forall₂_one hrest.flip
    rw [Fits] at hfits ⊢
    rwa [← hfirst.reading_eq, ← hsecond.reading_eq, ← hfirst.lens_eq]
  | dot | unary | binary | reduceSum | concat => exact hfits
  | transpose | reshape | squeeze | unsqueeze | broadcast => trivial
  | parameter | literal | returns | identity | pointwise | fusedConcat | scan | tupleElem => trivial

/-- What alike inputs are given, from what is given on some inputs. -/
theorem evaluate_alike_of_formula {modules : List (Callable α)} {out' : Shape} {t : Tensor α}
    (hformula : op.hasFormula = true) (hproper : op.Proper)
    (htwins : Forall₂ Tensor.Twin inputs others)
    (hinfer : op.infer (Tensor.shapes inputs) signatures = .ok out)
    (hinfer' : op.infer (Tensor.shapes others) signatures = .ok out')
    (hrun : op.evaluate out inputs modules = .ok t) :
    Delivers (op.Roomy t.lens) (fun u => t.Twin u ∧ u.shape = out')
      (op.evaluate out' others modules) := by
  have halike := forall₂_alike_of_twins htwins
  have hvalid' := valid_of_twins' htwins
  have hform := infer_form (map_form_eq halike) hinfer hinfer'
  have hlens : out'.lens = out.lens := by
    rw [← lens_form out', hform, lens_form]
  have hfollows := followsFormula_of_infer modules hformula hproper
    (valid_of_twins htwins) hinfer
  have hfollows' := followsFormula_of_infer modules hformula hproper hvalid' hinfer'
  rw [FollowsFormula, ← hlens] at hfollows
  rw [FollowsFormula, map_reading_eq halike] at hfollows'
  refine hfollows.twin hfollows' hform (fun hroomy hfits => ?_) hrun
  rw [Tensor.lens, (hfollows.holds hrun).shape_eq, ← hlens] at hroomy
  exact Fits.of_alike hproper hroomy hvalid' halike hinfer' hfits

end Operator

/-! ## Modules on whole tensors -/

/-- Alike tensors of these lengths, with buffers that are long enough. -/
structure Tensor.TwinAt (lens : List Nat) (t u : Tensor α) : Prop extends t.Twin u where
  strided : ∃ elem axes, t.shape = .strided elem axes ∧ axes.lens = lens

/-- A module gives alike results of the same lengths on alike arguments of one list of lengths. -/
def Callable.Steady (c : Callable α) : Prop :=
  ∀ ⦃lens args args' t⦄, Forall₂ (Tensor.TwinAt lens) args args' → c.call args = .ok t →
    Delivers (0 ∉ lens) (Tensor.TwinAt lens t) (c.call args')

variable {v : Tensor α} {elem' : ElementType} {axes : Layout}

theorem Evaluation.computes_relaid (hvalid : v.Valid) {out : Shape}
    (hshape : v.shape = .strided elem axes) (hdense : out.IsDense elem' axes.lens) :
    Computes (relaid out v) (volume axes.lens ≤ Tensor.largestBuffer) out v.reading.value :=
  computes_tabulate hdense fun _ hrange => hvalid.get_eq hshape hrange

/-- Twins that are laid out anew, each in a dense shape, give twins. -/
theorem Evaluation.relaid_twin {lens : List Nat} {v' : Tensor α} (htwin : v.TwinAt lens v')
    {out out' : Shape} (hdense : out.IsDense elem lens) (hdense' : out'.IsDense elem lens)
    {t : Tensor α} (hrun : relaid out v = .ok t) (ε : Type) (sure : Prop) :
    Delivers sure (fun u => t.Twin u ∧ u.shape = out') (liftM (relaid out' v') : Outcome ε _) := by
  obtain ⟨own, axes, hshape, rfl⟩ := htwin.strided
  obtain ⟨axes', hshape', haxes'⟩ := htwin.alike.exists_strided hshape
  have hcomputes' := computes_relaid htwin.valid' hshape' (haxes' ▸ hdense')
  rw [← htwin.alike.reading_eq, haxes'] at hcomputes'
  exact (computes_relaid htwin.valid hshape hdense).lift.twin hcomputes'.lift
    (hdense'.form_eq hdense) (fun _ hfits => hfits) (Outcome.lift_eq_ok_iff.2 hrun)

theorem Shape.isDynamic_withElem (s : Shape) (elem : ElementType) :
    (s.withElem elem).isDynamic = s.isDynamic := by
  cases s <;> rfl

theorem Shape.exists_of_withElem_eq {s : Shape} (heq : s.withElem elem = .strided elem' axes) :
    ∃ own, s = .strided own axes := by
  cases s with
  | strided own axes => cases heq; exact ⟨own, rfl⟩
  | ranged own dims => cases heq
  | tuple own parts => cases heq

namespace Operator

variable {inputs others : List (Tensor α)} {t : Tensor α} {out out' : Shape}
  {modules : List (Callable α)} {signature : Signature} {op : Operator α}
  {signatures : List Signature}

omit [Scalar α] in
/-- The inputs of an elementwise module have the lengths of the result, which has the element type of
the module. -/
theorem pointwise_lens
    (hinfer : (pointwise : Operator α).infer (Tensor.shapes inputs) [signature] = .ok out) :
    (∃ elem, moduleElem (pointwise : Operator α).name signature = .ok elem ∧
        out.IsDense elem out.lens) ∧
      ∀ a ∈ inputs, ∃ elem axes, a.shape = .strided elem axes ∧ axes.lens = out.lens := by
  have hshape : pointwiseShape _ (Tensor.shapes inputs) [signature] = .ok out := hinfer
  obtain ⟨_, elem, hmodules, -, helem, hrun⟩ := pointwiseShape_eq_ok hshape
  cases hmodules
  rw [shapes_eq_map, map_map] at hrun
  obtain ⟨first, rest, hinputs, hsame, hdense⟩ :=
    elementwiseShape_static (by simp [isDynamic_withElem, isDynamic_shape]) hrun
  have hfirst : first.elem = elem := by
    have hmem : first ∈ inputs.map ((·.withElem elem) ∘ Tensor.shape) := hinputs ▸ mem_cons_self
    obtain ⟨a, -, rfl⟩ := mem_map.1 hmem
    rw [Function.comp_apply]
    cases a.shape <;> rfl
  rw [hdense.lens_eq]
  refine ⟨⟨elem, helem, hfirst ▸ hdense⟩, fun a hmem => ?_⟩
  obtain ⟨axes', hshape, hlens'⟩ := hsame _ (mem_map_of_mem hmem)
  obtain ⟨elem', hstrided⟩ := exists_of_withElem_eq hshape
  exact ⟨elem', axes', hstrided, hlens'⟩

/-- Twins of the inputs of an elementwise module are twins of one list of lengths. -/
theorem pointwise_twinAt (htwins : Forall₂ Tensor.Twin inputs others)
    (hinfer : (pointwise : Operator α).infer (Tensor.shapes inputs) [signature] = .ok out) :
    Forall₂ (Tensor.TwinAt out.lens) inputs others :=
  forall₂_imp_mem htwins fun a hmem _ htwin => ⟨htwin, (pointwise_lens hinfer).2 a hmem⟩

theorem pointwise_alike {c : Callable α} (htwins : Forall₂ Tensor.Twin inputs others)
    (hsteady : c.Steady)
    (hinfer : (pointwise : Operator α).infer (Tensor.shapes inputs) [c.signature] = .ok out)
    (hinfer' : (pointwise : Operator α).infer (Tensor.shapes others) [c.signature] = .ok out')
    (hrun : pointwise.evaluate out inputs [c] = .ok t) :
    Delivers (0 ∉ t.lens) (fun u => t.Twin u ∧ u.shape = out')
      (pointwise.evaluate out' others [c]) := by
  have halike := forall₂_alike_of_twins htwins
  have hform := infer_form (map_form_eq halike) hinfer hinfer'
  have hlens : out'.lens = out.lens := by
    rw [← lens_form out', hform, lens_form]
  obtain ⟨⟨elem, helem, hdense⟩, -⟩ := pointwise_lens hinfer
  obtain ⟨⟨elem', helem', hdense'⟩, -⟩ := pointwise_lens hinfer'
  cases helem.symm.trans helem'
  rw [hlens] at hdense'
  change (c.call inputs >>= fun v => liftM (Evaluation.relaid out v)) = .ok t at hrun
  change Delivers _ _ (c.call others >>= fun v => liftM (Evaluation.relaid out' v))
  obtain ⟨v, hcall, hrelaid⟩ := bind_eq_ok_iff.1 hrun
  rw [Outcome.lift_eq_ok_iff] at hrelaid
  obtain ⟨_, _, _, -, -, -, htshape, -⟩ := tabulate_eq_ok hrelaid
  rw [Tensor.lens, htshape]
  apply (hsteady (pointwise_twinAt htwins hinfer) hcall).bind
  intro v' htwin
  exact Evaluation.relaid_twin htwin hdense hdense' hrelaid _ _

/-! ## All operators -/

omit [Scalar α] in
theorem exists_strided_of_isTuple (htuple : t.shape.isTuple = false) :
    ∃ elem axes, t.shape = .strided elem axes := by
  cases t with
  | strided elem axes data => exact ⟨elem, axes, rfl⟩
  | tuple parts => cases htuple

/-- A proper operator with no modules, or with steady ones that are run on whole tensors. -/
structure Tame (op : Operator α) (modules : List (Callable α)) : Prop where
  proper : op.Proper
  modules : modules = [] ∨ op.isPointwise = true ∧ ∀ c ∈ modules, c.Steady

theorem Proper.tame (hproper : op.Proper) : op.Tame [] := ⟨hproper, .inl rfl⟩

/-- Whether the operator can give a value without modules, or with one that is run on whole tensors. -/
def isBasic : Operator α → Bool
  | .parameter .. | .returns | .fusedConcat _ | .scan .. => false
  | _ => true

/-- Fused joins need modules, loops need a body, and parameters are not applied. -/
theorem Tame.isBasic (htame : op.Tame modules) (hrun : op.apply inputs modules = .ok t) :
    op.isBasic = true := by
  obtain ⟨out, hinfer, hevaluate⟩ := apply_eq_ok_iff.1 hrun
  have hbare := htame.modules.imp_right And.left
  cases op with
  | parameter | returns => cases hevaluate
  | fusedConcat axis =>
    obtain rfl := hbare.resolve_right Bool.false_ne_true
    have hfused : fusedConcatShape _ axis (Tensor.shapes inputs) [] = .ok out := hinfer
    obtain ⟨_, _, _, _, _, _, -, -, -, hlast, -⟩ := fusedConcatShape_eq_ok hfused
    cases hlast
  | scan =>
    obtain rfl := hbare.resolve_right Bool.false_ne_true
    obtain ⟨_, hbody, -⟩ := scanShape_eq_ok hinfer
    cases hbody
  | _ => rfl

omit [Scalar α] in
/-- Operators with a formula take no tuples. -/
theorem strided_of_infer (hformula : op.hasFormula = true)
    (hinfer : op.infer (Tensor.shapes inputs) signatures = .ok out) :
    ∀ a ∈ inputs, ∃ elem axes, a.shape = .strided elem axes := by
  have hone {elem : ElementType} {axes : Layout}
      (hs : Tensor.shapes inputs = [.strided elem axes]) :
      ∀ a ∈ inputs, ∃ elem axes, a.shape = .strided elem axes := by
    obtain ⟨a, rfl, hshape⟩ := exists_of_shapes_eq_one hs
    simpa using ⟨elem, axes, hshape⟩
  have htwo {elem elem' : ElementType} {axes axes' : Layout}
      (hs : Tensor.shapes inputs = [.strided elem axes, .strided elem' axes']) :
      ∀ a ∈ inputs, ∃ elem axes, a.shape = .strided elem axes := by
    obtain ⟨a, b, rfl, hshape, hshape'⟩ := exists_of_shapes_eq_two hs
    simpa using ⟨⟨elem, axes, hshape⟩, ⟨elem', axes', hshape'⟩⟩
  have hall (hstrided : ∀ s ∈ Tensor.shapes inputs, ∃ elem axes, s = .strided elem axes) :
      ∀ a ∈ inputs, ∃ elem axes, a.shape = .strided elem axes := by
    intro a hmem
    exact hstrided _ (shapes_eq_map inputs ▸ mem_map_of_mem hmem)
  cases op with
  | contiguous =>
    obtain ⟨s, hs, htuple, -⟩ := contiguousShape_iff.1 hinfer
    obtain ⟨a, rfl, rfl⟩ := exists_of_shapes_eq_one hs
    simpa using exists_strided_of_isTuple htuple
  | unary fn =>
    obtain ⟨a, elem, axes, rfl, hshape, -⟩ := unaryShape_static hinfer
    simpa using ⟨elem, axes, hshape⟩
  | binary fn =>
    obtain ⟨a, b, elem, xs, ys, rfl, hxs, hys, -⟩ := binaryShape_static hinfer
    simpa using ⟨⟨elem, xs, hxs⟩, ⟨elem, ys, hys⟩⟩
  | reduceSum axes =>
    obtain ⟨elem, layout, hs, -⟩ := reduceSumShape_iff.1 hinfer
    exact hone hs
  | dot =>
    obtain ⟨elem, a, b, _, _, _, _, hs, -⟩ := dotShape_iff.1 hinfer
    exact htwo hs
  | transpose order =>
    obtain ⟨a, elem, axes, _, rfl, hshape, -⟩ := transposeShape_static hinfer
    simpa using ⟨elem, axes, hshape⟩
  | reshape dims =>
    obtain ⟨elem, axes, lens, hs, -⟩ := reshapeShape_eq_ok hinfer
    exact hone hs
  | squeeze axes =>
    obtain ⟨elem, layout, hs, -⟩ := squeezeShape_iff.1 hinfer
    exact hone hs
  | unsqueeze axes =>
    obtain ⟨elem, layout, widened, hs, -⟩ := unsqueezeShape_eq_ok hinfer
    exact hone hs
  | slice axes starts ends =>
    obtain ⟨elem, layout, ranges, hs, -⟩ := sliceShape_iff.1 hinfer
    exact hone hs
  | broadcast lens =>
    obtain ⟨elem, layout, inner, hs, -⟩ := broadcastShape_iff.1 hinfer
    exact hone hs
  | gather axis =>
    obtain ⟨elem, data, elem', picks, place, hs, -⟩ := gatherShape_iff.1 hinfer
    exact htwo hs
  | concat axis =>
    obtain ⟨_, _, place, lens, -, -, hjoin, -⟩ := concatShape_eq_ok hinfer
    obtain ⟨_, _, -, hstrided, -⟩ := joinLens_eq_ok_iff.1 hjoin
    exact hall hstrided
  | _ => cases hformula

variable {related : Tensor α → Tensor α → Prop}

omit [Scalar α] in
/-- What there is to take out of a tuple. -/
theorem exists_component {signatures : List Signature}
    (hinfer : (tupleElem index : Operator α).infer (Tensor.shapes inputs) signatures = .ok out) :
    ∃ parts part, inputs = [.tuple parts] ∧ parts[index]? = some part ∧ part.shape = out := by
  obtain ⟨elem, shapes, hs, hout⟩ := tupleElemShape_iff.1 hinfer
  obtain ⟨a, rfl, hshape⟩ := exists_of_shapes_eq_one hs
  cases a with
  | strided => cases hshape
  | tuple parts =>
    cases hshape
    rw [shapes_eq_map, getElem?_map, Option.map_eq_some_iff] at hout
    obtain ⟨part, hpart, hout⟩ := hout
    exact ⟨parts, part, rfl, hpart, hout⟩

theorem tupleElem_eq_ok_iff {a : Tensor α} :
    (tupleElem index).evaluate out [a] modules = .ok t ↔ a.parts[index]? = some t := by
  change Evaluation.tupleElemValue _ index a = .ok t ↔ _
  unfold Evaluation.tupleElemValue
  cases a.parts[index]? <;> simp [Evaluation.flawed, Outcome.refuse]

theorem tupleElem_related (hrelated : Tensor.Componentwise related)
    (hall : Forall₂ related inputs others)
    (hinfer' : (tupleElem index : Operator α).infer (Tensor.shapes others) signatures = .ok out')
    (hrun : (tupleElem index).evaluate out inputs modules = .ok t) :
    Delivers True (fun u => related t u ∧ u.shape = out')
      ((tupleElem index).evaluate out' others modules) := by
  obtain ⟨parts', part', rfl, hpart', rfl⟩ := exists_component hinfer'
  obtain ⟨a, rfl, hpair⟩ := exists_of_forall₂_one hall.flip
  obtain ⟨parts, rfl, hparts⟩ := hrelated.tuple hpair
  obtain ⟨part, hpart, hpair⟩ := exists_getElem?_of_forall₂ hparts hpart'
  cases hpart.symm.trans (tupleElem_eq_ok_iff.1 hrun)
  rw [tupleElem_eq_ok_iff.2 hpart']
  exact .ok ⟨hpair, rfl⟩

/-- On related inputs an operator gives related results, in the shape that is inferred. -/
theorem apply_related (hrelated : Tensor.Componentwise related) (htame : op.Tame modules)
    (hall : Forall₂ related inputs others)
    (hinfer' : op.infer (Tensor.shapes others) (modules.map Callable.signature) = .ok out')
    (happly : op.apply inputs modules = .ok t) :
    Delivers (op.Roomy t.lens) (fun u => related t u ∧ u.shape = out') (op.apply others modules) := by
  obtain ⟨out, hinfer, hrun⟩ := apply_eq_ok_iff.1 happly
  rw [apply, Outcome.liftShape_eq_ok_iff.2 hinfer', ok_bind]
  by_cases hformula : op.hasFormula = true
  · have htwins := hrelated.twins hall (strided_of_infer hformula hinfer)
    exact (evaluate_alike_of_formula hformula htame.proper htwins hinfer hinfer' hrun).mono id
      fun _ htwin => ⟨hrelated.of_twin htwin.1, htwin.2⟩
  cases op with
  | literal value =>
    cases hrun
    obtain ⟨_, -, hpure⟩ := bind_eq_ok_iff.1 hinfer'
    cases hpure
    exact .ok ⟨hrelated.of_twin (.refl htame.proper), rfl⟩
  | identity =>
    obtain ⟨b, rfl, hshape⟩ := exists_of_shapes_eq_one (oneInput_iff.1 hinfer')
    obtain ⟨a, rfl, hpair⟩ := exists_of_forall₂_one hall.flip
    cases hrun
    exact .ok ⟨hpair, hshape⟩
  | tupleElem index => exact tupleElem_related hrelated hall hinfer' hrun
  | pointwise =>
    obtain ⟨_, _, hsignatures, -⟩ := pointwiseShape_eq_ok hinfer
    obtain ⟨c, rfl, rfl⟩ := map_eq_singleton_iff.1 hsignatures
    have hsteady := (htame.modules.resolve_left (cons_ne_nil _ _)).2 c mem_cons_self
    have htwins := hrelated.twins hall fun a hmem =>
      ((pointwise_lens hinfer).2 a hmem).imp fun _ h => h.imp fun _ => And.left
    exact (pointwise_alike htwins hsteady hinfer hinfer' hrun).mono id
      fun _ htwin => ⟨hrelated.of_twin htwin.1, htwin.2⟩
  | parameter | returns | fusedConcat | scan => cases htame.isBasic happly
  | contiguous | unary | binary | reduceSum | dot | transpose | reshape => exact absurd rfl hformula
  | squeeze | unsqueeze | slice | broadcast | gather | concat => exact absurd rfl hformula

/-- On twin inputs an operator gives twin results. -/
theorem apply_alike (htame : op.Tame modules) (htwins : Forall₂ Tensor.Twin inputs others)
    (hinfer' : op.infer (Tensor.shapes others) (modules.map Callable.signature) = .ok out')
    (hrun : op.apply inputs modules = .ok t) :
    Delivers (op.Roomy t.lens) (fun u => t.Twin u ∧ u.shape = out') (op.apply others modules) :=
  apply_related .of_twins htame htwins hinfer' hrun

/-- Forcing the standard layout gives a twin. -/
theorem contiguous_twin {a : Tensor α} (hvalid : a.Valid)
    (hrun : (contiguous : Operator α).apply [a] [] = .ok t) : a.Twin t := by
  obtain ⟨out, hinfer, hrun⟩ := apply_eq_ok_iff.1 hrun
  have hinputs : ∀ b ∈ [a], b.Valid := by simpa using hvalid
  have hholds : t.Holds out a.reading.value := (contiguous_follows hinputs hinfer).holds hrun
  obtain ⟨s, hs, htuple, hstandard⟩ := contiguousShape_iff.1 hinfer
  obtain ⟨_, heq, rfl⟩ := exists_of_shapes_eq_one hs
  cases heq
  cases a with
  | tuple parts => cases htuple
  | strided elem axes data =>
    obtain ⟨rfl, -⟩ := standard_eq_ok hstandard
    have hself : (Tensor.strided elem axes data).Holds (.strided elem axes)
        (Tensor.strided elem axes data).reading.value :=
      ⟨rfl, ⟨elem, axes, rfl⟩, hvalid, fun index hrange => (value_reading hrange).symm⟩
    refine ⟨.of_holds hself hholds ?_, hvalid, hholds.valid⟩
    exact form_strided_eq_iff.2 ⟨rfl, Layout.lens_rowMajor _⟩

/-- A value has the inferred shape and a buffer that is long enough. -/
theorem apply_sound (htame : op.Tame modules) (hvalid : ∀ a ∈ inputs, a.Valid)
    (hrun : op.apply inputs modules = .ok t) :
    t.Valid ∧ op.infer (Tensor.shapes inputs) (modules.map Callable.signature) = .ok t.shape := by
  obtain ⟨out, hinfer, -⟩ := apply_eq_ok_iff.1 hrun
  have htwins : Forall₂ Tensor.Twin inputs inputs :=
    forall₂_same.2 fun a hmem => ⟨.refl a, hvalid a hmem, hvalid a hmem⟩
  have hself := (apply_alike htame htwins hinfer hrun).post hrun
  exact ⟨hself.1.valid, hself.2 ▸ hinfer⟩

end Operator

end TensorGraph
