import TensorGraph.Proofs.Operator.FusedJoins

/-!
# Tuples up to the layout

What its body is given decides in which layouts the components of a loop come. So tuples are compared
component by component: peers are twins, or tuples of peers.
-/

namespace TensorGraph

open Inference List Tensor

variable {α : Type} [Scalar α] {op : String}

namespace Tensor

/-- Strided twins, or tuples whose components are peers. -/
inductive Peer : Tensor α → Tensor α → Prop
  | strided {elem elem' : ElementType} {axes axes' : Layout} {data data' : Array α}
      (htwin : (Tensor.strided elem axes data).Twin (.strided elem' axes' data')) :
      Peer (.strided elem axes data) (.strided elem' axes' data')
  | tuple {parts parts' : List (Tensor α)} (hlength : parts.length = parts'.length)
      (hparts : ∀ {a b}, (a, b) ∈ parts.zip parts' → Peer a b) : Peer (.tuple parts) (.tuple parts')

theorem peer_tuple_iff {parts parts' : List (Tensor α)} :
    Peer (.tuple parts) (.tuple parts') ↔ Forall₂ Peer parts parts' := by
  rw [forall₂_iff_zip]
  constructor
  · intro hpeer
    cases hpeer with
    | tuple hlength hparts => exact ⟨hlength, hparts⟩
  · rintro ⟨hlength, hparts⟩
    exact .tuple hlength hparts

namespace Peer

variable {t u v : Tensor α}

theorem refl (hvalid : t.Valid) : t.Peer t := by
  induction hvalid with
  | strided hspace hsize => exact .strided (.refl (.strided hspace hsize))
  | @tuple parts _ ih =>
    rw [peer_tuple_iff]
    exact forall₂_same.2 ih

theorem symm (hpeer : t.Peer u) : u.Peer t := by
  induction hpeer with
  | strided htwin => exact .strided htwin.symm
  | tuple hlength _ ih =>
    rw [peer_tuple_iff]
    exact (forall₂_iff_zip.2 ⟨hlength, ih⟩).flip

theorem trans (hfirst : t.Peer u) (hsecond : u.Peer v) : t.Peer v := by
  induction hfirst generalizing v with
  | strided htwin =>
    cases hsecond with
    | strided htwin' => exact .strided (htwin.trans htwin')
  | tuple hlength _ ih =>
    cases hsecond with
    | tuple hlength' hparts' =>
      rw [peer_tuple_iff]
      have hfirst := forall₂_iff_zip.2 ⟨hlength, ih⟩
      have hsecond := forall₂_iff_zip.2 ⟨hlength', hparts'⟩
      exact forall₂_of_common (fun _ _ _ hjoin hpeer => hjoin hpeer) hfirst.flip hsecond

theorem valid (hpeer : t.Peer u) : t.Valid := by
  induction hpeer with
  | strided htwin => exact htwin.valid
  | tuple hlength _ ih =>
    refine .tuple fun part hmem => ?_
    have hall := forall₂_iff_zip.2 ⟨hlength, ih⟩
    obtain ⟨_, -, hvalid⟩ := exists_mem_right_of_forall₂ hall hmem
    exact hvalid

theorem form_eq (hpeer : t.Peer u) : u.shape.form = t.shape.form := by
  induction hpeer with
  | strided htwin => exact htwin.alike.form_eq
  | tuple hlength _ ih =>
    have hall := forall₂_iff_zip.2 ⟨hlength, ih⟩
    rw [shape, shape, Shape.form_ofParts, Shape.form_ofParts, shapes_eq_map, shapes_eq_map,
      map_map, map_map]
    congr 1
    rw [← forall₂_eq_eq_eq, forall₂_map_left_iff, forall₂_map_right_iff]
    exact hall.flip

theorem of_twin (htwin : t.Twin u) : t.Peer u := by
  obtain ⟨halike, hvalid, hvalid'⟩ := htwin
  cases halike with
  | strided hreading => exact .strided ⟨.strided hreading, hvalid, hvalid'⟩
  | tuple => exact .refl hvalid

/-- Peers of a strided tensor are twins of it. -/
theorem twin (hpeer : t.Peer u) {elem : ElementType} {axes : Layout}
    (hshape : t.shape = .strided elem axes) : t.Twin u := by
  cases hpeer with
  | strided htwin => exact htwin
  | tuple => cases hshape

end Peer

theorem Componentwise.of_peers : Componentwise (@Peer α _) where
  of_twin := .of_twin
  twin hpeer hshape := hpeer.twin hshape
  tuple := by
    rintro t parts' hpeer
    cases hpeer with
    | tuple hlength hparts => exact ⟨_, rfl, forall₂_iff_zip.2 ⟨hlength, hparts⟩⟩

section Lists

variable {inputs others : List (Tensor α)}

omit [Scalar α] in
theorem forall₂_form {related : Tensor α → Tensor α → Prop}
    (hforms : ∀ {a b}, related a b → b.shape.form = a.shape.form)
    (hrelated : Forall₂ related inputs others) :
    Forall₂ (fun s s' => s'.form = s.form) (shapes inputs) (shapes others) := by
  rw [shapes_eq_map, shapes_eq_map, forall₂_map_left_iff, forall₂_map_right_iff]
  exact hrelated.imp fun _ _ => hforms

end Lists

end Tensor

namespace Operator

variable {out : Shape} {t : Tensor α} {inputs : List (Tensor α)}

/-- On peers an operator other than a loop gives peers, in the shape that is inferred. -/
theorem apply_peers {op : Operator α} {others : List (Tensor α)} {modules : List (Callable α)}
    {out' : Shape} (htame : op.Tame modules) (hpeers : Forall₂ Tensor.Peer inputs others)
    (hinfer' : op.infer (Tensor.shapes others) (modules.map Callable.signature) = .ok out')
    (hrun : op.apply inputs modules = .ok t) :
    Delivers (op.Roomy t.lens) (fun u => t.Peer u ∧ u.shape = out') (op.apply others modules) :=
  apply_related .of_peers htame hpeers hinfer' hrun

end Operator

/-- A counting loop in step with another one. -/
theorem foldCountM_lockstep {ε σ : Type} {step step' : σ → Nat → Except ε σ} {sure : Prop}
    {motive : σ → σ → Prop}
    (hstep : ∀ {i state state' next}, motive state state' → step state i = .ok next →
      Delivers sure (motive next) (step' state' i))
    {first count : Nat} {state state' final : σ} (hgood : motive state state')
    (hrun : foldCountM step first count state = .ok final) :
    Delivers sure (motive final) (foldCountM step' first count state') := by
  induction count generalizing first state state' with
  | zero =>
    cases hrun
    exact .ok hgood
  | succ count ih =>
    obtain ⟨next, hnext, hrest⟩ := bind_eq_ok_iff.1 hrun
    exact (hstep hgood hnext).bind fun next' hgood' => ih hgood' hrest

namespace Inference

/-- Inference for a loop looks at lengths only. -/
theorem scanShape_congr {iterations scanInputs stateVars : Nat}
    {inputs others : List Shape} {modules : List Signature} {out : Shape}
    (hforms : Forall₂ (fun s s' => s'.form = s.form) inputs others)
    (hinfer : scanShape op iterations scanInputs stateVars inputs modules = .ok out) :
    scanShape op iterations scanInputs stateVars others modules = .ok out := by
  obtain ⟨body, hmodules, hfits, hchecked, hout⟩ := scanShape_iff.1 hinfer
  have hlens : inputs.map Shape.lens = others.map Shape.lens := by
    rw [← forall₂_eq_eq_eq, forall₂_map_left_iff, forall₂_map_right_iff]
    exact hforms.imp fun s s' hform => by rw [← Shape.lens_form, ← hform, Shape.lens_form]
  refine scanShape_iff.2 ⟨body, hmodules, hfits, ⟨hforms.length_eq ▸ hchecked.count, ?_,
    hchecked.arity, fun i hi => ?_, hchecked.states, hchecked.returned⟩, hout⟩
  · intro s' hmem
    obtain ⟨s, hs, hform⟩ := exists_mem_right_of_forall₂ hforms.flip hmem
    obtain ⟨elem, axes, rfl⟩ := hchecked.strided s hs
    obtain ⟨layout, hshape, -⟩ := Shape.exists_strided_of_form_eq hform
    exact ⟨elem, layout, hshape⟩
  · rw [← hchecked.args i hi]
    simp only [iterationArgs, map_append, map_take, map_drop, hlens]

end Inference

section Loops

variable {related : Tensor α → Tensor α → Prop} {iterations scanInputs stateVars : Nat}
  {c : Callable α} {inputs others : List (Tensor α)} {sure : Prop}
  (hinputs : Forall₂ related inputs others)
  (hbody : ∀ {args args' outs}, Forall₂ related args args' →
    c.run (c.signature.parameterNames.zip args) = .ok outs →
    Delivers sure (Forall₂ related outs) (c.run (c.signature.parameterNames.zip args')))

include hinputs hbody

namespace Evaluation

omit [Scalar α] in
/-- One iteration in step with another one. -/
theorem scanStep_lockstep {current current' : ScanState α} {iteration : Nat}
    (hstates : Forall₂ related current.states current'.states)
    (hscanned : Forall₂ related current.scanned current'.scanned) {next : ScanState α}
    (hrun : scanStep op scanInputs stateVars c inputs current iteration = .ok next) :
    Delivers sure (fun next' => Forall₂ related next.states next'.states ∧
        Forall₂ related next.scanned next'.scanned)
      (scanStep op scanInputs stateVars c others current' iteration) := by
  have hargs : Forall₂ related (iterationArgs scanInputs stateVars inputs current.states iteration)
      (iterationArgs scanInputs stateVars others current'.states iteration) :=
    rel_append hstates (forall₂_take _ (forall₂_drop _ hinputs))
  obtain ⟨outs, houts, hrun⟩ := bind_eq_ok_iff.1 hrun
  refine (hbody hargs houts).bind fun outs' hrelated => ?_
  rw [← hrelated.length_eq]
  split_ifs at hrun ⊢ with hfew
  · cases hrun
  · cases hrun
    exact .ok ⟨forall₂_take _ hrelated,
      rel_append hscanned (forall₂_drop _ hrelated)⟩

omit [Scalar α] in
/-- A loop is in step with another one if its body is on related arguments. -/
theorem scanValue_lockstep {t : Tensor α}
    (hrun : scanValue op iterations scanInputs stateVars inputs [c] = .ok t) :
    ∃ parts, t = .tuple parts ∧ Delivers sure
      (fun u => ∃ parts', u = .tuple parts' ∧ Forall₂ related parts parts')
      (scanValue op iterations scanInputs stateVars others [c]) := by
  obtain ⟨final, hfinal, hpure⟩ := bind_eq_ok_iff.1
    (show (foldCountM (scanStep op scanInputs stateVars c inputs) 0 iterations
      ⟨inputs.take stateVars, []⟩ >>= fun final =>
        .ok (.tuple (final.states ++ final.scanned))) = .ok t from hrun)
  cases hpure
  refine ⟨_, rfl, ?_⟩
  change Delivers _ _ (foldCountM (scanStep op scanInputs stateVars c others) 0 iterations
    ⟨others.take stateVars, []⟩ >>= fun final =>
      .ok (Tensor.tuple (final.states ++ final.scanned)))
  have hloop : Delivers sure (fun final' : ScanState α =>
      Forall₂ related final.states final'.states ∧
      Forall₂ related final.scanned final'.scanned)
      (foldCountM (scanStep op scanInputs stateVars c others) 0 iterations
        ⟨others.take stateVars, []⟩) := by
    refine foldCountM_lockstep (motive := fun (state state' : ScanState α) =>
      Forall₂ related state.states state'.states ∧
      Forall₂ related state.scanned state'.scanned) ?_
      ⟨forall₂_take _ hinputs, .nil⟩ hfinal
    rintro i state state' next ⟨hstates, hscanned⟩ hstep
    exact scanStep_lockstep hinputs hbody hstates hscanned hstep
  exact hloop.bind fun final' hrelated => .ok ⟨_, rfl, rel_append hrelated.1 hrelated.2⟩

end Evaluation

/-- A loop in step with another one, with what inference asks of its arguments. -/
theorem Operator.scan_lockstep (hforms : ∀ {a b}, related a b → b.shape.form = a.shape.form)
    {t : Tensor α}
    (hrun : (scan iterations scanInputs stateVars : Operator α).apply inputs [c] = .ok t) :
    ∃ parts, t = .tuple parts ∧ Delivers sure
      (fun u => ∃ parts', u = .tuple parts' ∧ Forall₂ related parts parts')
      ((scan iterations scanInputs stateVars).apply others [c]) := by
  obtain ⟨out, hinfer, hevaluate⟩ := apply_eq_ok_iff.1 hrun
  have hinfer' : (scan iterations scanInputs stateVars : Operator α).infer (Tensor.shapes others)
      [c.signature] = .ok out := scanShape_congr (forall₂_form hforms hinputs) hinfer
  rw [apply, map_singleton, Outcome.liftShape_eq_ok_iff.2 hinfer', ok_bind]
  exact Evaluation.scanValue_lockstep hinputs hbody hevaluate

end Loops

end TensorGraph
