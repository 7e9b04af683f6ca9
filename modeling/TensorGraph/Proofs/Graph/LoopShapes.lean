import TensorGraph.Proofs.Graph.Loops
import TensorGraph.Proofs.Graph.Parameters
import TensorGraph.Proofs.Graph.Soundness

/-!
# What shape a loop gives

A loop infers what its body declares, compares nothing but lengths, and hands over what the body gives on
the arguments as they are.
-/

namespace TensorGraph

open Inference List Tensor

/-! ## Aspects of shapes -/

/-- How closely shapes are compared. -/
inductive Aspect
  | whole
  | form

namespace Aspect

variable {aspect : Aspect}

/-- What is seen of a shape. -/
def view : Aspect → Shape → Shape
  | .whole, s => s
  | .form, s => s.form

theorem view_ofParts {parts others : List Shape}
    (hparts : parts.map aspect.view = others.map aspect.view) :
    aspect.view (.ofParts parts) = aspect.view (.ofParts others) := by
  cases aspect with
  | whole =>
    have hsame : parts.map id = others.map id := hparts
    rw [map_id, map_id] at hsame
    rw [hsame]
  | form =>
    rw [view, view, Shape.form_ofParts, Shape.form_ofParts]
    exact congrArg Shape.ofParts hparts

/-- What is seen of an inferred shape depends on what is seen of the inputs. -/
theorem view_infer {α : Type} {op : Operator α} {inputs others : List Shape}
    {modules : List Signature} {out out' : Shape}
    (hviews : others.map aspect.view = inputs.map aspect.view)
    (hinfer : op.infer inputs modules = .ok out) (hother : op.infer others modules = .ok out') :
    aspect.view out' = aspect.view out := by
  cases aspect with
  | whole =>
    have hsame : others.map id = inputs.map id := hviews
    rw [map_id, map_id] at hsame
    rw [hsame] at hother
    exact Except.ok.inj (hother.symm.trans hinfer)
  | form => exact Operator.infer_form hviews hinfer hother

end Aspect

namespace Tensor

variable {α : Type}

theorem shapes_append (ts us : List (Tensor α)) : shapes (ts ++ us) = shapes ts ++ shapes us := by
  simp only [shapes_eq_map, map_append]

theorem shapes_take (count : Nat) (ts : List (Tensor α)) :
    shapes (ts.take count) = (shapes ts).take count := by
  simp only [shapes_eq_map, map_take]

theorem shapes_drop (count : Nat) (ts : List (Tensor α)) :
    shapes (ts.drop count) = (shapes ts).drop count := by
  simp only [shapes_eq_map, map_drop]

end Tensor

/-! ## Operators other than loops -/

variable {α β : Type} [Scalar α] {t : Tensor α} {modules : List (Callable α)}
  {args : List (Tensor α)}

theorem Evaluation.shape_of_fusedConcat {op : String} {axis : Int} {out : Shape}
    {inputs : List (Tensor α)}
    (hrun : fusedConcatValue op axis out inputs modules = .ok t) : t.shape = out := by
  unfold fusedConcatValue at hrun
  split at hrun
  · cases hrun
  · obtain ⟨_, -, hrun⟩ := bind_eq_ok_iff.1 hrun
    obtain ⟨_, -, hrun⟩ := bind_eq_ok_iff.1 hrun
    obtain ⟨_, -, hrun⟩ := bind_eq_ok_iff.1 hrun
    obtain ⟨_, -, hrun⟩ := bind_eq_ok_iff.1 hrun
    split at hrun
    · cases hrun
    · obtain ⟨_, -, hrun⟩ := bind_eq_ok_iff.1 hrun
      obtain ⟨_, -, hrun⟩ := bind_eq_ok_iff.1 hrun
      exact shape_of_tabulate (Outcome.lift_eq_ok_iff.1 hrun)

namespace Operator

variable {op : Operator α}

/-- Whether the operator looks at its modules. -/
def runsModules : Operator α → Bool
  | .pointwise | .fusedConcat _ | .scan .. => true
  | _ => false

omit [Scalar α] in
theorem infer_eq_bare (hmodules : op.runsModules = false) (inputs : List Shape)
    (modules : List Signature) : op.infer inputs modules = op.infer inputs [] := by
  cases op with
  | pointwise | fusedConcat | scan => cases hmodules
  | _ => rfl

theorem evaluate_eq_bare (hmodules : op.runsModules = false) (out : Shape)
    (inputs : List (Tensor α)) (modules : List (Callable α)) :
    op.evaluate out inputs modules = op.evaluate out inputs [] := by
  cases op with
  | pointwise | fusedConcat | scan => cases hmodules
  | _ => rfl

/-- Whatever is not a loop gives a value of the inferred shape, also where it runs modules. -/
theorem shape_of_evaluate (hscan : op.isScan = false) {inputs : List (Tensor α)} {out : Shape}
    (hinfer : op.infer (Tensor.shapes inputs) (modules.map Callable.signature) = .ok out)
    (hrun : op.evaluate out inputs modules = .ok t) : t.shape = out := by
  cases hmodules : op.runsModules with
  | false =>
    rw [infer_eq_bare hmodules] at hinfer
    rw [evaluate_eq_bare hmodules] at hrun
    exact (evaluate_conforms hinfer).post hrun
  | true =>
    cases op with
    | pointwise =>
      obtain ⟨_, -, hrun⟩ := bind_eq_ok_iff.1 hrun
      obtain ⟨_, -, hrun⟩ := bind_eq_ok_iff.1 hrun
      exact shape_of_tabulate (Outcome.lift_eq_ok_iff.1 hrun)
    | fusedConcat axis => exact Evaluation.shape_of_fusedConcat hrun
    | scan iterations scanInputs stateVars => cases hscan
    | _ => cases hmodules

end Operator

/-! ## One loop -/

/-- The declared shapes of the parameters. -/
def Signature.declared (s : Signature) : List Shape := s.parameters.map (·.2)

/-- By what is looked at, a loop gives its body what the body declares, and gets back states as
declared. -/
structure LoopFits {β : Type} (look : Shape → β) (iterations scanInputs stateVars : Nat)
    (inputs : List Shape) (body : Signature) : Prop where
  entering : (inputs.take stateVars).map look = (body.declared.take stateVars).map look
  returning : (body.outputs.take stateVars).map look = (body.declared.take stateVars).map look
  /-- The scan inputs of every iteration are as declared. -/
  scanned : ∀ iteration < iterations,
    ((inputs.drop (stateVars + iteration * scanInputs)).take scanInputs).map look =
      (body.declared.drop stateVars).map look

theorem LoopFits.congr {look : Shape → β} {iterations scanInputs stateVars : Nat}
    {inputs others : List Shape} {body : Signature}
    (hfits : LoopFits look iterations scanInputs stateVars inputs body)
    (hsame : others.map look = inputs.map look) :
    LoopFits look iterations scanInputs stateVars others body where
  entering := by rw [map_take, hsame, ← map_take, hfits.entering]
  returning := hfits.returning
  scanned := by
    intro iteration hiteration
    rw [map_take, map_drop, hsame, ← map_drop, ← map_take,
      hfits.scanned iteration hiteration]

/-- Strided shapes that agree in element types and lengths have the same forms. -/
theorem Shape.forms_eq_of_strided {shapes others : List Shape}
    (hstrided : ∀ s ∈ shapes, ∃ elem axes, s = .strided elem axes)
    (hstrided' : ∀ s ∈ others, ∃ elem axes, s = .strided elem axes)
    (helems : shapes.map elem = others.map elem) (hlens : shapes.map lens = others.map lens) :
    shapes.map form = others.map form := by
  induction shapes generalizing others with
  | nil =>
    obtain rfl := map_eq_nil_iff.1 helems.symm
    rfl
  | cons s shapes ih =>
    cases others with
    | nil => cases helems
    | cons s' others =>
      rw [forall_mem_cons] at hstrided hstrided'
      obtain ⟨⟨e, xs, rfl⟩, hshapes⟩ := hstrided
      obtain ⟨⟨f, ys, rfl⟩, hothers⟩ := hstrided'
      obtain ⟨helem, helems⟩ := List.cons.inj helems
      obtain ⟨hlen, hlens⟩ := List.cons.inj hlens
      have hform : (strided e xs).form = (strided f ys).form :=
        form_strided_eq_iff.2 ⟨helem, hlen⟩
      rw [map_cons, map_cons, hform, ih hshapes hothers helems hlens]

namespace Inference

variable {op : String} {iterations scanInputs stateVars : Nat} {inputs : List Shape}
  {body : Signature} {out : Shape}

/-- Element types are not compared. If they are as declared, so is everything but the layouts, given
that something is compared at all. -/
theorem LoopChecked.loopFits (hchecked : LoopChecked iterations scanInputs stateVars inputs body)
    (hiterations : 0 < iterations)
    (hdeclared : ∀ s ∈ body.declared, ∃ elem axes, s = .strided elem axes)
    (houtputs : ∀ s ∈ body.outputs, ∃ elem axes, s = .strided elem axes)
    (helems : LoopFits Shape.elem iterations scanInputs stateVars inputs body) :
    LoopFits Shape.form iterations scanInputs stateVars inputs body := by
  have hcount := hchecked.count
  have hlens : body.parameters.map (·.2.lens) = body.declared.map Shape.lens := by
    rw [Signature.declared, map_map]
    rfl
  have hreturned := hchecked.returned
  rw [map_take, map_take, hlens, ← map_take, ← map_take] at hreturned
  -- The arguments of an iteration are the states, which do not change, and the share of the iteration.
  have hsplit (i : Nat) (hi : i < iterations) :
      (inputs.take stateVars).map Shape.lens = (body.declared.take stateVars).map Shape.lens ∧
      ((inputs.drop (stateVars + i * scanInputs)).take scanInputs).map Shape.lens =
        (body.declared.drop stateVars).map Shape.lens := by
    have hargs := hchecked.args i hi
    rw [hlens, iterationArgs, ← take_append_drop stateVars body.declared, map_append,
      map_append] at hargs
    refine append_inj hargs ?_
    rw [length_map, length_map, length_take, length_take, Signature.declared, length_map,
      hchecked.arity]
    omega
  refine ⟨?_, ?_, fun i hi => ?_⟩
  · exact Shape.forms_eq_of_strided (fun s hs => hchecked.strided s (mem_of_mem_take hs))
      (fun s hs => hdeclared s (mem_of_mem_take hs)) helems.entering (hsplit 0 hiterations).1
  · exact Shape.forms_eq_of_strided (fun s hs => houtputs s (mem_of_mem_take hs))
      (fun s hs => hdeclared s (mem_of_mem_take hs)) helems.returning hreturned
  · exact Shape.forms_eq_of_strided
      (fun s hs => hchecked.strided s (mem_of_mem_drop (mem_of_mem_take hs)))
      (fun s hs => hdeclared s (mem_of_mem_drop hs)) (helems.scanned i hi) (hsplit i hi).2

end Inference

namespace Evaluation

variable {aspect : Aspect} {iterations scanInputs stateVars : Nat} {body : Callable α}
  {inputs : List (Tensor α)}

/-- What is seen of the states and of the scan outputs after some iterations. -/
structure SeenAfter (aspect : Aspect) (stateVars : Nat) (body : Signature) (iteration : Nat)
    (current : ScanState α) : Prop where
  states : (Tensor.shapes current.states).map aspect.view =
    (body.declared.take stateVars).map aspect.view
  /-- The scan outputs are what the body returns, once for each iteration. -/
  scanned : (Tensor.shapes current.scanned).map aspect.view =
    (Nat.repeat (body.outputs.drop stateVars ++ ·) iteration []).map aspect.view

theorem repeat_append (items : List β) (count : Nat) :
    Nat.repeat (items ++ ·) count [] ++ items = Nat.repeat (items ++ ·) (count + 1) [] := by
  induction count with
  | zero => simp [Nat.repeat]
  | succ count ih =>
    rw [Nat.repeat, append_assoc, ih]
    rfl

variable {op : String}
  (hfits : LoopFits aspect.view iterations scanInputs stateVars (Tensor.shapes inputs) body.signature)
  (hbody : ∀ {args outs},
    (Tensor.shapes args).map aspect.view = body.signature.declared.map aspect.view →
    body.run (body.signature.parameterNames.zip args) = .ok outs →
      (Tensor.shapes outs).map aspect.view = body.signature.outputs.map aspect.view)

include hfits hbody

omit [Scalar α] in
/-- One iteration gives the body what it declares and takes over what it returns. -/
theorem SeenAfter.step {iteration : Nat} (hiteration : iteration < iterations)
    {current next : ScanState α}
    (hseen : SeenAfter aspect stateVars body.signature iteration current)
    (hrun : scanStep op scanInputs stateVars body inputs current iteration = .ok next) :
    SeenAfter aspect stateVars body.signature (iteration + 1) next := by
  obtain ⟨outs, houts, hrun⟩ := bind_eq_ok_iff.1 hrun
  have hargs : (Tensor.shapes (iterationArgs scanInputs stateVars inputs current.states
      iteration)).map aspect.view = body.signature.declared.map aspect.view := by
    rw [iterationArgs, shapes_append, shapes_take, shapes_drop,
      map_append, hseen.states, hfits.scanned iteration hiteration, ← map_append,
      take_append_drop]
  have hreturned := hbody hargs houts
  split_ifs at hrun
  · cases hrun
  · cases hrun
    constructor
    · rw [shapes_take, map_take, hreturned, ← map_take, hfits.returning]
    · rw [shapes_append, shapes_drop, map_append, hseen.scanned, map_drop,
        hreturned, ← map_drop, ← map_append, repeat_append]

omit [Scalar α] in
/-- Whole loops: what is seen of the value is what is seen of the inferred shape. -/
theorem view_scanValue {out : Shape}
    (hinfer : scanShape op iterations scanInputs stateVars (Tensor.shapes inputs)
      [body.signature] = .ok out)
    (hrun : scanValue op iterations scanInputs stateVars inputs [body] = .ok t) :
    aspect.view t.shape = aspect.view out := by
  obtain ⟨_, hsignature, rfl⟩ := scanShape_eq_ok hinfer
  obtain rfl := (List.cons.inj hsignature).1
  obtain ⟨final, hfinal, hpure⟩ := bind_eq_ok_iff.1
    (show (foldCountM (scanStep op scanInputs stateVars body inputs) 0 iterations
      ⟨inputs.take stateVars, []⟩ >>= fun final =>
        .ok (.tuple (final.states ++ final.scanned))) = .ok t from hrun)
  cases hpure
  have hstart : SeenAfter aspect stateVars body.signature 0
      (⟨inputs.take stateVars, []⟩ : ScanState α) := by
    refine ⟨?_, rfl⟩
    rw [shapes_take, hfits.entering]
  have hseen := foldCountM_invariant (SeenAfter aspect stateVars body.signature)
    (fun i current next hi hseen hstep => hseen.step hfits hbody (by omega) hstep) hstart hfinal
  rw [Nat.zero_add] at hseen
  apply Aspect.view_ofParts
  rw [shapes_append, map_append, map_append, hseen.states, hseen.scanned,
    hfits.returning]

end Evaluation

/-! ## Loops in graphs -/

namespace Graph

variable {aspect : Aspect} {g : Graph α}

/-- Whatever a parameter is bound to looks as it is declared. -/
def BoundAs (aspect : Aspect) (g : Graph α) (bindings : Bindings α) : Prop :=
  ∀ ⦃node instruction name shape t⦄, g.find? node = some instruction →
    instruction.op = .parameter name shape → bindings.find? name = some t →
      aspect.view t.shape = aspect.view shape

/-- Cached shapes are the inferred ones, parameters of one name are declared alike, and loops give
their bodies what these declare. -/
structure Fitted (aspect : Aspect) (g : Graph α) : Prop extends Coherent g where
  names : ∀ ⦃first second stored stored' name shape shape'⦄, g.find? first = some stored →
    g.find? second = some stored' → stored.op = .parameter name shape →
      stored'.op = .parameter name shape' → aspect.view shape = aspect.view shape'
  /-- The cached shapes of what a loop reads are as declared. -/
  loops : ∀ ⦃node instruction iterations scanInputs stateVars shapes⦄,
    g.find? node = some instruction → instruction.op = .scan iterations scanInputs stateVars →
      g.shapes instruction.inputs = .ok shapes → ∀ body ∈ instruction.modules,
        LoopFits aspect.view iterations scanInputs stateVars shapes body.signature

/-- The graph is fitted, and so are the bodies of its loops at every level of nesting. -/
def FittedThroughout (aspect : Aspect) (g : Graph α) : Prop :=
  ∀ ⦃body⦄, Relation.ReflTransGen Repeats g body → body.Fitted aspect

omit [Scalar α] in
theorem FittedThroughout.body {body : Graph α} (hfitted : g.FittedThroughout aspect)
    (hrepeats : g.Repeats body) : body.FittedThroughout aspect :=
  fun _ hnested => hfitted (hnested.head hrepeats)

omit [Scalar α] in
/-- What a signature lists is declared by a node. -/
theorem Coherent.exists_of_mem_parameters (hcoherent : g.Coherent) {parameter : String × Shape}
    (hmem : parameter ∈ g.signature.parameters) :
    ∃ node stored, g.find? node = some stored ∧
      stored.op = .parameter parameter.1 parameter.2 := by
  obtain ⟨name, -, hlisted⟩ := mem_filterMap.1 hmem
  obtain ⟨node, hnode, hlisted⟩ := Option.bind_eq_some_iff.1 hlisted
  obtain ⟨stored, hfound, hlisted⟩ := Option.bind_eq_some_iff.1 hlisted
  cases hlisted
  obtain ⟨instruction, shape, hfound', hop⟩ :=
    nameAt_eq_some_iff.1 (parameter?_eq_some hcoherent.toIndexed hnode)
  cases hfound.symm.trans hfound'
  obtain ⟨_, hagain, hshape⟩ := shape_eq_ok_iff.1 (hcoherent.shape_parameter hfound hop)
  cases hfound.symm.trans hagain
  exact ⟨node, stored, hfound, by rw [hop, hshape]⟩

omit [Scalar α] in
/-- A value that is paired with a name stands at the place of a parameter of this name. -/
theorem exists_parameter_of_mem_zip {parameters : List (String × Shape)}
    (hargs : (Tensor.shapes args).map aspect.view = (parameters.map (·.2)).map aspect.view)
    {name : String} (hmem : (name, t) ∈ (parameters.map (·.1)).zip args) :
    ∃ shape, (name, shape) ∈ parameters ∧ aspect.view t.shape = aspect.view shape := by
  induction parameters generalizing args with
  | nil => cases hmem
  | cons parameter parameters ih =>
    cases args with
    | nil => cases hmem
    | cons arg args =>
      obtain ⟨hfirst, hrest⟩ := List.cons.inj hargs
      rcases mem_cons.1 hmem with heq | hmem
      · cases heq
        exact ⟨parameter.2, mem_cons_self, hfirst⟩
      · obtain ⟨shape, hmem, hview⟩ := ih hrest hmem
        exact ⟨shape, mem_cons_of_mem _ hmem, hview⟩

omit [Scalar α] in
/-- Arguments that look as declared are bound so. -/
theorem Fitted.boundAs (hfitted : g.Fitted aspect)
    (hargs : (Tensor.shapes args).map aspect.view = g.signature.declared.map aspect.view) :
    g.BoundAs aspect (g.signature.parameterNames.zip args) := by
  intro node instruction name shape t hfound hop hbound
  obtain ⟨declared, hmem, hview⟩ :=
    exists_parameter_of_mem_zip hargs (Bindings.mem_of_find? hbound)
  obtain ⟨first, stored, hstored, hparameter⟩ :=
    hfitted.toCoherent.exists_of_mem_parameters hmem
  rw [hview, hfitted.names hstored hfound hparameter hop]

/-- A tensor looks as the shape that is cached for a node. -/
def SeenAt (aspect : Aspect) (g : Graph α) (node : NodeId) (t : Tensor α) : Prop :=
  ∃ shape, g.shape node = .ok shape ∧ aspect.view t.shape = aspect.view shape

omit [Scalar α] in
theorem views_of_seenAt {nodes : List NodeId} {values : List (Tensor α)} {shapes : List Shape}
    (hseen : Forall₂ (g.SeenAt aspect) nodes values) (hshapes : g.shapes nodes = .ok shapes) :
    (Tensor.shapes values).map aspect.view = shapes.map aspect.view := by
  have hsame : Forall₂ (fun (t : Tensor α) shape => aspect.view t.shape = aspect.view shape)
      values shapes := by
    refine forall₂_of_common ?_ hseen (shapes_eq_ok_iff.1 hshapes)
    rintro node t shape ⟨cached, hcached, hview⟩ hshape
    cases hcached.symm.trans hshape
    exact hview
  rw [shapes_eq_map, map_map, ← forall₂_eq_eq_eq, forall₂_map_left_iff,
    forall₂_map_right_iff]
  exact hsame

/-- Running a graph gives what its output shapes say. -/
def RunsAs (aspect : Aspect) (g : Graph α) : Prop :=
  ∀ ⦃bindings values⦄, g.BoundAs aspect bindings → g.run bindings = .ok values →
    (Tensor.shapes values).map aspect.view = g.outputShapes.map aspect.view

/-- What a loop gives looks as inferred, if running its body does. -/
theorem view_scan {iterations scanInputs stateVars : Nat} {modules : List (Graph α)}
    {inputs : List (Tensor α)} {out : Shape}
    (hfits : ∀ body ∈ modules, body.Fitted aspect ∧
      LoopFits aspect.view iterations scanInputs stateVars (Tensor.shapes inputs) body.signature)
    (hbodies : ∀ body ∈ modules, body.RunsAs aspect)
    (hinfer : (Operator.scan iterations scanInputs stateVars : Operator α).infer
      (Tensor.shapes inputs) (signatures modules) = .ok out)
    (hrun : (Operator.scan iterations scanInputs stateVars).evaluate out inputs
      (modules.map callable) = .ok t) :
    aspect.view t.shape = aspect.view out := by
  obtain ⟨_, hsignatures, -⟩ := scanShape_eq_ok hinfer
  obtain ⟨body, rfl, rfl⟩ := map_eq_singleton_iff.1 hsignatures
  obtain ⟨hfitted, hloop⟩ := hfits body (mem_singleton_self body)
  have hbody {args outs : List (Tensor α)}
      (hargs : (Tensor.shapes args).map aspect.view = body.signature.declared.map aspect.view)
      (houts : body.callable.run (body.signature.parameterNames.zip args) = .ok outs) :
      (Tensor.shapes outs).map aspect.view = body.signature.outputs.map aspect.view :=
    hbodies body (mem_singleton_self body) (hfitted.boundAs hargs) houts
  have hshape : scanShape _ iterations scanInputs stateVars (Tensor.shapes inputs)
      [body.callable.signature] = .ok out := hinfer
  exact Evaluation.view_scanValue hloop hbody hshape hrun

/-- Every value looks as the shape that is cached for its node, if what the bodies of loops give does. -/
theorem FittedThroughout.yields_seenAt {bindings : Bindings α} (hfitted : g.FittedThroughout aspect)
    (hbodies : ∀ body, g.Repeats body → body.RunsAs aspect) (hbound : g.BoundAs aspect bindings)
    {node : NodeId} (hyields : Yields g.moduleRunner g bindings node t) :
    g.SeenAt aspect node t := by
  have hhere : g.Fitted aspect := hfitted .refl
  induction hyields with
  | parameter hfound hop hvalue =>
    exact ⟨_, hhere.toCoherent.shape_parameter hfound hop, hbound hfound hop hvalue⟩
  | @apply node instruction args t hfound _ hlength _ happly ih =>
    rw [map_callableBy_moduleRunner hfound] at happly
    obtain ⟨out, hinfer, hrun⟩ := Operator.apply_eq_ok_iff.1 happly
    rw [map_map] at hinfer
    obtain ⟨shapes, hshapes, hcached⟩ := hhere.settled node instruction hfound
    have hviews := views_of_seenAt (forall₂_iff_zip.2 ⟨hlength, ih⟩) hshapes
    refine ⟨instruction.shape, shape_of_find? hfound, ?_⟩
    rw [← Aspect.view_infer hviews hcached hinfer]
    cases hscan : instruction.op.isScan with
    | false =>
      rw [← map_map] at hinfer
      rw [Operator.shape_of_evaluate hscan hinfer hrun]
    | true =>
      obtain ⟨iterations, scanInputs, stateVars, hop⟩ := Operator.isScan_eq_true_iff.1 hscan
      have hrepeats : ∀ body ∈ instruction.modules, g.Repeats body := fun body hmem =>
        ⟨node, instruction, hfound, hscan, hmem⟩
      have hloops := hhere.loops hfound hop hshapes
      rw [hop] at hinfer hrun
      exact view_scan (fun body hmem => ⟨hfitted (.single (hrepeats body hmem)),
        (hloops body hmem).congr hviews⟩) (fun body hmem => hbodies body (hrepeats body hmem))
        hinfer hrun

/-- By induction on the nesting: a body is nested less deep than the graph that repeats it. -/
theorem FittedThroughout.runsAs (hfitted : g.FittedThroughout aspect) : g.RunsAs aspect := by
  induction hdepth : g.depth using Nat.strong_induction_on generalizing g with
  | _ depth ih =>
    have hbodies : ∀ body, g.Repeats body → body.RunsAs aspect := by
      intro body hrepeats
      have hbody := hfitted.body hrepeats
      obtain ⟨node, instruction, hfound, -, hmem⟩ := hrepeats
      exact ih body.depth (hdepth ▸ depth_module_lt hfound hmem) hbody rfl
    intro bindings values hbound hrun
    rw [run_eq_valuesWith] at hrun
    exact views_of_seenAt ((valuesWith_yields hrun).imp fun _ _ hyields =>
      hfitted.yields_seenAt hbodies hbound hyields) (hfitted .refl).toCoherent.shapes_results

/-- As far as arguments and returned states agree with what the body declares, the value of a loop has
the inferred shape: if they agree in everything, it is the inferred shape, and if they agree in element
types, which are not compared, it is the inferred shape up to layouts. A loop without iterations compares
nothing. It gives back its states, and these have the inferred shape if the body returns such ones. -/
theorem shape_of_scan {iterations scanInputs stateVars : Nat} {modules : List (Graph α)}
    {inputs : List (Tensor α)} {s : Shape} {t : Tensor α}
    (hinfer : (Operator.scan iterations scanInputs stateVars : Operator α).infer
      (Tensor.shapes inputs) (signatures modules) = .ok s)
    (hrun : (Operator.scan iterations scanInputs stateVars).evaluate s inputs
      (modules.map callable) = .ok t) :
    ((∀ body ∈ modules, body.FittedThroughout .whole ∧
        LoopFits id iterations scanInputs stateVars (Tensor.shapes inputs) body.signature) →
      t.shape = s) ∧
    (0 < iterations →
      (∀ body ∈ modules, body.FittedThroughout .form ∧
        (∀ shape ∈ body.signature.declared ++ body.signature.outputs,
          ∃ elem axes, shape = .strided elem axes) ∧
        LoopFits Shape.elem iterations scanInputs stateVars (Tensor.shapes inputs) body.signature) →
      t.shape.form = s.form) ∧
    (iterations = 0 → ∀ body ∈ modules,
      (t.shape = s ↔ Tensor.shapes (inputs.take stateVars) = body.outputShapes.take stateVars)) := by
  refine ⟨fun hall => ?_, fun hiterations hall => ?_, ?_⟩
  · have hfits (body : Graph α) (hmem : body ∈ modules) : body.Fitted .whole ∧
        LoopFits Aspect.whole.view iterations scanInputs stateVars (Tensor.shapes inputs)
          body.signature := ⟨(hall body hmem).1 .refl, (hall body hmem).2⟩
    exact view_scan hfits (fun body hmem => (hall body hmem).1.runsAs) hinfer hrun
  · have hfits (body : Graph α) (hmem : body ∈ modules) : body.Fitted .form ∧
        LoopFits Aspect.form.view iterations scanInputs stateVars (Tensor.shapes inputs)
          body.signature := by
      obtain ⟨hfitted, hstrided, helems⟩ := hall body hmem
      obtain ⟨_, hsignatures, -, hchecked, -⟩ := scanShape_iff.1 hinfer
      obtain ⟨only, rfl, rfl⟩ := map_eq_singleton_iff.1 hsignatures
      obtain rfl := mem_singleton.1 hmem
      refine ⟨hfitted .refl, hchecked.loopFits hiterations ?_ ?_
        helems⟩
      · exact fun shape hshape => hstrided shape (mem_append_left _ hshape)
      · exact fun shape hshape => hstrided shape (mem_append_right _ hshape)
    exact view_scan hfits (fun body hmem => (hall body hmem).1.runsAs) hinfer hrun
  · rintro rfl body hmem
    obtain ⟨_, hsignatures, rfl⟩ := scanShape_eq_ok hinfer
    obtain ⟨only, rfl, rfl⟩ := map_eq_singleton_iff.1 hsignatures
    obtain rfl := mem_singleton.1 hmem
    cases hrun
    show (Tensor.tuple (inputs.take stateVars ++ [])).shape =
      Shape.ofParts (body.outputShapes.take stateVars ++ []) ↔ _
    rw [append_nil, append_nil, Tensor.shape]
    exact ⟨fun heq => congrArg Shape.parts heq, congrArg Shape.ofParts⟩

end Graph

/-! ## Loops in loops -/

section Concrete

open Graph

omit [Scalar α] in
/-- Parameters with different names, and loops that are checked one by one. -/
theorem Graph.FittedThroughout.of_nodes {aspect : Aspect} {g : Graph α} (hcoherent : g.Coherent)
    (hnames : g.parameterNames.Nodup)
    (hloops : ∀ entry ∈ g.nodes, ∀ iterations scanInputs stateVars shapes,
      entry.2.op = .scan iterations scanInputs stateVars → g.shapes entry.2.inputs = .ok shapes →
        ∀ body ∈ entry.2.modules, body.FittedThroughout aspect ∧
          LoopFits aspect.view iterations scanInputs stateVars shapes body.signature) :
    g.FittedThroughout aspect := by
  intro body hnested
  rcases hnested.cases_head with rfl | ⟨first, ⟨node, instruction, hfound, hscan, hmem⟩, hrest⟩
  · refine ⟨hcoherent, ?_, ?_⟩
    · intro first second stored stored' name shape shape' hfirst hsecond hop hop'
      have hsame := eq_of_nameAt hcoherent.toIndexed hnames
        (nameAt_eq_some_iff.2 ⟨stored, shape, hfirst, hop⟩)
        (nameAt_eq_some_iff.2 ⟨stored', shape', hsecond, hop'⟩)
      rw [hsame, hsecond] at hfirst
      cases hfirst
      cases hop.symm.trans hop'
      rfl
    · intro node instruction iterations scanInputs stateVars shapes hfound hop hshapes body hmem
      exact (hloops _ (mem_nodes_of_find? hfound) _ _ _ _ hop hshapes body hmem).2
  · obtain ⟨iterations, scanInputs, stateVars, hop⟩ := Operator.isScan_eq_true_iff.1 hscan
    obtain ⟨shapes, hshapes, -⟩ := hcoherent.settled node instruction hfound
    exact (hloops _ (mem_nodes_of_find? hfound) _ _ _ _ hop hshapes first hmem).1 hrest

/-- The layout of a matrix by rows. -/
def rowWise : Shape := .strided .float32 [⟨2, 3⟩, ⟨3, 1⟩]

/-- A matrix by rows. -/
def matrixByRows : Tensor Float32 := .strided .float32 [⟨2, 3⟩, ⟨3, 1⟩] #[1, 2, 3, 4, 5, 6]

/-- A matrix by columns. -/
def matrixByColumns : Tensor Float32 := .strided .float32 [⟨2, 1⟩, ⟨3, 2⟩] #[1, 4, 2, 5, 3, 6]

/-- Negate a matrix. -/
def negated : Graph Float32 :=
  ⟨"negated",
    [(0, ⟨.parameter "x" rowWise, rowWise, [], []⟩), (1, ⟨.unary .neg, rowWise, [0], []⟩),
     (2, ⟨.returns, .ofParts [rowWise], [1], []⟩)],
    [], 3⟩

/-- Subtract a matrix from a state, by a loop that negates it once. -/
def subtracted : Graph Float32 :=
  ⟨"subtracted",
    [(1, ⟨.parameter "u" rowWise, rowWise, [], []⟩), (0, ⟨.parameter "s" rowWise, rowWise, [], []⟩),
     (2, ⟨.scan 1 0 1, .ofParts [rowWise], [1], [negated]⟩), (3, ⟨.tupleElem 0, rowWise, [2], []⟩),
     (4, ⟨.binary .add, rowWise, [0, 3], []⟩), (5, ⟨.returns, .ofParts [rowWise, rowWise], [4, 3], []⟩)],
    [], 6⟩

theorem fittedThroughout_negated (aspect : Aspect) : negated.FittedThroughout aspect := by
  have hbare : ∀ entry ∈ negated.nodes, entry.2.modules = [] := by decide
  refine .of_nodes (by decide) (by decide) fun entry hentry _ _ _ _ _ _ body hbody => ?_
  rw [hbare entry hentry] at hbody
  cases hbody

theorem fittedThroughout_subtracted (aspect : Aspect) : subtracted.FittedThroughout aspect := by
  refine .of_nodes (by decide) (by decide) ?_
  intro entry hentry iterations scanInputs stateVars shapes hop hshapes body hbody
  simp only [subtracted, mem_cons, not_mem_nil, or_false] at hentry
  rcases hentry with rfl | rfl | rfl | rfl | rfl | rfl <;> cases hop
  cases hshapes
  obtain rfl := mem_singleton.1 hbody
  exact ⟨fittedThroughout_negated aspect, rfl, rfl, fun _ _ => rfl⟩

/-- A loop around a loop, on matrices by rows and on a state by columns. -/
theorem shape_of_scan_subtracted :
    ∃ s t u, (Operator.scan 2 1 1).evaluate s [matrixByRows, matrixByRows, matrixByRows]
        [subtracted.callable] = .ok t ∧ t.shape = s ∧
      (Operator.scan 2 1 1).evaluate s [matrixByColumns, matrixByRows, matrixByRows]
        [subtracted.callable] = .ok u ∧ u.shape.form = s.form := by
  obtain ⟨t, ht⟩ := isOk_eq_true_iff.1 (by decide +kernel :
    ((Operator.scan 2 1 1).evaluate (.ofParts [rowWise, rowWise, rowWise])
      [matrixByRows, matrixByRows, matrixByRows] [subtracted.callable]).isOk = true)
  obtain ⟨u, hu⟩ := isOk_eq_true_iff.1 (by decide +kernel :
    ((Operator.scan 2 1 1).evaluate (.ofParts [rowWise, rowWise, rowWise])
      [matrixByColumns, matrixByRows, matrixByRows] [subtracted.callable]).isOk = true)
  refine ⟨_, t, u, ht, ?_, hu, ?_⟩
  · have hinfer : (Operator.scan 2 1 1 : Operator Float32).infer
        (Tensor.shapes [matrixByRows, matrixByRows, matrixByRows]) (signatures [subtracted]) =
          .ok (.ofParts [rowWise, rowWise, rowWise]) := by rfl
    have hfits : LoopFits id 2 1 1 [rowWise, rowWise, rowWise] subtracted.signature :=
      ⟨rfl, rfl, by decide⟩
    refine (shape_of_scan hinfer ht).1 fun body hbody => ?_
    obtain rfl := mem_singleton.1 hbody
    exact ⟨fittedThroughout_subtracted _, hfits⟩
  · have hinfer : (Operator.scan 2 1 1 : Operator Float32).infer
        (Tensor.shapes [matrixByColumns, matrixByRows, matrixByRows]) (signatures [subtracted]) =
          .ok (.ofParts [rowWise, rowWise, rowWise]) := by rfl
    have hfits : LoopFits Shape.elem 2 1 1 [matrixByColumns.shape, rowWise, rowWise]
        subtracted.signature := ⟨rfl, rfl, by decide⟩
    refine (shape_of_scan hinfer hu).2.1 (by decide) fun body hbody => ?_
    obtain rfl := mem_singleton.1 hbody
    refine ⟨fittedThroughout_subtracted _, fun shape hshape => ?_, hfits⟩
    have hrows : ∀ shape ∈ subtracted.signature.declared ++ subtracted.signature.outputs,
        shape = rowWise := by decide
    exact ⟨_, _, hrows shape hshape⟩

/-- Give back a matrix. -/
def echoed : Graph Float32 :=
  ⟨"echoed", [(0, ⟨.parameter "x" rowWise, rowWise, [], []⟩), (1, ⟨.returns, .ofParts [rowWise], [0], []⟩)],
    [], 2⟩

/-- A state by columns comes back by columns, though the body declares it by rows. -/
theorem not_shape_of_scan :
    ¬ ∀ (iterations scanInputs stateVars : Nat) (modules : List (Graph Float32))
      (inputs : List (Tensor Float32)) (s : Shape) (t : Tensor Float32),
      (∀ body ∈ modules, body.FittedThroughout .whole) →
      (Operator.scan iterations scanInputs stateVars : Operator Float32).infer
        (Tensor.shapes inputs) (signatures modules) = .ok s →
      (Operator.scan iterations scanInputs stateVars).evaluate s inputs (modules.map callable) =
        .ok t → t.shape = s := by
  intro hclaim
  have hbare : ∀ entry ∈ echoed.nodes, entry.2.modules = [] := by decide
  have hfitted : echoed.FittedThroughout .whole := by
    refine .of_nodes (by decide) (by decide) fun entry hentry _ _ _ _ _ _ body hbody => ?_
    rw [hbare entry hentry] at hbody
    cases hbody
  have hshape := hclaim 1 0 1 [echoed] [matrixByColumns] (.ofParts [rowWise])
    (.tuple [matrixByColumns])
    (fun body hbody => (mem_singleton.1 hbody) ▸ hfitted) rfl rfl
  exact absurd hshape (by decide)

end Concrete

end TensorGraph
