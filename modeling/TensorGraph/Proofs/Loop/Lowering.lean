import TensorGraph.Proofs.Einsum.Definition
import TensorGraph.Proofs.Graph.History
import TensorGraph.Proofs.Graph.Nesting
import TensorGraph.Proofs.Graph.Parameters
import TensorGraph.Proofs.Graph.Rollback
import TensorGraph.Proofs.Loop.Emission
import TensorGraph.Proofs.Loop.Semantics
import TensorGraph.Proofs.Loop.Stacks

/-!
# A lowered loop runs the loop

The value of a result is taken apart along its instructions, down to the arguments: it is a state after
the last iteration, or the scan outputs of all iterations stacked along their axis.
-/

namespace TensorGraph

open List

variable {α : Type} [Scalar α] {index : Nat}

namespace Graph

/-! ## Values of applied nodes -/

section Values

variable {run : Runner α} {g h : Graph α} {bindings : Bindings α} {node : NodeId} {t : Tensor α}
  {op : Operator α}

/-- What a node yields its operator makes of what its inputs yield. -/
theorem Applies.of_yields {inputs : List NodeId} {modules : List (Graph α)}
    (happlies : g.Applies node op inputs modules) (hop : op.isParameter = false)
    (hyields : Yields run g bindings node t) :
    ∃ args, Forall₂ (Yields run g bindings) inputs args ∧
      op.apply args (modules.map (callableBy run)) = .ok t := by
  obtain ⟨shape, hfound⟩ := happlies
  exact hyields.exists_args hfound hop

/-- With one input and no modules. -/
theorem Applies.of_yields_one {input : NodeId} (happlies : g.Applies node op [input] [])
    (hop : op.isParameter = false) (hyields : Yields run g bindings node t) :
    ∃ a, Yields run g bindings input a ∧ op.apply [a] [] = .ok t := by
  obtain ⟨args, hargs, happly⟩ := happlies.of_yields hop hyields
  obtain ⟨a, rfl, ha⟩ := exists_of_forall₂_one hargs
  exact ⟨a, ha, happly⟩

theorem Applies.of_yields_two {first second : NodeId}
    (happlies : g.Applies node op [first, second] []) (hop : op.isParameter = false)
    (hyields : Yields run g bindings node t) :
    ∃ a b, Yields run g bindings first a ∧ Yields run g bindings second b ∧
      op.apply [a, b] [] = .ok t := by
  obtain ⟨args, hargs, happly⟩ := happlies.of_yields hop hyields
  obtain ⟨a, others, ha, hothers, rfl⟩ := forall₂_cons_left_iff.1 hargs
  obtain ⟨b, rfl, hb⟩ := exists_of_forall₂_one hothers
  exact ⟨a, b, ha, hb, happly⟩

/-- A node of a graph has the value that it has where the graph has grown. -/
theorem Yields.of_extends (hlinked : g.Linked) (hextends : g.Extends h) (hlive : node ∈ g.order)
    (hyields : Yields (runWithin h.depth) h bindings node t) :
    Yields (runWithin g.depth) g bindings node t := by
  induction hyields with
  | parameter hfound hop hbound =>
    obtain ⟨stored, hstored⟩ := exists_find?_of_mem_order hlive
    cases hfound.symm.trans (hextends hstored)
    exact .parameter hstored hop hbound
  | @apply node stored args t hfound hop hlength hargs happly ih =>
    obtain ⟨stored', hstored⟩ := exists_find?_of_mem_order hlive
    cases hfound.symm.trans (hextends hstored)
    refine .apply hstored hop hlength (fun hmem => ih hmem ?_) ?_
    · exact hlinked.input_live _ (mem_nodes_of_find? hstored) _ (of_mem_zip hmem).1
    · rwa [map_callableBy_depth hstored, ← map_callableBy_depth hfound]

/-- Growth changes no value. -/
theorem value_iff_of_extends (hlinked : g.Linked) (hextends : g.Extends h) (hlive : node ∈ g.order) :
    h.value bindings node = .ok t ↔ g.value bindings node = .ok t := by
  rw [value_eq_ok_iff_yields, value_eq_ok_iff_yields]
  exact ⟨Yields.of_extends hlinked hextends hlive, Yields.mono_extends hextends⟩

end Values

/-- A graph that can be run returns as many values as it has shapes for. -/
theorem length_of_run {g : Graph α} {bindings : Bindings α} {values : List (Tensor α)}
    (hrun : g.run bindings = .ok values) : values.length = g.outputShapes.length := by
  rw [run_eq_valuesWith] at hrun
  have hvalues := valuesWith_yields hrun
  have hfound : ∀ node ∈ g.results, ∃ shape, (g.find? node).map (·.shape) = some shape := by
    intro node hnode
    obtain ⟨value, -, hyields⟩ := exists_mem_right_of_forall₂ hvalues hnode
    obtain ⟨stored, hstored⟩ := exists_find?_of_mem_order hyields.mem_order
    exact ⟨stored.shape, by rw [hstored, Option.map_some]⟩
  rw [← hvalues.length_eq, outputShapes]
  generalize g.results = nodes at hfound
  induction nodes with
  | nil => rfl
  | cons node nodes ih =>
    rw [forall_mem_cons] at hfound
    obtain ⟨⟨shape, hshape⟩, hrest⟩ := hfound
    rw [filterMap_cons, hshape, length_cons, length_cons, ih hrest]

end Graph

namespace Loop

open Graph

variable {run : Runner α} {g : Graph α} {plan : Plan α} {bindings : Bindings α}

/-! ## Slices -/

section Slices

variable {scanned nodes : List NodeId} {values cuts : List (Tensor α)} {iteration : Nat}

theorem ScanInput.position_lt (input : ScanInput) {iterations : Nat}
    (hiteration : iteration < iterations) : input.position iterations iteration < iterations := by
  unfold ScanInput.position
  split_ifs <;> omega

omit [Scalar α] in
/-- Every position is cut out, so all of them are signed numbers. -/
theorem iterations_lt {groups : List (List NodeId)}
    (hcuts : Forall₂ (CutNodes g plan scanned) (List.range plan.iterations) groups)
    (hscanned : scanned.zip plan.inputs ≠ []) : plan.iterations < Word.signedLimit := by
  by_contra hlarge
  obtain ⟨⟨arg, input⟩, rest, hitems⟩ := exists_cons_of_ne_nil hscanned
  -- The iteration that reads the greatest signed position.
  obtain ⟨iteration, hbelow, hposition⟩ : ∃ iteration, iteration < plan.iterations ∧
      input.position plan.iterations iteration = Word.signedLimit - 1 := by
    unfold ScanInput.position
    have hpos : 0 < Word.signedLimit := by decide
    by_cases hreversed : input.reversed = true
    · exact ⟨plan.iterations - Word.signedLimit, by omega, by rw [if_pos hreversed]; omega⟩
    · exact ⟨Word.signedLimit - 1, by omega, if_neg hreversed⟩
  obtain ⟨own, -, hown⟩ := exists_mem_right_of_forall₂ hcuts (mem_range.2 hbelow)
  rw [CutNodes, hitems] at hown
  obtain ⟨node, others, hnode, -, -⟩ := forall₂_cons_left_iff.1 hown
  obtain ⟨last, cut, hlast, -⟩ := hnode
  dsimp only at hlast
  rw [hposition] at hlast
  cases hlast

theorem CutNode.of_yields {arg node : NodeId} {axis position : Nat} {t : Tensor α}
    (hnode : CutNode g arg axis position node) (hposition : position < Word.signedLimit)
    (hyields : Yields run g bindings node t) :
    ∃ a, Yields run g bindings arg a ∧ cutAt axis position a = .ok t := by
  obtain ⟨last, cut, hlast, hcut, hnode⟩ := hnode
  have hsigned : Word.toSigned position = (position : Int) := if_pos hposition
  rw [hsigned] at hlast hcut
  have hnext : last = (position : Int) + 1 := by
    unfold Word.addSigned at hlast
    split_ifs at hlast
    cases hlast
    rfl
  obtain ⟨slice, hslice, hsqueeze⟩ := hnode.of_yields_one rfl hyields
  obtain ⟨a, ha, hcut⟩ := hcut.of_yields_one rfl hslice
  refine ⟨a, ha, bind_eq_ok_iff.2 ⟨slice, ?_, hsqueeze⟩⟩
  rw [← hnext]
  exact hcut

/-- What the slices of an iteration yield are the slices that it reads. -/
theorem slices_of_yields (hiteration : iteration < plan.iterations)
    (hsigned : plan.iterations < Word.signedLimit)
    (hnodes : CutNodes g plan scanned iteration nodes)
    (hvalues : Forall₂ (Yields run g bindings) scanned values)
    (hcuts : Forall₂ (Yields run g bindings) nodes cuts) :
    plan.slices values iteration = .ok cuts := by
  rw [Plan.slices, mapM_eq_ok_iff]
  unfold CutNodes at hnodes
  generalize plan.inputs = inputs at hnodes
  induction hvalues generalizing inputs nodes cuts with
  | nil =>
    obtain rfl := forall₂_nil_left_iff.1 hnodes
    obtain rfl := forall₂_nil_left_iff.1 hcuts
    exact .nil
  | @cons arg value scanned values hvalue _ ih =>
    cases inputs with
    | nil =>
      obtain rfl := forall₂_nil_left_iff.1 hnodes
      obtain rfl := forall₂_nil_left_iff.1 hcuts
      exact .nil
    | cons input inputs =>
      obtain ⟨node, nodes, hnode, hothers, rfl⟩ := forall₂_cons_left_iff.1 hnodes
      obtain ⟨cut, cuts, hcut, hrest, rfl⟩ := forall₂_cons_left_iff.1 hcuts
      obtain ⟨a, ha, hrun⟩ := CutNode.of_yields hnode
        ((input.position_lt hiteration).trans hsigned) hcut
      obtain rfl := ha.unique hvalue
      exact .cons hrun (ih hrest inputs hothers)

/-- Scan inputs whose slices yield values yield values. -/
theorem exists_scanned (hiteration : iteration < plan.iterations)
    (hsigned : plan.iterations < Word.signedLimit) (hlength : scanned.length = plan.inputs.length)
    (hnodes : CutNodes g plan scanned iteration nodes)
    (hcuts : Forall₂ (Yields run g bindings) nodes cuts) :
    ∃ values, Forall₂ (Yields run g bindings) scanned values := by
  apply exists_forall₂
  intro arg harg
  rw [← map_fst_zip hlength.le, mem_map] at harg
  obtain ⟨⟨arg, input⟩, hitem, rfl⟩ := harg
  obtain ⟨node, hmem, hnode⟩ := exists_mem_right_of_forall₂ hnodes hitem
  obtain ⟨cut, -, hcut⟩ := exists_mem_right_of_forall₂ hcuts hmem
  obtain ⟨a, ha, -⟩ := CutNode.of_yields hnode ((input.position_lt hiteration).trans hsigned) hcut
  exact ⟨a, ha⟩

end Slices

/-! ## The loop over the slices -/

section Flat

variable {β : Type} {groups : List (List β)} {width : Nat}
  (hwidth : ∀ own ∈ groups, own.length = width)

include hwidth

/-- Lists of one length that stand one after the other, each where it starts. -/
theorem take_drop_flatten {i : Nat} {own : List β} (hown : groups[i]? = some own) :
    (groups.flatten.drop (i * width)).take width = own := by
  induction groups generalizing i with
  | nil => cases hown
  | cons first rest ih =>
    rw [forall_mem_cons] at hwidth
    obtain ⟨rfl, hwidth⟩ := hwidth
    cases i with
    | zero =>
      cases hown
      rw [Nat.zero_mul, drop_zero, flatten_cons, take_left]
    | succ i =>
      rw [flatten_cons, Nat.succ_mul, Nat.add_comm, ← drop_drop, drop_left]
      exact ih hwidth hown

theorem getElem?_flatten {i j : Nat} {own : List β} (hown : groups[i]? = some own) (hj : j < width) :
    groups.flatten[i * width + j]? = own[j]? := by
  rw [← take_drop_flatten hwidth hown, getElem?_take_of_lt hj, getElem?_drop]

end Flat

/-- The state of the loop operator after some iterations is that of the loop. -/
structure Agrees (plan : Plan α) (values : List (Tensor α)) (iteration : Nat)
    (current : Evaluation.ScanState α) : Prop where
  states : plan.statesAfter values iteration = .ok current.states
  length : current.states.length = plan.states
  /-- The scan outputs of the iterations follow each other. -/
  scanned : ∃ outs : List (List (Tensor α)), current.scanned = outs.flatten ∧
    Forall₂ (fun k own => plan.outputsOf values k = .ok own) (List.range iteration) outs ∧
    ∀ own ∈ outs, own.length = plan.outputs.length

/-- One iteration of the operator is one of the loop. -/
theorem Agrees.step {op : String} {values inputs cuts : List (Tensor α)} {iteration : Nat}
    {current next : Evaluation.ScanState α} (hagrees : Agrees plan values iteration current)
    (hreturns : plan.states + plan.outputs.length = plan.body.outputShapes.length)
    (hslices : plan.slices (values.drop plan.states) iteration = .ok cuts)
    (hcuts : (inputs.drop (plan.states + iteration * plan.inputs.length)).take plan.inputs.length =
      cuts)
    (hrun : Evaluation.scanStep op plan.inputs.length plan.states plan.body.callable inputs current
      iteration = .ok next) :
    Agrees plan values (iteration + 1) next := by
  unfold Evaluation.scanStep Inference.iterationArgs at hrun
  rw [hcuts] at hrun
  obtain ⟨returned, hreturned, hrun⟩ := bind_eq_ok_iff.1 hrun
  have hbody : plan.body.run (plan.body.parameterNames.zip (current.states ++ cuts)) =
      .ok returned := by
    rw [← signature_parameterNames]
    exact hreturned
  have hlength := length_of_run hbody
  split_ifs at hrun with hfew
  · cases hrun
  cases hrun
  have hiterate : plan.iterate (values.drop plan.states) current.states iteration =
      .ok (returned.take plan.states, returned.drop plan.states) :=
    bind_eq_ok_iff.2 ⟨cuts, hslices, bind_eq_ok_iff.2 ⟨returned, hbody, rfl⟩⟩
  obtain ⟨outs, hscanned, houts, hwidth⟩ := hagrees.scanned
  refine ⟨bind_eq_ok_iff.2 ⟨_, hagrees.states, bind_eq_ok_iff.2 ⟨_, hiterate, rfl⟩⟩, ?_,
    outs ++ [returned.drop plan.states], ?_, ?_, ?_⟩
  · rw [length_take]
    omega
  · rw [hscanned, flatten_append, flatten_singleton]
  · rw [range_succ]
    refine rel_append houts (.cons ?_ .nil)
    exact bind_eq_ok_iff.2 ⟨_, hagrees.states, bind_eq_ok_iff.2 ⟨_, hiterate, rfl⟩⟩
  · rw [forall_mem_append, forall_mem_singleton, length_drop]
    exact ⟨hwidth, by omega⟩

/-- The components after the states are the scan outputs, iteration by iteration. -/
theorem Agrees.getElem?_scanned {values : List (Tensor α)} {iteration : Nat}
    {final : Evaluation.ScanState α} (hagrees : Agrees plan values iteration final) {k j : Nat}
    (hk : k < iteration) (hj : j < plan.outputs.length) {part : Tensor α}
    (hpart : (final.states ++ final.scanned)[plan.states + k * plan.outputs.length + j]? =
      some part) :
    ∃ outs, plan.outputsOf values k = .ok outs ∧ outs[j]? = some part := by
  obtain ⟨outs, hscanned, houts, hwidth⟩ := hagrees.scanned
  obtain ⟨own, hown, hrun⟩ := exists_getElem?_of_forall₂ houts.flip (getElem?_range hk)
  refine ⟨own, hrun, ?_⟩
  rw [Nat.add_assoc, ← hagrees.length, getElem?_append_right (Nat.le_add_right _ _),
    Nat.add_sub_cancel_left, hscanned, getElem?_flatten hwidth hown hj] at hpart
  exact hpart

section Run

variable {args : List NodeId} {values : List (Tensor α)} {loop : NodeId}
  {cuts : List (List NodeId)} {g₀ : Graph α} {node : FrameworkNode α}

/-- The values that the loop operator is given: the states, then the slices of every iteration. -/
theorem exists_values (hplan : plan.Describes g₀ node args)
    (hcuts : Forall₂ (CutNodes g plan (args.drop plan.states)) (List.range plan.iterations) cuts)
    {inputs : List (Tensor α)}
    (hinputs : Forall₂ (Yields run g bindings) (args.take plan.states ++ cuts.flatten) inputs) :
    ∃ values, Forall₂ (Yields run g bindings) args values ∧
      inputs.take plan.states = values.take plan.states ∧
      ∀ iteration < plan.iterations, ∃ own,
        plan.slices (values.drop plan.states) iteration = .ok own ∧
        (inputs.drop (plan.states + iteration * plan.inputs.length)).take plan.inputs.length =
          own := by
  have hlength : (args.drop plan.states).length = plan.inputs.length := by
    rw [length_drop, ← hplan.arity, Nat.add_sub_cancel_left]
  have hsigned : plan.iterations < Word.signedLimit := by
    refine iterations_lt hcuts (ne_nil_of_length_pos ?_)
    rw [length_zip, hlength, Nat.min_self]
    exact hplan.inputs_pos
  -- The inputs fall into the states and one group of slices for each iteration.
  obtain ⟨runs, rest, rfl, hruns, hrest⟩ := forall₂_flatten_append
    (show Forall₂ _ ((args.take plan.states :: cuts).flatten ++ []) inputs by
      simpa using hinputs)
  obtain rfl := forall₂_nil_left_iff.1 hrest
  obtain ⟨states, groups, hstates, hgroups, rfl⟩ := forall₂_cons_left_iff.1 hruns
  have hcount : states.length = plan.states := by
    rw [← hstates.length_eq, length_take, ← hplan.arity, Nat.min_eq_left (Nat.le_add_right _ _)]
  have hwidth : ∀ own ∈ groups, own.length = plan.inputs.length := by
    intro own hown
    obtain ⟨nodes, hnodes, hyields⟩ := exists_mem_right_of_forall₂ hgroups.flip hown
    obtain ⟨iteration, -, hcut⟩ := exists_mem_right_of_forall₂ hcuts.flip hnodes
    rw [← Forall₂.length_eq hyields, ← Forall₂.length_eq hcut, length_zip, hlength,
      Nat.min_self]
  have hgroup : ∀ iteration < plan.iterations, ∃ nodes own, groups[iteration]? = some own ∧
      CutNodes g plan (args.drop plan.states) iteration nodes ∧
      Forall₂ (Yields run g bindings) nodes own := by
    intro iteration hiteration
    obtain ⟨nodes, hnodes, hcut⟩ := exists_getElem?_of_forall₂ hcuts.flip
      (getElem?_range hiteration)
    obtain ⟨own, hown, hyields⟩ := exists_getElem?_of_forall₂ hgroups.flip hnodes
    exact ⟨nodes, own, hown, hcut, hyields⟩
  obtain ⟨nodes, own, -, hcut, hyields⟩ := hgroup 0 hplan.iterations_pos
  obtain ⟨scanned, hscanned⟩ := exists_scanned hplan.iterations_pos hsigned hlength hcut hyields
  refine ⟨states ++ scanned, ?_, ?_, fun iteration hiteration => ?_⟩
  · rw [← take_append_drop plan.states args]
    exact rel_append hstates hscanned
  · rw [append_nil, flatten_cons, take_left' hcount, take_left' hcount]
  · obtain ⟨nodes, own, hown, hcut, hyields⟩ := hgroup iteration hiteration
    refine ⟨own, ?_, ?_⟩
    · rw [drop_left' hcount]
      exact slices_of_yields hiteration hsigned hcut hscanned hyields
    · rw [append_nil, flatten_cons, ← drop_drop, drop_left' hcount]
      exact take_drop_flatten hwidth hown

/-- What the loop yields: the final states, then the scan outputs of every iteration. -/
theorem tuple_of_yields (hplan : plan.Describes g₀ node args)
    (hloop : g.Applies loop (.scan plan.iterations plan.inputs.length plan.states)
      (args.take plan.states ++ cuts.flatten) [plan.body])
    (hcuts : Forall₂ (CutNodes g plan (args.drop plan.states)) (List.range plan.iterations) cuts)
    {v : Tensor α} (hyields : Yields (runWithin g.depth) g bindings loop v) :
    ∃ values final, Forall₂ (Yields (runWithin g.depth) g bindings) args values ∧
      Agrees plan values plan.iterations final ∧ v = .tuple (final.states ++ final.scanned) := by
  obtain ⟨inputs, hinputs, happly⟩ := hloop.of_yields rfl hyields
  obtain ⟨values, hvalues, htake, hslices⟩ := exists_values hplan hcuts hinputs
  obtain ⟨shape, hfound⟩ := hloop
  have hbody : [plan.body].map (callableBy (runWithin g.depth)) = [plan.body.callable] :=
    map_callableBy_depth hfound
  rw [hbody] at happly
  obtain ⟨out, -, hrun⟩ := Operator.apply_eq_ok_iff.1 happly
  obtain ⟨body, hsingle, hrun⟩ := bind_eq_ok_iff.1
    (show Evaluation.scanValue _ _ _ _ inputs [plan.body.callable] = .ok v from hrun)
  obtain rfl : plan.body.callable = body := Except.ok.inj (Outcome.liftShape_eq_ok_iff.1 hsingle)
  obtain ⟨final, hfinal, hrun⟩ := bind_eq_ok_iff.1 hrun
  cases hrun
  refine ⟨values, final, hvalues, ?_, rfl⟩
  have hlength : values.length = plan.states + plan.inputs.length :=
    hvalues.length_eq.symm.trans hplan.arity.symm
  rw [← Nat.zero_add plan.iterations]
  refine foldCountM_invariant (Agrees plan values) (fun i current next hi hagrees hstep => ?_)
    ⟨?_, ?_, [], rfl, .nil, by simp⟩ hfinal
  · rw [Nat.zero_add] at hi
    obtain ⟨own, hown, hcut⟩ := hslices i hi
    exact hagrees.step hplan.returns hown hcut hstep
  · rw [htake]
    rfl
  · rw [htake, length_take]
    omega

end Run

/-! ## The components of the loop -/

section Components

variable {loop node : NodeId} {t : Tensor α}

theorem component_of_yields (hnode : g.Applies node (.tupleElem index) [loop] [])
    (hyields : Yields run g bindings node t) :
    ∃ v, Yields run g bindings loop v ∧ v.parts[index]? = some t := by
  obtain ⟨v, hv, happly⟩ := hnode.of_yields_one rfl hyields
  obtain ⟨out, -, hrun⟩ := Operator.apply_eq_ok_iff.1 happly
  exact ⟨v, hv, Operator.tupleElem_eq_ok_iff.1 hrun⟩

theorem ScannedNode.of_yields {axis : Nat} (hnode : ScannedNode g loop index axis node)
    (hyields : Yields run g bindings node t) :
    ∃ v part, Yields run g bindings loop v ∧ v.parts[index]? = some part ∧
      Tensor.Stacked axis [part] t := by
  obtain ⟨component, hcomponent, hnode⟩ := hnode
  obtain ⟨part, hpart, happly⟩ := hnode.of_yields_one rfl hyields
  obtain ⟨v, hv, hindex⟩ := component_of_yields hcomponent hpart
  exact ⟨v, part, hv, hindex, stacked_unsqueeze happly⟩

/-- A stack yields the scan outputs of its iterations, stacked along the axis. -/
theorem StackNode.of_yields {output : ScanOutput} {j iteration : Nat}
    (hnode : StackNode g plan loop output j iteration node) (hyields : Yields run g bindings node t) :
    ∃ v parts, Yields run g bindings loop v ∧
      Forall₂ (fun k part => v.parts[plan.states + k * plan.outputs.length + j]? = some part)
        (List.range (iteration + 1)) parts ∧
      Tensor.Stacked output.axis (if output.prepended then parts.reverse else parts) t := by
  induction iteration generalizing node t with
  | zero =>
    obtain ⟨v, part, hv, hpart, hstacked⟩ := ScannedNode.of_yields hnode hyields
    refine ⟨v, [part], hv, .cons ?_ .nil, ?_⟩
    · rwa [Nat.zero_mul, Nat.add_zero]
    · rwa [reverse_singleton, ite_self]
  | succ iteration ih =>
    obtain ⟨stack, next, hstack, hnext, hnode⟩ := hnode
    obtain ⟨a, b, ha, hb, happly⟩ : ∃ a b, Yields run g bindings stack a ∧
        Yields run g bindings next b ∧
        (Operator.concat (output.axis : Int)).apply
          (if output.prepended then [b, a] else [a, b]) [] = .ok t := by
      split_ifs at hnode ⊢ with hprepended
      · obtain ⟨b, a, hb, ha, happly⟩ := hnode.of_yields_two rfl hyields
        exact ⟨a, b, ha, hb, happly⟩
      · exact hnode.of_yields_two rfl hyields
    obtain ⟨v, parts, hv, hparts, hstacked⟩ := ih hstack ha
    obtain ⟨v', part, hv', hpart, hlast⟩ := ScannedNode.of_yields hnext hb
    obtain rfl := hv.unique hv'
    refine ⟨v, parts ++ [part], hv, ?_, ?_⟩
    · rw [range_succ]
      exact rel_append hparts (.cons hpart .nil)
    · split_ifs at hstacked happly ⊢ with hprepended
      · rw [reverse_append, reverse_singleton]
        exact stacked_concat hlast hstacked happly
      · exact stacked_concat hstacked hlast happly

end Components

/-! ## The lowered loop -/

section Lowered

variable {g g' : Graph α} {node : FrameworkNode α} {args results : List NodeId}

omit [Scalar α] in
/-- What a lowering that went through leaves behind. -/
theorem lower_eq_ok (hindexed : g.Indexed) (hlower : lower node args g = .ok results g') :
    ∃ plan, plan.Describes g node args ∧ g.Extends g' ∧ LoopNodes g' plan args results := by
  rw [lower, stateGet_bind] at hlower
  obtain ⟨plan, hplan, hemitted⟩ := Change.lift_bind_eq_ok_iff.1 hlower
  obtain ⟨e, hemit, rfl⟩ := Emit.commit_eq_ok_iff.1 (Change.widen_eq_ok_iff.1 hemitted)
  obtain ⟨hextends, -, hnodes⟩ := leaves_plan plan args hindexed hemit
  exact ⟨plan, plan_describes hplan, hextends, hnodes⟩

omit [Scalar α] in
theorem LoopNodes.length_results (hnodes : LoopNodes g plan args results) :
    results.length = plan.states + plan.outputs.length := by
  obtain ⟨loop, cuts, states, piles, rfl, -, -, hstates, hpiles⟩ := hnodes
  rw [length_append, ← hstates.length_eq, ← hpiles.length_eq, length_range,
    length_zipIdx]

/-- The value of a result is a state or a stack of scan outputs of the loop. -/
theorem LoopNodes.of_yields {g₀ : Graph α} (hplan : plan.Describes g₀ node args)
    (hnodes : LoopNodes g plan args results) {result : NodeId} {t : Tensor α}
    (hresult : results[index]? = some result)
    (hyields : Yields (runWithin g.depth) g bindings result t) :
    ∃ values, Forall₂ (Yields (runWithin g.depth) g bindings) args values ∧
      (index < plan.states → ∃ states,
        plan.statesAfter values plan.iterations = .ok states ∧ states[index]? = some t) ∧
      ∀ j output, index = plan.states + j → plan.outputs[j]? = some output →
        t.lens[output.axis]? = some plan.iterations ∧
        ∀ p < plan.iterations, ∃ outs out,
          plan.outputsOf values (if output.prepended then plan.iterations - 1 - p else p) =
            .ok outs ∧
          outs[j]? = some out ∧ out.IsSlice t output.axis p := by
  obtain ⟨loop, cuts, states, piles, rfl, hloop, hcuts, hstates, hpiles⟩ := hnodes
  have hcount : states.length = plan.states := by
    rw [← hstates.length_eq, length_range]
  by_cases hindex : index < plan.states
  · rw [getElem?_append_left (hcount ▸ hindex)] at hresult
    obtain ⟨n, hn, hnode⟩ := exists_getElem?_of_forall₂ hstates hresult
    rw [getElem?_range hindex] at hn
    cases hn
    obtain ⟨v, hv, hpart⟩ := component_of_yields hnode hyields
    obtain ⟨values, final, hvalues, hagrees, rfl⟩ := tuple_of_yields hplan hloop hcuts hv
    refine ⟨values, hvalues, fun _ => ⟨final.states, hagrees.states, ?_⟩, ?_⟩
    · rwa [Tensor.parts, getElem?_append_left (hagrees.length ▸ hindex)] at hpart
    · intro j output hj
      omega
  · rw [getElem?_append_right (by omega), hcount] at hresult
    obtain ⟨⟨output, j⟩, houtput, hnode⟩ := exists_getElem?_of_forall₂ hpiles hresult
    rw [getElem?_zipIdx, Option.map_eq_some_iff] at houtput
    obtain ⟨output, houtput, heq⟩ := houtput
    cases heq
    obtain ⟨v, parts, hv, hparts, hstacked⟩ := StackNode.of_yields hnode hyields
    obtain ⟨values, final, hvalues, hagrees, rfl⟩ := tuple_of_yields hplan hloop hcuts hv
    refine ⟨values, hvalues, fun h => absurd h hindex, ?_⟩
    intro j output' hj houtput'
    obtain rfl : index - plan.states = j := by omega
    obtain rfl := Option.some.inj (houtput.symm.trans houtput')
    have hj := (List.getElem?_eq_some_iff.1 houtput).1
    rw [Nat.sub_add_cancel hplan.iterations_pos] at hparts
    have hlength : parts.length = plan.iterations := by
      rw [← hparts.length_eq, length_range]
    refine ⟨?_, fun p hp => ?_⟩
    · rw [hstacked.len]
      split_ifs <;> simp [hlength]
    -- The iteration whose scan output stands at this position.
    · have hk : (if output.prepended then plan.iterations - 1 - p else p) < plan.iterations := by
        split_ifs <;> omega
      obtain ⟨part, hpart, hcomponent⟩ := exists_getElem?_of_forall₂ hparts.flip
        (getElem?_range hk)
      rw [Nat.zero_add] at hcomponent
      obtain ⟨outs, hrun, hout⟩ := hagrees.getElem?_scanned hk hj hcomponent
      refine ⟨outs, part, hrun, hout, hstacked.slice p part ?_⟩
      rw [← hpart]
      split_ifs
      · rw [getElem?_reverse (hlength ▸ hp), hlength]
      · rfl

end Lowered

end Loop

/-- A lowered scan node runs the loop that it describes. The values of the nodes that were there before
stay as they were. Whatever the first results evaluate to are the states after the last iteration, and
each further result is as long as the loop along the axis of its scan output and holds there, slice by
slice, what the iterations gave, in the order that the direction says. -/
theorem lowered_loop_runs_loop {g g' : Graph α} (hlinked : g.Linked) {node : FrameworkNode α}
    {args results : List NodeId} (hlower : Loop.lower node args g = .ok results g') :
    ∃ plan : Loop.Plan α, plan.Describes g node args ∧
      results.length = plan.states + plan.outputs.length ∧
      ∀ bindings,
        (∀ old ∈ g.order, ∀ v, g'.value bindings old = .ok v ↔ g.value bindings old = .ok v) ∧
        ∀ index result t, results[index]? = some result → g'.value bindings result = .ok t →
          ∃ values, Forall₂ (fun arg v => g'.value bindings arg = .ok v) args values ∧
            (index < plan.states → ∃ states,
              plan.statesAfter values plan.iterations = .ok states ∧ states[index]? = some t) ∧
            ∀ j output, index = plan.states + j → plan.outputs[j]? = some output →
              t.lens[output.axis]? = some plan.iterations ∧
              ∀ p < plan.iterations, ∃ outs out,
                plan.outputsOf values (if output.prepended then plan.iterations - 1 - p else p) =
                  .ok outs ∧
                outs[j]? = some out ∧ out.IsSlice t output.axis p := by
  obtain ⟨plan, hplan, hextends, hnodes⟩ := Loop.lower_eq_ok hlinked.toIndexed hlower
  refine ⟨plan, hplan, hnodes.length_results, fun bindings => ⟨?_, ?_⟩⟩
  · intro old hold v
    exact Graph.value_iff_of_extends hlinked hextends hold
  · intro index result t hresult hvalue
    obtain ⟨values, hvalues, hresults⟩ :=
      hnodes.of_yields hplan hresult (Graph.value_eq_ok_iff_yields.1 hvalue)
    refine ⟨values, hvalues.imp fun _ _ hyields => ?_, hresults⟩
    exact Graph.value_eq_ok_iff_yields.2 hyields

/-- The sum of two numbers, twice. -/
def twiceSum : Graph (Positioned ℕ) where
  name := "sum"
  nodes :=
    [(1, ⟨.parameter "b" (.strided .float32 []), .strided .float32 [], [], []⟩),
     (0, ⟨.parameter "a" (.strided .float32 []), .strided .float32 [], [], []⟩),
     (2, ⟨.binary .add, .strided .float32 [], [0, 1], []⟩),
     (3, ⟨.returns, .strided .float32 [], [2, 2], []⟩)]
  vacant := []
  fresh := 4

/-- A number to start from and three more to add. -/
def summands : Graph (Positioned ℕ) where
  name := "main"
  nodes :=
    [(1, ⟨.parameter "x" (.strided .float32 [⟨3, 1⟩]), .strided .float32 [⟨3, 1⟩], [], []⟩),
     (0, ⟨.parameter "s" (.strided .float32 []), .strided .float32 [], [], []⟩)]
  vacant := []
  fresh := 2

theorem linked_summands : summands.Linked := (by decide : summands.Coherent).linked

/-- Running sums from the last summand to the first, and stacked in the order of the summands. -/
def backwardSums : FrameworkNode (Positioned ℕ) where
  name := "sums"
  opType := "Scan"
  attributes :=
    [("body", .graph 0 twiceSum), ("num_scan_inputs", .int 1), ("scan_input_directions", .ints [1]),
     ("scan_output_axes", .ints [-1]), ("scan_output_directions", .ints [1])]

/-- The numbers. -/
def numbers : Bindings (Positioned ℕ) :=
  [("s", .strided .float32 [] #[⟨10, 0⟩]),
   ("x", .strided .float32 [⟨3, 1⟩] #[⟨1, 0⟩, ⟨2, 0⟩, ⟨3, 0⟩])]

/-- The entries of two results, if a lowering has two and they evaluate. -/
def entriesOfTwo {ε : Type} (bindings : Bindings (Positioned ℕ)) :
    EStateM.Result ε (Graph (Positioned ℕ)) (List NodeId) → Option (List ℕ × List ℕ)
  | .ok [first, second] g =>
    match g.value bindings first, g.value bindings second with
    | .ok (.strided _ _ a), .ok (.strided _ _ b) =>
      some (a.toList.map (·.value), b.toList.map (·.value))
    | _, _ => none
  | _ => none

theorem exists_entriesOfTwo {ε : Type} {bindings : Bindings (Positioned ℕ)}
    {result : EStateM.Result ε (Graph (Positioned ℕ)) (List NodeId)}
    (hentries : (entriesOfTwo bindings result).isSome = true) :
    ∃ first second g t u, result = .ok [first, second] g ∧ g.value bindings first = .ok t ∧
      g.value bindings second = .ok u := by
  unfold entriesOfTwo at hentries
  split at hentries
  · split at hentries
    · rename_i hfirst hsecond
      exact ⟨_, _, _, _, _, rfl, hfirst, hsecond⟩
    · cases hentries
  · cases hentries

/-- Both results have values: the sum of all, and the three running sums. -/
theorem runs_backwardSums :
    summands.Linked ∧
    entriesOfTwo numbers (Loop.lower backwardSums [0, 1] summands) = some ([16], [16, 15, 13]) ∧
    ∃ total sums g t u, Loop.lower backwardSums [0, 1] summands = .ok [total, sums] g ∧
      g.value numbers total = .ok t ∧ g.value numbers sums = .ok u ∧
      ∃ plan : Loop.Plan (Positioned ℕ), plan.Describes summands backwardSums [0, 1] ∧
        (∃ values states, plan.statesAfter values plan.iterations = .ok states ∧
          states[0]? = some t) ∧
        ∃ values output, plan.outputs[0]? = some output ∧
          u.lens[output.axis]? = some plan.iterations ∧
          ∀ p < plan.iterations, ∃ outs out,
            plan.outputsOf values (if output.prepended then plan.iterations - 1 - p else p) =
              .ok outs ∧
            outs[0]? = some out ∧ out.IsSlice u output.axis p := by
  have hentries : entriesOfTwo numbers (Loop.lower backwardSums [0, 1] summands) =
      some ([16], [16, 15, 13]) := by decide +kernel
  obtain ⟨total, sums, g, t, u, hlower, ht, hu⟩ :=
    exists_entriesOfTwo (Option.isSome_of_eq_some hentries)
  obtain ⟨plan, hplan, hlength, hvalues⟩ := lowered_loop_runs_loop linked_summands hlower
  have hinputs : plan.inputs.length = 1 := by
    have hgiven : some (Attribute.int 1) = some (.int (plan.inputs.length : Int)) := hplan.scanInputs
    exact_mod_cast (Attribute.int.inj (Option.some.inj hgiven)).symm
  have hstates : plan.states = 1 := by
    have harity := hplan.arity
    rw [hinputs] at harity
    simpa using harity
  have houtputs : plan.outputs.length = 1 := by
    rw [hstates] at hlength
    simpa [Nat.add_comm] using hlength.symm
  obtain ⟨output, houtput⟩ : ∃ output, plan.outputs[0]? = some output :=
    ⟨_, getElem?_eq_getElem (by omega)⟩
  obtain ⟨values, -, hstate, -⟩ := (hvalues numbers).2 0 total t rfl ht
  obtain ⟨values', -, -, hstack⟩ := (hvalues numbers).2 1 sums u rfl hu
  refine ⟨linked_summands, hentries, total, sums, g, t, u, hlower, ht, hu, plan, hplan, ?_, ?_⟩
  · exact ⟨values, hstate (by omega)⟩
  · exact ⟨values', output, houtput, hstack 0 output (by omega) houtput⟩

end TensorGraph
