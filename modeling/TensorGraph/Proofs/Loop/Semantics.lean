import TensorGraph.Graph.Evaluation
import TensorGraph.Loop.Plan
import TensorGraph.Proofs.Layout.Dense

/-!
# What a scan node asks for

`Plan.Describes` reads a loop off the attributes and the arguments: a body with states and scan inputs,
and for each scan input and output an axis and a direction.
-/

namespace TensorGraph.Loop

open List

variable {α : Type} {attributes : Attributes α} {attr : String}

/-- The entry of a list of numbers for a slot. A single number is a list of one, and a list that is not
given is zero everywhere. -/
def slot (attributes : Attributes α) (attr : String) (j : Nat) : Int :=
  match attributes.lookup attr with
  | some (.ints values) => values.getD j 0
  | some (.int value) => [value].getD j 0
  | _ => 0

/-- An axis that may be counted from the end. -/
def normalized (axis : Int) (rank : Nat) : Nat :=
  (if axis < 0 then axis + rank else axis).toNat

/-- The plan is the loop that a node asks for over these arguments: states first, then scan inputs. -/
structure Plan.Describes (plan : Plan α) (g : Graph α) (node : FrameworkNode α)
    (args : List NodeId) : Prop where
  /-- The body is the given one, under a name of its own. -/
  body : ∃ handle given, node.attributes.lookup "body" = some (.graph handle given) ∧
    plan.body = { given with name := plan.body.name }
  /-- The number of scan inputs is the given one. -/
  scanInputs : node.attributes.lookup "num_scan_inputs" = some (.int plan.inputs.length)
  /-- There is a scan input. -/
  inputs_pos : 0 < plan.inputs.length
  /-- Every argument is a state or a scan input. -/
  arity : plan.states + plan.inputs.length = args.length
  /-- Every value that the body returns is a state or a scan output. -/
  returns : plan.states + plan.outputs.length = plan.body.outputShapes.length
  /-- There is an iteration. -/
  iterations_pos : 0 < plan.iterations
  /-- A scan input is read along its axis, in its direction, which is as long as the loop. -/
  input : ∀ j input, plan.inputs[j]? = some input →
    ∃ arg shape, args[plan.states + j]? = some arg ∧ g.shape arg = .ok shape ∧
      input.axis = normalized (slot node.attributes "scan_input_axes" j) shape.rank ∧
      (input.reversed = true ↔ slot node.attributes "scan_input_directions" j = 1) ∧
      shape.lens[input.axis]? = some plan.iterations
  /-- A scan output is stacked along its axis, in its direction. -/
  output : ∀ j output, plan.outputs[j]? = some output →
    ∃ shape, plan.body.outputShapes[plan.states + j]? = some shape ∧
      output.axis = normalized (slot node.attributes "scan_output_axes" j) (shape.rank + 1) ∧
      (output.prepended = true ↔ slot node.attributes "scan_output_directions" j = 1)

section Loop

variable [Scalar α]

/-- One position along an axis, with the axis dropped. -/
def cutAt (axis position : Nat) (a : Tensor α) : Outcome EvalError (Tensor α) := do
  let slice ← (Operator.slice [axis] [(position : Int)] [(position : Int) + 1]).apply [a] []
  (Operator.squeeze [axis]).apply [slice] []

namespace Plan

variable (plan : Plan α)

/-- What an iteration reads of the scan inputs. -/
def slices (scanned : List (Tensor α)) (iteration : Nat) : Outcome EvalError (List (Tensor α)) :=
  (scanned.zip plan.inputs).mapM fun (a, input) =>
    cutAt input.axis
      (if input.reversed then plan.iterations - 1 - iteration else iteration) a

/-- One iteration: the next states and the scan outputs. -/
def iterate (scanned states : List (Tensor α)) (iteration : Nat) :
    Outcome EvalError (List (Tensor α) × List (Tensor α)) := do
  let slices ← plan.slices scanned iteration
  let returned ← plan.body.run (plan.body.parameterNames.zip (states ++ slices))
  return (returned.take plan.states, returned.drop plan.states)

/-- The states after so many iterations, over the values of the arguments. -/
def statesAfter (values : List (Tensor α)) : Nat → Outcome EvalError (List (Tensor α))
  | 0 => .ok (values.take plan.states)
  | iteration + 1 => do
    let states ← statesAfter values iteration
    return (← plan.iterate (values.drop plan.states) states iteration).1

/-- The scan outputs of an iteration, over the values of the arguments. -/
def outputsOf (values : List (Tensor α)) (iteration : Nat) :
    Outcome EvalError (List (Tensor α)) := do
  let states ← plan.statesAfter values iteration
  return (← plan.iterate (values.drop plan.states) states iteration).2

end Plan

end Loop

/-- A check that refuses, and what comes after it. -/
theorem check_eq_ok_iff {ε β : Type} {flaw : Prop} [Decidable flaw] {cause : ε}
    {next : Unit → Outcome ε β} {value : β} :
    (if flaw then (do next (← Outcome.refuse cause)) else next ()) = .ok value ↔
      ¬ flaw ∧ next () = .ok value := by
  by_cases hflaw : flaw
  · simp [hflaw, Outcome.refuse, bind, Except.bind]
  · simp [hflaw]

theorem perSlot?_eq_ok {slots : Nat} {values? : Option (List Int)}
    (hrun : perSlot? attributes attr slots = .ok values?) :
    (values?.getD (List.replicate slots 0)).length = slots ∧
      ∀ j, (values?.getD (List.replicate slots 0)).getD j 0 = slot attributes attr j := by
  unfold perSlot? at hrun
  unfold slot
  cases hlookup : attributes.lookup attr with
  | none =>
    rw [hlookup] at hrun
    cases hrun
    refine ⟨length_replicate, fun j => ?_⟩
    rw [Option.getD_none, getD_eq_getElem?_getD, getElem?_replicate]
    split_ifs <;> rfl
  | some value =>
    rw [hlookup] at hrun
    cases value with
    | ints | int =>
      obtain ⟨_, hvalues, hrun⟩ := bind_eq_ok_iff.1 hrun
      cases hvalues
      obtain ⟨hlength, hrun⟩ := ite_error_eq_ok_iff.1 hrun
      cases hrun
      exact ⟨not_not.1 hlength, fun _ => rfl⟩
    | float | str | graph => cases hrun

theorem axes_eq_ok {ranks result : List Nat} (hrun : axes attributes attr ranks = .ok result) :
    result.length = ranks.length ∧ ∀ j axis, result[j]? = some axis →
      ∃ rank, ranks[j]? = some rank ∧ axis = normalized (slot attributes attr j) rank := by
  obtain ⟨given, hgiven, hrun⟩ := bind_eq_ok_iff.1 hrun
  obtain ⟨hlength, hslots⟩ := perSlot?_eq_ok hgiven
  have hall := mapM_eq_ok_iff.1 hrun
  constructor
  · rw [← hall.length_eq, length_zip, hlength, Nat.min_self]
  · intro j axis haxis
    obtain ⟨⟨value, rank⟩, hpair, hvalue⟩ := exists_getElem?_of_forall₂ hall haxis
    obtain ⟨hvalue', hrank⟩ := getElem?_zip_eq_some.1 hpair
    obtain ⟨-, hvalue⟩ := ite_error_eq_ok_iff.1 hvalue
    cases hvalue
    refine ⟨rank, hrank, ?_⟩
    rw [← hslots j, getD_eq_getElem?_getD, hvalue']
    rfl

theorem directions_eq_ok {slots : Nat} {result : List Bool}
    (hrun : directions attributes attr slots = .ok result) :
    result.length = slots ∧ ∀ j flag, result[j]? = some flag →
      (flag = true ↔ slot attributes attr j = 1) := by
  obtain ⟨given, hgiven, hrun⟩ := bind_eq_ok_iff.1 hrun
  obtain ⟨hlength, hslots⟩ := perSlot?_eq_ok hgiven
  have hresult : result = (given.getD (List.replicate slots 0)).map (· == 1) := by
    cases given with
    | none =>
      cases hrun
      rw [Option.getD_none, map_replicate]
      rfl
    | some values =>
      exact (Except.ok.inj (ite_error_eq_ok_iff.1 hrun).2).symm
  constructor
  · rw [hresult, length_map, hlength]
  · intro j flag hflag
    rw [hresult, getElem?_map, Option.map_eq_some_iff] at hflag
    obtain ⟨value, hvalue, rfl⟩ := hflag
    rw [← hslots j, getD_eq_getElem?_getD, hvalue, beq_iff_eq]
    rfl

theorem iterationCount_eq_ok {lens : List Nat} {count : Nat}
    (hrun : (iterationCount lens : Planning α Nat) = .ok count) :
    0 < count ∧ ∀ len ∈ lens, len = count := by
  unfold iterationCount at hrun
  split at hrun
  · cases hrun
  · next first rest =>
      split at hrun
      · cases hrun
      · next hfind =>
          obtain ⟨hzero, hrun⟩ := ite_error_eq_ok_iff.1 hrun
          cases hrun
          refine ⟨Nat.pos_of_ne_zero hzero, fun len hlen => ?_⟩
          obtain ⟨j, hj⟩ := mem_iff_getElem?.1 hlen
          have hmem := mk_mem_zipIdx_iff_getElem?.2 hj
          simpa using find?_eq_none.1 hfind (len, j) hmem

theorem bodyOf_eq_ok {body : Graph α} (hrun : bodyOf attributes = .ok body) :
    ∃ handle, attributes.lookup "body" = some (.graph handle body) := by
  unfold bodyOf at hrun
  split at hrun
  · next handle given hlookup =>
      cases hrun
      exact ⟨handle, hlookup⟩
  · cases hrun
  · cases hrun

theorem scanInputCount_eq_ok {count : Nat} (hrun : scanInputCount attributes = .ok count) :
    attributes.lookup "num_scan_inputs" = some (.int count) := by
  unfold scanInputCount at hrun
  split at hrun
  · next given hlookup =>
      obtain ⟨hneg, hrun⟩ := ite_error_eq_ok_iff.1 hrun
      cases hrun
      rw [hlookup, Int.toNat_of_nonneg (Int.not_lt.1 hneg)]
  · cases hrun
  · cases hrun

theorem staticShape_eq_ok {g : Graph α} {arg : NodeId} {input : Nat} {shape : Shape}
    (hrun : staticShape g arg input = .ok shape) : g.shape arg = .ok shape := by
  obtain ⟨found, hfound, hrun⟩ := bind_eq_ok_iff.1 hrun
  obtain ⟨-, hrun⟩ := ite_error_eq_ok_iff.1 hrun
  cases hrun
  exact Outcome.lift_eq_ok_iff.1 hfound

theorem plan_describes {g : Graph α} {node : FrameworkNode α} {args : List NodeId} {result : Plan α}
    (hrun : plan g node args = .ok result) : result.Describes g node args := by
  unfold plan at hrun
  obtain ⟨given, hgiven, hrun⟩ := bind_eq_ok_iff.1 hrun
  obtain ⟨scanInputs, hcount, hrun⟩ := bind_eq_ok_iff.1 hrun
  obtain ⟨hsome, hrun⟩ := check_eq_ok_iff.1 hrun
  obtain ⟨henough, hrun⟩ := check_eq_ok_iff.1 hrun
  obtain ⟨-, hrun⟩ := check_eq_ok_iff.1 hrun
  obtain ⟨hreturns, hrun⟩ := check_eq_ok_iff.1 hrun
  obtain ⟨scanned, hscanned, hrun⟩ := bind_eq_ok_iff.1 hrun
  obtain ⟨inputAxes, hinputAxes, hrun⟩ := bind_eq_ok_iff.1 hrun
  obtain ⟨lens, hlens, hrun⟩ := bind_eq_ok_iff.1 hrun
  obtain ⟨iterations, hiterations, hrun⟩ := bind_eq_ok_iff.1 hrun
  obtain ⟨reversed, hreversed, hrun⟩ := bind_eq_ok_iff.1 hrun
  obtain ⟨outputAxes, houtputAxes, hrun⟩ := bind_eq_ok_iff.1 hrun
  obtain ⟨prepended, hprepended, hrun⟩ := bind_eq_ok_iff.1 hrun
  cases hrun
  obtain ⟨hinputCount, hinputAxis⟩ := axes_eq_ok hinputAxes
  obtain ⟨houtputCount, houtputAxis⟩ := axes_eq_ok houtputAxes
  obtain ⟨hreversedCount, hreversed⟩ := directions_eq_ok hreversed
  obtain ⟨hprependedCount, hprepended⟩ := directions_eq_ok hprepended
  obtain ⟨hpos, hsame⟩ := iterationCount_eq_ok hiterations
  have hscanned := mapM_eq_ok_iff.1 hscanned
  have hlens := mapM_eq_ok_iff.1 hlens
  have hcuts : scanned.length = scanInputs := by
    rw [← hscanned.length_eq, length_zipIdx, length_drop]
    omega
  have hstacked : outputAxes.length = prepended.length := by
    rw [houtputCount, hprependedCount, length_map]
  have hinputs : (List.zipWith ScanInput.mk inputAxes reversed).length = scanInputs := by
    rw [length_zipWith, hinputCount, length_map, hreversedCount, hcuts, Nat.min_self]
  refine ⟨?_, ?_, ?_, ?_, ?_, hpos, ?_, ?_⟩
  · obtain ⟨handle, hlookup⟩ := bodyOf_eq_ok hgiven
    exact ⟨handle, given, hlookup, rfl⟩
  · rw [hinputs]
    exact scanInputCount_eq_ok hcount
  · rw [hinputs]
    exact Nat.pos_of_ne_zero hsome
  · show args.length - scanInputs + _ = _
    rw [hinputs]
    omega
  · show args.length - scanInputs + _ = _
    rw [length_zipWith, hstacked, Nat.min_self, hprependedCount, length_drop]
    exact Nat.add_sub_cancel' (Nat.le_of_not_lt hreturns)
  · intro j input hinput
    obtain ⟨axis, flag, haxis, hflag, rfl⟩ := getElem?_zipWith_eq_some.1 hinput
    obtain ⟨rank, hrank, hnormal⟩ := hinputAxis j axis haxis
    rw [getElem?_map, Option.map_eq_some_iff] at hrank
    obtain ⟨shape, hshape, rfl⟩ := hrank
    obtain ⟨⟨arg, position⟩, harg, hstatic⟩ := exists_getElem?_of_forall₂ hscanned hshape
    have hpair : (scanned.zip inputAxes)[j]? = some (shape, axis) :=
      getElem?_zip_eq_some.2 ⟨hshape, haxis⟩
    obtain ⟨len, hlen, hfetch⟩ := exists_getElem?_of_forall₂ hlens.flip hpair
    have hlast : shape.lens[axis]? = some len := Layout.fetch_eq_ok_iff.1 (Outcome.lift_eq_ok_iff.1 hfetch)
    rw [hsame len (mem_of_getElem? hlen)] at hlast
    refine ⟨arg, shape, ?_, staticShape_eq_ok hstatic, hnormal, hreversed j flag hflag, hlast⟩
    have harg := congrArg (Option.map Prod.fst) harg
    rw [← getElem?_map, zipIdx_map_fst, getElem?_drop] at harg
    exact harg
  · intro j output houtput
    obtain ⟨axis, flag, haxis, hflag, rfl⟩ := getElem?_zipWith_eq_some.1 houtput
    obtain ⟨rank, hrank, hnormal⟩ := houtputAxis j axis haxis
    rw [getElem?_map, Option.map_eq_some_iff] at hrank
    obtain ⟨shape, hshape, rfl⟩ := hrank
    rw [getElem?_drop] at hshape
    exact ⟨shape, hshape, hnormal, hprepended j flag hflag⟩

end TensorGraph.Loop
