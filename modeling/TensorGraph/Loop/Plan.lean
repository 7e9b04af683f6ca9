import TensorGraph.FrameworkNode
import TensorGraph.Graph.Error

/-!
# Plans of loops

A scan node runs a body once for every position along an axis of its scan inputs. Its attributes are
checked against the arguments before anything is emitted.
-/

namespace TensorGraph.Loop

inductive LoopError (α : Type)
  | missingAttribute (attr : String)
  | badAttribute (attr : String) (value : Attribute α)
  | noScanInputs
  | tooFewArguments (scanInputs args : Nat)
  | bodyParameters (expected got : Nat)
  | bodyOutputs (states got : Nat)
  | attributeLength (attr : String) (expected got : Nat)
  | axisOutOfRange (attr : String) (axis : Int) (rank : Nat)
  | direction (attr : String) (values : List Int)
  | dynamicInput (input : Nat)
  | iterationMismatch (input expected got : Nat)
  | zeroIterations
  | graph (cause : GraphError)

/-- The wording of a refused scan node. There is none about an attribute that is a graph. -/
def LoopError.message? {α : Type} [Scalar α] : LoopError α → Option String
  | .missingAttribute attr => some s!"missing required attribute `{attr}`"
  | .badAttribute attr value =>
    value.text?.map fun text => s!"attribute `{attr}` has the wrong type or value: {text}"
  | .noScanInputs => some "there are no scan inputs"
  | .tooFewArguments scanInputs args =>
    some s!"{scanInputs} scan inputs but only {args} arguments"
  | .bodyParameters expected got => some s!"body takes {got} parameters, expected {expected}"
  | .bodyOutputs states got => some s!"body returns {got} values for {states} state variables"
  | .attributeLength attr expected got =>
    some s!"`{attr}` has {got} entries, expected {expected}"
  | .axisOutOfRange attr axis rank =>
    some s!"`{attr}` axis {axis} is out of range for rank {rank}"
  | .direction attr values => some s!"`{attr}` may only hold 0 and 1, got {Text.intList values}"
  | .dynamicInput input => some s!"scan input {input} has a dynamic shape"
  | .iterationMismatch input expected got =>
    some s!"scan input {input} runs for {got} iterations, expected {expected}"
  | .zeroIterations => some "scan runs for zero iterations"
  | .graph cause => some cause.message

variable {α : Type}

/-- A scan input: along which axis it is read, and whether from the end. -/
structure ScanInput where
  axis : Nat
  /-- Whether the last position comes first. -/
  reversed : Bool

/-- A scan output: along which axis it is stacked, and whether later values come first. -/
structure ScanOutput where
  axis : Nat
  /-- Whether each value is put before those of earlier iterations. -/
  prepended : Bool

/-- Everything that emitting a loop needs. -/
structure Plan (α : Type) where
  /-- The body under its name in the graph. -/
  body : Graph α
  states : Nat
  iterations : Nat
  inputs : List ScanInput
  outputs : List ScanOutput

/-- Planning can be refused, and faults on arguments that are not in the graph. -/
abbrev Planning (α : Type) := Outcome (LoopError α)

/-- A list of integers with an entry for each slot, if it is given. -/
def perSlot? (attributes : Attributes α) (attr : String) (slots : Nat) :
    Planning α (Option (List Int)) := do
  let values? ← match attributes.lookup attr with
    | none => pure none
    | some (.ints values) => pure (some values)
    | some (.int value) => pure (some [value])
    | some value => .refuse (.badAttribute attr value)
  match values? with
  | some values =>
    if values.length ≠ slots then .refuse (.attributeLength attr slots values.length)
    else return some values
  | none => return none

/-- Axes that may be counted from the end, each against its rank. Without them every axis is the
first. -/
def axes (attributes : Attributes α) (attr : String) (ranks : List Nat) :
    Planning α (List Nat) := do
  let given ← perSlot? attributes attr ranks.length
  let values := given.getD (List.replicate ranks.length 0)
  (values.zip ranks).mapM fun (axis, rank) =>
    if axis < -(rank : Int) ∨ (rank : Int) ≤ axis then .refuse (.axisOutOfRange attr axis rank)
    else return (if axis < 0 then axis + rank else axis).toNat

/-- Directions as flags, which are not set when none are given. -/
def directions (attributes : Attributes α) (attr : String) (slots : Nat) :
    Planning α (List Bool) := do
  match ← perSlot? attributes attr slots with
  | none => return List.replicate slots false
  | some values =>
    if values.any fun d => d != 0 && d != 1 then .refuse (.direction attr values)
    else return values.map (· == 1)

def bodyOf (attributes : Attributes α) : Planning α (Graph α) :=
  match attributes.lookup "body" with
  | some (.graph _ body) => return body
  | some value => .refuse (.badAttribute "body" value)
  | none => .refuse (.missingAttribute "body")

def scanInputCount (attributes : Attributes α) : Planning α Nat :=
  match attributes.lookup "num_scan_inputs" with
  | some (.int count) =>
    if count < 0 then .refuse (.badAttribute "num_scan_inputs" (.int count))
    else return count.toNat
  | some value => .refuse (.badAttribute "num_scan_inputs" value)
  | none => .refuse (.missingAttribute "num_scan_inputs")

/-- The number of iterations, on which all scan inputs agree. -/
def iterationCount (lens : List Nat) : Planning α Nat :=
  match lens with
  | [] => .fault .outOfBounds
  | first :: _ =>
    match lens.zipIdx.find? fun (len, _) => len != first with
    | some (len, input) => .refuse (.iterationMismatch input first len)
    | none => if first = 0 then .refuse .zeroIterations else return first

/-- The shape of a scan input, which may not be dynamic. -/
def staticShape (g : Graph α) (arg : NodeId) (input : Nat) : Planning α Shape := do
  let shape ← g.shape arg
  if shape.isDynamic then .refuse (.dynamicInput input) else return shape

def plan (g : Graph α) (node : FrameworkNode α) (args : List NodeId) : Planning α (Plan α) := do
  let attributes := node.attributes
  let given ← bodyOf attributes
  let scanInputs ← scanInputCount attributes
  if scanInputs = 0 then .refuse .noScanInputs
  if args.length < scanInputs then .refuse (.tooFewArguments scanInputs args.length)
  let states := args.length - scanInputs
  let body := { given with name := s!"{node.name}_scan" }
  let parameters := body.parameterNames.length
  if parameters ≠ args.length then .refuse (.bodyParameters args.length parameters)
  let outputs := body.outputShapes
  if outputs.length < states then .refuse (.bodyOutputs states outputs.length)
  let scanned ← (args.drop states).zipIdx.mapM fun (arg, input) => staticShape g arg input
  let inputAxes ← axes attributes "scan_input_axes" (scanned.map Shape.rank)
  let lens ← (scanned.zip inputAxes).mapM fun (shape, axis) =>
    (fetch shape.lens axis : Planning α Nat)
  let iterations ← iterationCount lens
  let reversed ← directions attributes "scan_input_directions" scanInputs
  let stacked := outputs.drop states
  let outputAxes ← axes attributes "scan_output_axes" (stacked.map (·.rank + 1))
  let prepended ← directions attributes "scan_output_directions" stacked.length
  return {
    body := body
    states := states
    iterations := iterations
    inputs := List.zipWith ScanInput.mk inputAxes reversed
    outputs := List.zipWith ScanOutput.mk outputAxes prepended }

end TensorGraph.Loop
