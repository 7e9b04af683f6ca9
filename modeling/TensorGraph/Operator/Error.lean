import TensorGraph.Fault

/-!
# Why operators refuse

Inference refuses shapes for one of the causes listed here, and evaluation refuses values. Each
cause keeps the data that explains it; the wording is in one function per type.
-/

namespace TensorGraph

/-- How modules and inputs of a fused join fail to fit together. -/
inductive FusionFlaw
  | noModules
  | noJoinParameter (module : String)
  | inputMismatch (inputs : Nat)
deriving DecidableEq

def FusionFlaw.message : FusionFlaw → String
  | .noModules => "missing fused modules"
  | .noJoinParameter module => s!"{module} has no single concat parameter"
  | .inputMismatch inputs => s!"{inputs} inputs don't match the fused modules"

/-- What an operator finds wrong with the shapes it is given. -/
inductive ShapeFlaw
  | tupleInput
  | tupleNotDense
  | axisOutOfRange (axis : Int) (rank : Nat)
  | noInputs
  | mixedTypes (inputs : List Shape)
  | mixedRanges (inputs : List Shape)
  | mixedLengths (inputs : List Shape)
  | reducedAxis (axis : Nat) (input : Shape)
  | productTypes (left right : Shape)
  | productRanks (left right : Shape)
  | productBatches (left right : Shape)
  | productInner (left right : Shape)
  | notPermutation (order : List Nat) (rank : Nat)
  | notStandard (input : Shape)
  | manyInferred
  | nothingToCopy (position : Nat)
  | badDimension (dim : Int)
  | notInferable (dims : List Int) (input : Shape)
  | countMismatch (dims : List Int) (input : Shape)
  | notUnit (axis : Nat) (input : Shape)
  | badInsertion (axes : List Nat) (rank : Nat)
  | raggedSlice
  | slicedAxis (axis : Nat) (input : Shape)
  | reversedSlice (first last axis : Nat)
  | lowerRank (input : Shape) (lens : List Nat)
  | notBroadcastable (input : Shape) (lens : List Nat)
  | nothingToJoin
  | joinTypes
  | joinMismatch (part first : Shape) (axis : Nat)
  | moduleCount (count : Nat)
  | moduleArity (module : String) (parameters inputs : Nat)
  | silentModule (module : String)
  | mixedRanks
  | fusion (flaw : FusionFlaw)
  | bodyCount (count : Nat)
  | bodyArity (module : String) (parameters expected : Nat)
  | iterationBinding (iteration : Nat) (input : Shape) (parameter : String) (lens : List Nat)
  | fewStates (module : String) (outputs states : Nat)
  | stateDrift (parameter : String) (output : Shape) (lens : List Nat)
  | notTuple (input : Shape)
  | noComponent (index : Nat) (input : Shape)
  | noCommonLens (inputs : List Shape)
  | diagonalOverflow (axes len : Nat)
  | noOperands
deriving DecidableEq

def ShapeFlaw.message : ShapeFlaw → String
  | .tupleInput => "tuple inputs are not supported"
  | .tupleNotDense => "can't materialize a tuple"
  | .axisOutOfRange axis rank => s!"axis {axis} is out of range for rank {rank}"
  | .noInputs => "needs at least one input"
  | .mixedTypes inputs => s!"mismatched element types in {Shape.listText inputs}"
  | .mixedRanges inputs => s!"mismatched dynamic dimensions in {Shape.listText inputs}"
  | .mixedLengths inputs => s!"mismatched lengths in {Shape.listText inputs}"
  | .reducedAxis axis input => s!"axis {axis} is out of range for {input.text}"
  | .productTypes left right => s!"mismatched element types {left.text} and {right.text}"
  | .productRanks left right =>
    s!"operands must have the same rank of at least 2, got {left.text} and {right.text}"
  | .productBatches left right => s!"batch dimensions of {left.text} and {right.text} differ"
  | .productInner left right => s!"inner dimensions of {left.text} and {right.text} differ"
  | .notPermutation order rank => notPermutationText order rank
  | .notStandard input => s!"input must be standard, got {input.text}"
  | .manyInferred => "more than one inferred dimension"
  | .nothingToCopy position => s!"no input dimension {position} to copy"
  | .badDimension dim => s!"invalid dimension {dim}"
  | .notInferable dims input =>
    s!"can't infer dimension for {Text.intList dims} from {input.text}"
  | .countMismatch dims input =>
    s!"{Text.intList dims} doesn't match the element count of {input.text}"
  | .notUnit axis input => s!"axis {axis} of {input.text} is not a unit axis"
  | .badInsertion axes rank => s!"bad axes {Text.natList axes} for output rank {rank}"
  | .raggedSlice => "axes, starts and ends must have the same length"
  | .slicedAxis axis input => s!"no axis {axis} in {input.text}"
  | .reversedSlice first last axis => s!"empty range {first}..{last} on axis {axis}"
  | .lowerRank input lens => s!"can't broadcast {input.text} to lower rank {Text.natList lens}"
  | .notBroadcastable input lens => s!"{input.text} is not broadcastable to {Text.natList lens}"
  | .nothingToJoin => "nothing to concatenate"
  | .joinTypes => "mismatched element types"
  | .joinMismatch part first axis =>
    s!"{part.text} doesn't match {first.text} outside axis {axis}"
  | .moduleCount count => s!"expected one module, got {count}"
  | .moduleArity module parameters inputs =>
    s!"{module} takes {parameters} parameters, got {inputs} inputs"
  | .silentModule module => s!"module {module} has no outputs"
  | .mixedRanks => "inputs have different ranks"
  | .fusion flaw => flaw.message
  | .bodyCount count => s!"expected one body module, got {count}"
  | .bodyArity module parameters expected =>
    s!"{module} takes {parameters} parameters, expected {expected}"
  | .iterationBinding iteration input parameter lens =>
    s!"iteration {iteration} binds {input.text} to {parameter}, which expects {Text.natList lens}"
  | .fewStates module outputs states =>
    s!"{module} returns {outputs} values for {states} state variables"
  | .stateDrift parameter output lens =>
    s!"state {parameter} comes back as {output.text}, expected {Text.natList lens}"
  | .notTuple input => s!"{input.text} is not a tuple"
  | .noComponent index input => s!"index {index} is out of range for {input.text}"
  | .noCommonLens inputs => s!"can't broadcast {Shape.listText inputs}"
  | .diagonalOverflow axes len => s!"diagonal over {axes} axes of length {len} overflows"
  | .noOperands => "no operands"

/-- Why shapes are refused, under the name of the operator that refuses them. -/
inductive ShapeError
  | inputCount (op : String) (expected got : Nat)
  /-- The operator needs every length. -/
  | dynamic (op : String)
  | invalid (op : String) (flaw : ShapeFlaw)
deriving DecidableEq

def ShapeError.message : ShapeError → String
  | .inputCount op expected got => s!"{op}: expected {expected} inputs, got {got}"
  | .dynamic op => s!"{op}: dynamic shapes are not supported"
  | .invalid op flaw => s!"{op}: {flaw.message}"

/-- What an operator finds wrong with the values it is given. -/
inductive ValueFlaw
  | moduleArity (module : String) (parameters args : Nat)
  | silentModule (module : String)
  | indexOutOfRange (index : Int) (len : Nat)
  | fusion (flaw : FusionFlaw)
  | unboundParameter (name : String)
  | fewStates (module : String) (outputs : Nat)
  | noComponent (index : Nat)
  | abandoned
deriving DecidableEq

def ValueFlaw.message : ValueFlaw → String
  | .moduleArity module parameters args => s!"{module} takes {parameters} parameters, got {args}"
  | .silentModule module => s!"{module} has no outputs"
  | .indexOutOfRange index len => s!"index {index} out of range for axis of length {len}"
  | .fusion flaw => flaw.message
  | .unboundParameter name => s!"no input for parameter {name}"
  | .fewStates module outputs => s!"{module} returned {outputs} values"
  | .noComponent index => s!"index {index} is out of range"
  | .abandoned => "evaluation panicked"

inductive EvalError
  | shape (cause : ShapeError)
  | missingParameter (name : String)
  /-- The named thing has no value of its own. -/
  | notEvaluable (what : String)
  | compute (op : String) (flaw : ValueFlaw)
deriving DecidableEq

def EvalError.message : EvalError → String
  | .shape cause => cause.message
  | .missingParameter name => s!"missing value for parameter `{name}`"
  | .notEvaluable what => s!"`{what}` can't be evaluated"
  | .compute op flaw => s!"{op}: {flaw.message}"

instance : MonadLift (Outcome ShapeError) (Outcome EvalError) := ⟨Outcome.widen .shape⟩

end TensorGraph
