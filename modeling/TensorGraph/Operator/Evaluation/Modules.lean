import TensorGraph.Operator.Evaluation.Values

/-!
# Evaluation with modules

A module enters evaluation as something that can be run: its signature, and a function from values
for its parameters to the values it returns.
-/

namespace TensorGraph

abbrev Bindings (α : Type) := List (String × Tensor α)

/-- The value bound to a name. When a name is bound twice the later value counts. -/
def Bindings.find? {α : Type} (bindings : Bindings α) (name : String) : Option (Tensor α) :=
  ((bindings.filter (·.1 == name)).getLast?).map (·.2)

/-- A module that can be run. -/
structure Callable (α : Type) where
  signature : Signature
  /-- The returned values, for values of the parameters. -/
  run : Bindings α → Outcome EvalError (List (Tensor α))

namespace Callable

variable {α : Type}

def firstOutput (module : Callable α) (bindings : Bindings α) : Outcome EvalError (Tensor α) := do
  match ← module.run bindings with
  | first :: _ => return first
  | [] => Evaluation.flawed "module" (.silentModule module.signature.name)

/-- Bind the parameters, in the order of their names, to arguments and take the first returned
value. -/
def call (module : Callable α) (args : List (Tensor α)) : Outcome EvalError (Tensor α) :=
  if module.signature.arity ≠ args.length then
    Evaluation.flawed "module"
      (.moduleArity module.signature.name module.signature.arity args.length)
  else module.firstOutput (module.signature.parameterNames.zip args)

end Callable

namespace Evaluation

variable {α : Type} [Scalar α]

/-- The value of a module laid out in the inferred shape. -/
def relaid (out : Shape) (value : Tensor α) : Checked (Tensor α) :=
  Tensor.tabulate out value.get

def pointwiseValue (out : Shape) (inputs : List (Tensor α)) (modules : List (Callable α)) :
    Outcome EvalError (Tensor α) := do
  let module ← fetch modules 0
  relaid out (← module.call inputs)

/-- Give the joined value to the marked parameter and the remaining values to the others. -/
def bindPost (op : String) (joined : Tensor α) :
    (names : List String) → (rest : List (Tensor α)) → Outcome EvalError (Bindings α)
  | [], _ => .ok []
  | name :: names, rest =>
    if takesJoined name then return (name, joined) :: (← bindPost op joined names rest)
    else
      match rest with
      | value :: rest => return (name, value) :: (← bindPost op joined names rest)
      | [] => flawed op (.unboundParameter name)

/-- Run each feeding module on its inputs, join what they give, and run the last module. -/
def fusedConcatValue (op : String) (axis : Int) (out : Shape) (inputs : List (Tensor α))
    (modules : List (Callable α)) : Outcome EvalError (Tensor α) :=
  match Inference.planFusion inputs.length (modules.map Callable.signature) with
  | .error flaw => flawed op (.fusion flaw)
  | .ok plan => do
    let parts ← (plan.ranges.zip modules).mapM fun ((start, count), module) =>
      module.call ((inputs.drop start).take count)
    let (place, lens) ←
      (Inference.joinLens op (Tensor.shapes parts) axis : Outcome ShapeError _)
    let joined ← joinValue place (← Shape.standard out.elem lens) parts
    match modules.getLast? with
    | none => flawed op (.fusion .noModules)
    | some post =>
      let bindings ←
        bindPost op joined post.signature.parameterNames (inputs.drop plan.rest)
      relaid out (← post.firstOutput bindings)

/-- States and scan outputs so far. -/
structure ScanState (α : Type) where
  states : List (Tensor α)
  scanned : List (Tensor α)

/-- One iteration: run the body on the states and its share of the scan inputs. -/
def scanStep (op : String) (scanInputs stateVars : Nat) (body : Callable α)
    (inputs : List (Tensor α)) (current : ScanState α) (iteration : Nat) :
    Outcome EvalError (ScanState α) := do
  let args := Inference.iterationArgs scanInputs stateVars inputs current.states iteration
  let outputs ← body.run (body.signature.parameterNames.zip args)
  if outputs.length < stateVars then
    flawed op (.fewStates body.signature.name outputs.length)
  else
    return ⟨outputs.take stateVars, current.scanned ++ outputs.drop stateVars⟩

/-- Final states, then the scan outputs of every iteration. -/
def scanValue (op : String) (iterations scanInputs stateVars : Nat) (inputs : List (Tensor α))
    (modules : List (Callable α)) : Outcome EvalError (Tensor α) := do
  let body ← (Inference.scanBody op modules : Outcome ShapeError _)
  let final ← foldCountM
    (scanStep op scanInputs stateVars body inputs) 0 iterations ⟨inputs.take stateVars, []⟩
  return .tuple (final.states ++ final.scanned)

end Evaluation

end TensorGraph
