import TensorGraph.Operator.Inference.Elementwise
import TensorGraph.Operator.Signature

/-!
# Inference for joins and for operators with modules

Joining along an axis, running modules elementwise or around a join, running a loop body, and taking
components out of the tuple that a loop gives.
-/

namespace TensorGraph.Inference

/-- Whether two shapes have one rank and agree in all lengths but one. -/
def agreeOutside (axis : Nat) (s t : Shape) : Bool :=
  s.rank == t.rank &&
    (s.lens.zip t.lens).zipIdx.all fun ((a, b), i) => i == axis || a == b

/-- The axis of a join and the lengths of the joined value. -/
def joinLens (op : String) (parts : List Shape) (axis : Int) :
    Outcome ShapeError (Nat × List Nat) := do
  requireStrided op parts
  match parts with
  | [] => invalid op .nothingToJoin
  | first :: _ =>
    let place ← resolveAxis op axis first.rank
    match parts.find? fun part => !agreeOutside place part first with
    | some part => invalid op (.joinMismatch part first place)
    | none =>
      let total ← Word.sum (← parts.mapM fun part => fetch part.lens place)
      return (place, first.lens.set place total)

/-- Parts of one element type. The result is dense in the axis order most parts share. -/
def concatShape (op : String) (axis : Int) (inputs : List Shape) : Outcome ShapeError Shape := do
  if !allEqual (inputs.map Shape.elem) then invalid op .joinTypes
  else
    let (_, lens) ← joinLens op inputs axis
    match inputs with
    | [] => invalid op .nothingToJoin
    | first :: _ => Shape.permuted first.elem lens (Shape.commonAxisOrder inputs)

def moduleElem (op : String) (module : Signature) : Outcome ShapeError ElementType :=
  match module.outputs with
  | first :: _ => .ok first.elem
  | [] => invalid op (.silentModule module.name)

/-- One module with a parameter for each input. The result has the element type of the module. -/
def pointwiseShape (op : String) (inputs : List Shape) (modules : List Signature) :
    Outcome ShapeError Shape :=
  match modules with
  | [module] => do
    if module.arity ≠ inputs.length then
      invalid op (.moduleArity module.name module.arity inputs.length)
    else
      let elem ← moduleElem op module
      elementwiseShape op (inputs.map (·.withElem elem))
  | _ => invalid op (.moduleCount modules.length)

/-- Which inputs of a fused join go to which module. -/
structure FusionPlan where
  /-- First input and number of inputs of each module before the join. -/
  ranges : List (Nat × Nat)
  /-- First input of the module after the join. -/
  rest : Nat

/-- Deal the inputs out to modules in order, each taking as many as it has parameters. -/
def dealInputs : (start : Nat) → List Signature → List (Nat × Nat)
  | _, [] => []
  | start, module :: modules => (start, module.arity) :: dealInputs (start + module.arity) modules

/-- All modules but the last feed the join and take at least one input each. The last one takes the
joined value through its one marked parameter, and the remaining inputs through the others. -/
def planFusion (inputs : Nat) (modules : List Signature) : Except FusionFlaw FusionPlan :=
  match modules.reverse with
  | post :: before@(_ :: _) =>
    let feeding := before.reverse
    let ranges := dealInputs 0 feeding
    let rest := (feeding.flatMap Signature.parameters).length
    if (post.parameterNames.filter takesJoined).length ≠ 1 then
      .error (.noJoinParameter post.name)
    else if rest + post.arity - 1 ≠ inputs ∨ ranges.any (·.2 == 0) then
      .error (.inputMismatch inputs)
    else .ok ⟨ranges, rest⟩
  | _ => .error .noModules

/-- The first input of each feeding module stands for the part that the module makes of it. -/
def fusedConcatShape (op : String) (axis : Int) (inputs : List Shape) (modules : List Signature) :
    Outcome ShapeError Shape := do
  requireStrided op inputs
  if !allEqual (inputs.map Shape.rank) then invalid op .mixedRanks
  else
    match planFusion inputs.length modules with
    | .error flaw => invalid op (.fusion flaw)
    | .ok plan =>
      let parts ← plan.ranges.mapM fun (start, _) => fetch inputs start
      let (_, lens) ← joinLens op parts axis
      match modules.getLast? with
      | none => invalid op (.fusion .noModules)
      | some post =>
        let elem ← moduleElem op post
        Shape.permuted elem lens (Shape.commonAxisOrder inputs)

def scanBody {β : Type} (op : String) : List β → Outcome ShapeError β
  | [body] => .ok body
  | modules => invalid op (.bodyCount modules.length)

/-- What the body reads in one iteration: the states, then its share of the scan inputs. -/
def iterationArgs {β : Type} (scanInputs stateVars : Nat) (inputs states : List β)
    (iteration : Nat) : List β :=
  states ++ (inputs.drop (stateVars + iteration * scanInputs)).take scanInputs

/-- Refuse the first argument of an iteration whose lengths its parameter does not expect. -/
def checkIteration (op : String) (parameters : List (String × Shape)) (iteration : Nat)
    (args : List Shape) : Outcome ShapeError Unit :=
  (args.zip parameters).forM fun (input, name, declared) =>
    if input.lens ≠ declared.lens then
      invalid op (.iterationBinding iteration input name declared.lens)
    else .ok ()

/-- Refuse the first state that comes back with other lengths than it went in. -/
def checkStates (op : String) (parameters : List (String × Shape)) (outputs : List Shape) :
    Outcome ShapeError Unit :=
  (outputs.zip parameters).forM fun (output, name, declared) =>
    if output.lens ≠ declared.lens then invalid op (.stateDrift name output declared.lens)
    else .ok ()

/-- Final states, then the scan outputs of every iteration. Only lengths are compared. -/
def scanShape (op : String) (iterations scanInputs stateVars : Nat) (inputs : List Shape)
    (modules : List Signature) : Outcome ShapeError Shape := do
  let body ← scanBody op modules
  let expected ← Word.add stateVars (← Word.mul iterations scanInputs)
  if inputs.length ≠ expected then .refuse (.inputCount op expected inputs.length)
  else
    requireStrided op inputs
    if body.arity ≠ stateVars + scanInputs then
      invalid op (.bodyArity body.name body.arity (stateVars + scanInputs))
    else
      foldCountM
        (fun _ i => checkIteration op body.parameters i
          (iterationArgs scanInputs stateVars inputs (inputs.take stateVars) i))
        0 iterations ()
      if body.outputs.length < stateVars then
        invalid op (.fewStates body.name body.outputs.length stateVars)
      else
        let states := body.outputs.take stateVars
        checkStates op body.parameters states
        let scanned := Nat.repeat (body.outputs.drop stateVars ++ ·) iterations []
        return Shape.ofParts (states ++ scanned)

def tupleElemShape (op : String) (index : Nat) (inputs : List Shape) :
    Outcome ShapeError Shape := do
  let s ← oneInput op inputs
  if !s.isTuple then invalid op (.notTuple s)
  else
    match s.parts[index]? with
    | some part => return part
    | none => invalid op (.noComponent index s)

end TensorGraph.Inference
