import TensorGraph.Graph.Evaluation
import TensorGraph.Pass.Basic

/-!
# Contiguous nodes

A node that forces the standard layout can be bypassed for a consumer that accepts the layout before
it, which is first speculated on. Where it cannot, and the value depends on embedded values only,
the node is folded into a literal.
-/

namespace TensorGraph.Pass

variable {α : Type} [Scalar α]

/-- The shapes a node reads when one input has another shape. -/
def shapesWith (g : Graph α) (node changed : NodeId) (shape : Shape) : Checked (List Shape) :=
  (g.inputs node).mapM fun input => if input = changed then .ok shape else g.shape input

/-- Whether a node and everything below it accept other input shapes. A result that is standard or
unchanged is accepted; any other must be accepted by every consumer, and must have one. The bound is
on the depth of this chain. -/
def acceptsWithin (trace : Bool) :
    (bound : Nat) → NodeId → List Shape → List Signature → Revision α Bool
  | 0, _, _, _ => (Except.error .endless : Checked Bool)
  | bound + 1, node, inputs, modules => do
    let g ← Revision.graph
    let instruction ← g.instruction node
    match ← (instruction.op.infer inputs modules).attempt with
    | .error cause =>
      if trace then
        let line ← Revision.lineOf node
        Revision.info
          s!"eliminate_contiguous: {line} rejects the new layout: {cause.message}"
      return false
    | .ok shape =>
      if shape.isDynamic then return false
      if ← shape.isStandard then return true
      if shape = instruction.shape then return true
      let consumers := g.consumers node
      if consumers.isEmpty then return false
      consumers.allM fun consumer => do
        let below ← g.instruction consumer
        acceptsWithin trace bound consumer (← shapesWith g consumer node shape)
          (Graph.signatures below.modules)

/-- Speculate on other input shapes of a node without changing the graph. A fault of inference
counts as a refusal, with a warning. -/
def canRetarget (trace : Bool) (node : NodeId) (inputs : List Shape) (modules : List Signature) :
    Revision α Bool := do
  let bound := Edit.chainBound (← Revision.graph)
  try acceptsWithin trace bound node inputs modules
  catch _ =>
    Revision.warn s!"shape inference panicked while speculating on {node.text}"
    return false

structure EliminationStats where
  /-- Inputs pointed past a node. -/
  removed : Nat
  /-- Nodes replaced by a literal. -/
  folded : Nat
deriving DecidableEq, Repr

/-- The progress of one sweep through the graph. -/
structure Sweep where
  removed : Nat
  /-- Nodes that could not be bypassed but have a value of their own. -/
  candidates : List NodeId

/-- Bypass one input of a node if it is a target, or note it for folding. -/
def visitInput (settings : Settings) (target : String) (node : NodeId) (sweep : Sweep)
    (arg : NodeId) : Revision α Sweep := do
  let g ← Revision.graph
  if (← g.op arg).name ≠ target then return sweep
  match g.inputs arg with
  | [] => return sweep
  | source :: _ =>
    let instruction ← g.instruction node
    let shapes ← shapesWith g node arg (← g.shape source)
    if ← canRetarget settings.trace node shapes (Graph.signatures instruction.modules) then
      if settings.trace then
        let bypassed ← Revision.lineOf arg
        Revision.info s!"eliminate_contiguous: bypassing {bypassed}"
        let reader ← Revision.lineOf node
        Revision.info s!"eliminate_contiguous:        for {reader}"
      match ← Revision.attempt (Edit.replaceArgument node arg source) with
      | .ok _ => return { sweep with removed := sweep.removed + 1 }
      | .error cause =>
        Revision.warn s!"eliminate_contiguous: {cause.message}"
        return sweep
    else if (← g.canEval source) && !sweep.candidates.contains arg then
      return { sweep with candidates := sweep.candidates ++ [arg] }
    else return sweep

/-- Visit the inputs of a node that is read, or last, and does not end the graph. -/
def visitNode (settings : Settings) (target : String) (consider : Graph α → NodeId → Checked Bool)
    (final? : Option NodeId) (sweep : Sweep) (node : NodeId) : Revision α Sweep := do
  let g ← Revision.graph
  if !g.contains node then return sweep
  if (← g.op node).isReturns then return sweep
  if final? != some node && !g.hasConsumers node then return sweep
  if !(← consider g node) then return sweep
  (g.inputs node).eraseDups.foldlM (visitInput settings target node) sweep

/-- The value of a candidate, computed from its first input alone. -/
def candidateValue (g : Graph α) (candidate : NodeId) : Outcome EvalError (Tensor α) :=
  match g.inputs candidate with
  | [] => .refuse (.notEvaluable candidate.text)
  | source :: _ => do
    let value ← g.value [] source
    let instruction ← g.instruction candidate
    instruction.op.apply [value] (instruction.modules.map Graph.callable)

/-- Cut a list into runs of this length; the count bounds the number of runs. -/
def runsOf {β : Type} (length : Nat) : (count : Nat) → List β → List (List β)
  | 0, _ => []
  | _, [] => []
  | count + 1, items => items.take length :: runsOf length count (items.drop length)

/-- The values of one worker's candidates. A fault gives up all of them. -/
def runValues (g : Graph α) (candidates : List NodeId) :
    List (Except EvalError (Tensor α)) :=
  match candidates.mapM fun candidate => (candidateValue g candidate).attempt with
  | .ok values => values
  | .error _ => candidates.map fun _ => .error (.compute "contiguous" .abandoned)

/-- The values of all candidates, dealt out to workers in order. -/
def candidateValues (workers : Nat) (g : Graph α) (candidates : List NodeId) :
    List (Except EvalError (Tensor α)) :=
  let used := max 1 (min workers candidates.length)
  let length := (candidates.length + used - 1) / used
  (runsOf length candidates.length candidates).flatMap (runValues g)

def spliceLiteral (candidate : NodeId) (value : Tensor α) : Edit α Unit := do
  let literal ← Edit.addLiteral value
  Edit.replaceInstruction candidate literal
  Edit.remove candidate

/-- Fold one candidate that is still read. Gives the number of nodes folded. -/
def foldCandidate (settings : Settings) (candidate : NodeId)
    (value? : Except EvalError (Tensor α)) : Revision α Nat := do
  match value? with
  | .error cause =>
    Revision.warn s!"eliminate_contiguous: can't fold {candidate.text}: {cause.message}"
    return 0
  | .ok value =>
    if !(← Revision.graph).hasConsumers candidate then return 0
    if settings.trace then
      let folded ← Revision.lineOf candidate
      Revision.info s!"eliminate_contiguous: folding {folded}"
    match ← Revision.attempt (spliceLiteral candidate value) with
    | .ok _ => return 1
    | .error cause =>
      Revision.warn s!"eliminate_contiguous: {cause.message}"
      return 0

/-- Fold the candidates. All values are computed before the first literal is put in place. -/
def foldCandidates (settings : Settings) (candidates : List NodeId) : Revision α Nat := do
  let values := candidateValues settings.workers (← Revision.graph) candidates
  (candidates.zip values).foldlM
    (fun folded (candidate, value?) =>
      return folded + (← foldCandidate settings candidate value?))
    0

/-- Go through the graph once in insertion order, then fold. -/
def sweepContiguous (settings : Settings) (target : String)
    (consider : Graph α → NodeId → Checked Bool) : Revision α EliminationStats := do
  let g ← Revision.graph
  let sweep ← g.order.foldlM (visitNode settings target consider g.last?) ⟨0, []⟩
  let folded ← foldCandidates settings sweep.candidates
  return ⟨sweep.removed, folded⟩

/-- Slices of a value that others read too wait for the second sweep. -/
def isEarly (g : Graph α) (node : NodeId) : Checked Bool := do
  if (← g.op node).name ≠ "slice" then return true
  match g.inputs node with
  | source :: _ => return (g.consumers source).length == 1
  | [] => return true

/-- Bypass or fold the nodes with this operator name, in two sweeps. -/
def eliminateContiguous (settings : Settings) (target : String) :
    Revision α EliminationStats := do
  let first ← sweepContiguous settings target isEarly
  let second ← sweepContiguous settings target fun _ _ => .ok true
  return ⟨first.removed + second.removed, first.folded + second.folded⟩

end TensorGraph.Pass
