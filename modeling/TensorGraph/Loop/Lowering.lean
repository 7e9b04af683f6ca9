import TensorGraph.Graph.Emission
import TensorGraph.Loop.Plan

/-!
# Lowering loops

Every iteration's slice of the scan inputs is cut out first. One scan instruction runs the body over
them, and the scan outputs of the iterations are taken out of its tuple and stacked together again,
one join at a time.
-/

namespace TensorGraph.Loop

variable {α : Type}

def ScanInput.position (input : ScanInput) (iterations iteration : Nat) : Nat :=
  if input.reversed then iterations - 1 - iteration else iteration

/-- Cut one position out of a scan input and drop its axis. -/
def emitCut (arg : NodeId) (input : ScanInput) (position : Nat) : Emit α NodeId := do
  let first := Word.toSigned position
  let last ← Word.addSigned first 1
  let cut ← Emit.add (.slice [input.axis] [first] [last]) [arg] []
  Emit.add (.squeeze [input.axis]) [cut] []

/-- What one iteration reads of the scan inputs, after what the earlier ones read. -/
def emitCuts (plan : Plan α) (scanned cuts : List NodeId) (iteration : Nat) :
    Emit α (List NodeId) := do
  let own ← (scanned.zip plan.inputs).mapM fun (arg, input) =>
    emitCut arg input (input.position plan.iterations iteration)
  return cuts ++ own

def emitComponent (loop : NodeId) (index : Nat) : Emit α NodeId :=
  Emit.add (.tupleElem index) [loop] []

/-- One scan output of an iteration, with an axis to stack it along. -/
def emitScanned (loop : NodeId) (index : Nat) (output : ScanOutput) : Emit α NodeId := do
  Emit.add (.unsqueeze [output.axis]) [← emitComponent loop index] []

/-- Join one more value to a stack. -/
def emitStack (loop : NodeId) (index : Nat) (output : ScanOutput) (stack : NodeId) :
    Emit α NodeId := do
  let next ← emitScanned loop index output
  let parts := if output.prepended then [next, stack] else [stack, next]
  Emit.add (.concat (output.axis : Int)) parts []

/-- Join the scan outputs of one iteration to what is stacked so far. -/
def emitStacks (plan : Plan α) (loop : NodeId) (piles : List NodeId) (iteration : Nat) :
    Emit α (List NodeId) :=
  let first := plan.states + iteration * plan.outputs.length
  (piles.zip plan.outputs).zipIdx.mapM fun ((stack, output), j) =>
    emitStack loop (first + j) output stack

/-- Emit a planned loop. Gives the final states, then the stacked scan outputs. -/
def emitPlan (plan : Plan α) (args : List NodeId) : Emit α (List NodeId) := do
  let cuts ← foldCountM (emitCuts plan (args.drop plan.states)) 0 plan.iterations []
  let op := .scan plan.iterations plan.inputs.length plan.states
  let loop ← Emit.add op (args.take plan.states ++ cuts) [plan.body]
  let states ← (List.range plan.states).mapM (emitComponent loop)
  let piles ← plan.outputs.zipIdx.mapM fun (output, j) =>
    emitScanned loop (plan.states + j) output
  let piles ← foldCountM (emitStacks plan loop) 1 (plan.iterations - 1) piles
  return states ++ piles

/-- Lower a scan node over states and scan inputs. Attributes are checked before the first
instruction is added, and a refusal while emitting takes back what was added. -/
def lower (node : FrameworkNode α) (args : List NodeId) :
    Change (LoopError α) α (List NodeId) := do
  let plan ← plan (← get) node args
  (Emit.commit (emitPlan plan args)).widen .graph

end TensorGraph.Loop
