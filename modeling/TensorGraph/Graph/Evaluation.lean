import TensorGraph.Graph.Basic
import TensorGraph.Operator.Evaluation

/-!
# Running graphs

A node's value is computed from the values of its inputs, and each value once. Shapes are inferred
again from the values, so a parameter may be bound to a tensor of another shape than the declared
one.
-/

namespace TensorGraph.Graph

variable {α : Type} [Scalar α]

abbrev Memo (α : Type) := List (NodeId × Tensor α)

abbrev Runner (α : Type) := Graph α → Bindings α → Outcome EvalError (List (Tensor α))

/-- A graph as a module that can be run. -/
def callableBy (run : Runner α) (module : Graph α) : Callable α :=
  ⟨module.signature, run module⟩

/-- The value of a node, looked up or computed. The bound is on the length of a chain of inputs. -/
def valueWithin (run : Runner α) (g : Graph α) (bindings : Bindings α) :
    (bound : Nat) → NodeId → StateT (Memo α) (Outcome EvalError) (Tensor α)
  | 0, _ => fun _ => .fault .endless
  | bound + 1, node => do
    match (← get).lookup node with
    | some value => return value
    | none =>
      let instruction ← (g.instruction node : Outcome EvalError _)
      let value ← match instruction.op with
        | .parameter name _ =>
          match bindings.find? name with
          | some value => pure value
          | none => (Outcome.refuse (.missingParameter name) : Outcome EvalError (Tensor α))
        | op => do
          let args ← instruction.inputs.mapM (valueWithin run g bindings bound)
          op.apply args (instruction.modules.map (callableBy run))
      modify ((node, value) :: ·)
      return value

/-- The values of several nodes. Without cycles a chain of inputs is no longer than the graph. -/
def valuesWith (run : Runner α) (g : Graph α) (bindings : Bindings α) (nodes : List NodeId) :
    Outcome EvalError (List (Tensor α)) :=
  (nodes.mapM (valueWithin run g bindings (g.size + 1))).run' []

/-- Run a graph whose modules are nested no deeper than this. -/
def runWithin : (depth : Nat) → Runner α
  | 0 => fun _ _ => .fault .endless
  | depth + 1 => fun g bindings => valuesWith (runWithin depth) g bindings g.results

/-- The values that a graph returns, for values of its parameters. -/
def run (g : Graph α) (bindings : Bindings α) : Outcome EvalError (List (Tensor α)) :=
  runWithin g.depth g bindings

def value (g : Graph α) (bindings : Bindings α) (node : NodeId) : Outcome EvalError (Tensor α) :=
  (valueWithin (runWithin g.depth) g bindings (g.size + 1) node).run' []

/-- A graph as a module that can be run. -/
def callable (g : Graph α) : Callable α := callableBy run g

/-- Bind the parameters, in the order of their names, to arguments, and take the first value that
the graph returns. -/
def call (g : Graph α) (args : List (Tensor α)) : Outcome EvalError (Tensor α) :=
  g.callable.call args

end TensorGraph.Graph
