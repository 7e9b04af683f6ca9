import TensorGraph.Graph.Basic

/-!
# Why edits are refused

An edit of a graph is refused when inference refuses a node under its new inputs, when a node that
is to be removed is still read, or when an input that is to be replaced is not one.
-/

namespace TensorGraph

def NodeId.text (node : NodeId) : String := s!"NodeIndex({node})"

inductive GraphError
  /-- Inference refuses. The node is known when it was in the graph before. -/
  | shape (node? : Option NodeId) (op : String) (cause : ShapeError)
  | stillUsed (node : NodeId)
  | notAnInput (old node : NodeId)
deriving DecidableEq

def GraphError.message : GraphError → String
  | .shape node? op cause =>
    let node := match node? with
      | some node => s!"Some({node.text})"
      | none => "None"
    s!"shape inference failed for {node} ({op}): {cause.message}"
  | .stillUsed node => s!"can't remove {node.text}, it still has consumers"
  | .notAnInput old node => s!"{old.text} is not an input of {node.text}"

/-- A change of a graph that can be refused for a cause of one kind. A change that stops keeps what
it has done so far. -/
abbrev Change (ε α : Type) := EStateM (Stop ε) (Graph α)

namespace Change

variable {ε δ α β : Type}

/-- Carry a result that does not depend on the graph into a change. -/
def ofOutcome : Outcome ε β → Change ε α β
  | .ok value => fun g => .ok value g
  | .error cause => fun g => .error cause g

instance : MonadLift (Outcome ε) (Change ε α) := ⟨ofOutcome⟩

def refuse (cause : ε) : Change ε α β := fun g => .error (.refusal cause) g

/-- Report every refusal under a wider kind of cause. -/
def widen (wrap : ε → δ) (change : Change ε α β) : Change δ α β := fun g =>
  match change g with
  | .ok value g => .ok value g
  | .error (.fault cause) g => .error (.fault cause) g
  | .error (.refusal cause) g => .error (.refusal (wrap cause)) g

/-- All or nothing: a change that stops leaves the graph as it was. -/
def transaction (change : Change ε α β) : Change ε α β := fun g =>
  match change g with
  | .ok value g => .ok value g
  | .error cause _ => .error cause g

end Change

/-- A change by the editing operations. -/
abbrev Edit (α : Type) := Change GraphError α

end TensorGraph
