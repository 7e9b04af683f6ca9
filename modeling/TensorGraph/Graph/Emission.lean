import TensorGraph.Graph.Edit

/-!
# Emitting instructions

The nodes that a lowering adds are remembered, so that one that is refused half-way can be undone by
taking them out again, the last one first.
-/

namespace TensorGraph

/-- A graph with the nodes added so far. -/
structure Emission (α : Type) where
  graph : Graph α
  /-- The added nodes, the latest first. -/
  added : List NodeId

/-- A computation that appends instructions. -/
abbrev Emit (α : Type) := EStateM (Stop GraphError) (Emission α)

namespace Emit

variable {α β : Type}

/-- Carry a result that does not depend on the graph into an emission. -/
def ofOutcome : Outcome GraphError β → Emit α β
  | .ok value => fun e => .ok value e
  | .error cause => fun e => .error cause e

instance : MonadLift (Outcome GraphError) (Emit α) := ⟨ofOutcome⟩

def graph : Emit α (Graph α) := return (← get).graph

def noted (added : Graph α × NodeId) : Emit α NodeId := do
  modify fun e => ⟨added.1, added.2 :: e.added⟩
  return added.2

def add (op : Operator α) (inputs : List NodeId) (modules : List (Graph α)) : Emit α NodeId := do
  noted (← (← graph).add op inputs modules)

def literal (value : Tensor α) : Emit α NodeId := do
  noted ((← graph).addLiteral value)

def refuse (cause : GraphError) : Emit α β := fun e => .error (.refusal cause) e

/-- Take nodes out again. One that is still read stays. -/
def undo (g : Graph α) (added : List NodeId) : Graph α :=
  added.foldl
    (fun g node =>
      match g.remove node with
      | .ok g => g
      | .error _ => g)
    g

/-- Carry out an emission. When it is refused, what it added is taken out again. -/
def commit (emission : Emit α β) : Edit α β := fun g =>
  match emission ⟨g, []⟩ with
  | .ok value e => .ok value e.graph
  | .error cause e => .error cause (undo e.graph e.added)

end Emit

end TensorGraph
