import TensorGraph.Operator.Inference

/-!
# Graphs

A graph is a list of instructions in insertion order, each under an index of its own. An index stays
valid while other instructions come and go: a new instruction takes the index that was given back
last, or the next unused one when none is free. Modules are graphs again, held by value.
-/

namespace TensorGraph

/-- The index of an instruction. -/
abbrev NodeId := Nat

/-- An operator with its inputs, its modules and its inferred shape. -/
structure Instruction (α μ : Type) where
  op : Operator α
  /-- The shape inferred from the current inputs. -/
  shape : Shape
  /-- The inputs in argument order. -/
  inputs : List NodeId
  modules : List μ

/-- Instructions in insertion order. -/
structure Graph (α : Type) where
  /-- The name; the empty one for a graph without a name. -/
  name : String
  nodes : List (NodeId × Instruction α (Graph α))
  /-- Indices given back, the last one first. -/
  vacant : List NodeId
  /-- The least index that was never used. -/
  fresh : NodeId

namespace Graph

variable {α : Type}

def empty (name : String) : Graph α := ⟨name, [], [], 0⟩

instance : Inhabited (Graph α) := ⟨empty ""⟩

mutual

/-- How deep modules are nested; a graph without modules has depth one. -/
def depth : Graph α → Nat
  | ⟨_, nodes, _, _⟩ => nodesDepth nodes + 1

def nodesDepth : List (NodeId × Instruction α (Graph α)) → Nat
  | [] => 0
  | (_, ⟨_, _, _, modules⟩) :: rest => max (modulesDepth modules) (nodesDepth rest)

def modulesDepth : List (Graph α) → Nat
  | [] => 0
  | module :: rest => max (depth module) (modulesDepth rest)

end

/-- The indices in insertion order. -/
def order (g : Graph α) : List NodeId := g.nodes.map (·.1)

def size (g : Graph α) : Nat := g.nodes.length

def find? (g : Graph α) (node : NodeId) : Option (Instruction α (Graph α)) :=
  (g.nodes.find? (·.1 == node)).map (·.2)

/-- Whether an index is in use. -/
def contains (g : Graph α) (node : NodeId) : Bool := g.order.contains node

/-- The instruction under an index that ought to be in use. -/
def instruction (g : Graph α) (node : NodeId) : Checked (Instruction α (Graph α)) :=
  match g.find? node with
  | some instruction => .ok instruction
  | none => .error .missingNode

def op (g : Graph α) (node : NodeId) : Checked (Operator α) :=
  return (← g.instruction node).op

def shape (g : Graph α) (node : NodeId) : Checked Shape :=
  return (← g.instruction node).shape

def shapes (g : Graph α) (nodes : List NodeId) : Checked (List Shape) :=
  nodes.mapM g.shape

/-- The inputs of a node in argument order. An index that is not in use has none. -/
def inputs (g : Graph α) (node : NodeId) : List NodeId :=
  match g.find? node with
  | some instruction => instruction.inputs
  | none => []

/-- The nodes that read a node, each once, in the order of their indices. -/
def consumers (g : Graph α) (node : NodeId) : List NodeId :=
  sorted (fun a b => decide (a ≤ b)) ((g.nodes.filter (·.2.inputs.contains node)).map (·.1))

def hasConsumers (g : Graph α) (node : NodeId) : Bool :=
  g.nodes.any (·.2.inputs.contains node)

def last? (g : Graph α) : Option NodeId := g.order.getLast?

def endsInReturns (g : Graph α) : Bool :=
  match g.nodes.getLast? with
  | some (_, instruction) => instruction.op.isReturns
  | none => false

/-- The nodes whose values the graph returns: what the final node reads, or that node itself when
it does not end the graph. -/
def results (g : Graph α) : List NodeId :=
  match g.nodes.getLast? with
  | some (node, instruction) =>
    if instruction.op.isReturns then instruction.inputs else [node]
  | none => []

def outputShapes (g : Graph α) : List Shape :=
  g.results.filterMap fun node => (g.find? node).map (·.shape)

/-- The first node, in insertion order, that is a parameter of this name. -/
def parameter? (g : Graph α) (name : String) : Option NodeId :=
  (g.nodes.find? (·.2.op.parameterName? == some name)).map (·.1)

/-- The names of the parameters in ascending order. A name that is declared twice is listed
twice. -/
def parameterNames (g : Graph α) : List String :=
  sorted (fun a b => !decide (b < a)) (g.nodes.filterMap (·.2.op.parameterName?))

/-- The graph as a module, from outside. -/
def signature (g : Graph α) : Signature where
  name := g.name
  parameters := g.parameterNames.filterMap fun name => do
    let declared ← g.find? (← g.parameter? name)
    return (name, declared.shape)
  outputs := g.outputShapes

def signatures (modules : List (Graph α)) : List Signature := modules.map signature

/-- Number of argument positions in the graph. -/
def edgeCount (g : Graph α) : Nat := (g.nodes.flatMap (·.2.inputs)).length

/-- Follow inputs from the pending nodes, listing each node once. The count bounds the steps. -/
def reach (g : Graph α) : (steps : Nat) → (pending seen : List NodeId) → List NodeId
  | 0, _, seen => seen
  | _ + 1, [], seen => seen
  | steps + 1, node :: pending, seen =>
    if seen.contains node then g.reach steps pending seen
    else g.reach steps (g.inputs node ++ pending) (seen ++ [node])

def dependencies (g : Graph α) (node : NodeId) : List NodeId :=
  g.reach (g.edgeCount + 2) [node] []

/-- Whether a node can have a value before any parameter is bound. -/
def hasOwnValue (g : Graph α) (node : NodeId) : Bool :=
  match g.find? node with
  | some instruction => !instruction.op.isParameter && !instruction.op.isReturns
  | none => false

/-- Whether a node depends on embedded values only. -/
def canEval (g : Graph α) (node : NodeId) : Checked Bool := do
  let _ ← g.instruction node
  return (g.dependencies node).all g.hasOwnValue

end Graph

end TensorGraph
