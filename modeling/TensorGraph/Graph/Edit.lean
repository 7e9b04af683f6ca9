import TensorGraph.Graph.Error

/-!
# Editing graphs

Instructions are added with an inferred shape, and every later change of an input re-infers the
shapes that depend on it. A graph can be made cyclic by pointing an input back at a consumer;
re-inference around a cycle may go on for ever, so the length of a chain is bounded.
-/

namespace TensorGraph

namespace Graph

variable {α : Type}

/-- Insert an instruction at a position of the order. -/
def insertAt (g : Graph α) (instruction : Instruction α (Graph α)) (position : Nat) :
    Graph α × NodeId :=
  match g.vacant with
  | node :: vacant =>
    ({ g with nodes := g.nodes.insertIdx position (node, instruction), vacant := vacant }, node)
  | [] =>
    ({ g with
        nodes := g.nodes.insertIdx position (g.fresh, instruction)
        fresh := g.fresh + 1 }, g.fresh)

/-- Where instructions are appended: at the end, but never after the node that ends the graph. -/
def appendPosition (g : Graph α) : Nat :=
  if g.endsInReturns then g.size - 1 else g.size

/-- Declare a parameter. Parameters come first, before everything that may read them. -/
def addParameter (g : Graph α) (name : String) (shape : Shape) : Graph α × NodeId :=
  g.insertAt ⟨.parameter name shape, shape, [], []⟩ 0

/-- Embed a value. Like parameters, embedded values come first. -/
def addLiteral (g : Graph α) (value : Tensor α) : Graph α × NodeId :=
  g.insertAt ⟨.literal value, value.shape, [], []⟩ 0

/-- End the graph with the values of these nodes. -/
def addReturns (g : Graph α) (inputs : List NodeId) : Checked (Graph α × NodeId) :=
  return g.insertAt ⟨.returns, Shape.ofParts (← g.shapes inputs), inputs, []⟩ g.size

def inferOver (g : Graph α) (node? : Option NodeId) (op : Operator α) (inputs : List NodeId)
    (modules : List (Graph α)) : Outcome GraphError Shape := do
  let shapes ← g.shapes inputs
  (op.infer shapes (signatures modules)).widen (.shape node? op.name)

/-- Append an operator over nodes of the graph, if inference accepts it. -/
def add (g : Graph α) (op : Operator α) (inputs : List NodeId) (modules : List (Graph α)) :
    Outcome GraphError (Graph α × NodeId) := do
  let shape ← g.inferOver none op inputs modules
  return g.insertAt ⟨op, shape, inputs, modules⟩ g.appendPosition

def modifyNode (g : Graph α) (node : NodeId)
    (change : Instruction α (Graph α) → Instruction α (Graph α)) : Graph α :=
  { g with nodes := g.nodes.map fun (i, instruction) =>
      (i, if i = node then change instruction else instruction) }

def setShape (g : Graph α) (node : NodeId) (shape : Shape) : Graph α :=
  g.modifyNode node fun instruction => { instruction with shape := shape }

/-- Take an instruction out and give its index back. An index that is not in use is left alone. -/
def erase (g : Graph α) (node : NodeId) : Graph α :=
  if g.contains node then
    { g with nodes := g.nodes.filter (·.1 != node), vacant := node :: g.vacant }
  else g

/-- Take a node out if nothing reads it. -/
def remove (g : Graph α) (node : NodeId) : Outcome GraphError (Graph α) :=
  if g.hasConsumers node then .refuse (.stillUsed node) else return g.erase node

/-- Whether a node stays although nothing reads it: parameters, the ends of graphs, and the last
node. -/
def isKept (g : Graph α) (node : NodeId) : Bool :=
  g.last? == some node ||
    match g.find? node with
    | some instruction => instruction.op.isParameter || instruction.op.isReturns
    | none => true

/-- Take a node out if nothing reads it and it need not stay, then those of its inputs that nothing
reads any more. Gives the number of nodes taken out; the bound is on the depth of this chain. -/
def removeUnusedWithin : (bound : Nat) → Graph α → NodeId → Graph α × Nat
  | 0, g, _ => (g, 0)
  | bound + 1, g, node =>
    if g.hasConsumers node || g.isKept node then (g, 0)
    else
      (g.inputs node).eraseDups.foldl
        (fun (g, removed) input =>
          let (g, more) := removeUnusedWithin bound g input
          (g, removed + more))
        (g.erase node, 1)

/-- Take a node out if nothing reads it and it need not stay, and then what it alone kept in use.
Each node of the chain leaves the graph, so its depth is bounded by the size. -/
def removeUnused (g : Graph α) (node : NodeId) : Graph α × Nat :=
  removeUnusedWithin (g.size + 1) g node

end Graph

namespace Edit

variable {α : Type}

def add (op : Operator α) (inputs : List NodeId) (modules : List (Graph α)) : Edit α NodeId := do
  let (g, node) ← (← get).add op inputs modules
  set g
  return node

def addLiteral (value : Tensor α) : Edit α NodeId := do
  let (g, node) := (← get).addLiteral value
  set g
  return node

/-- Broadcast every input to the common lengths and append an operator over them. When the operator
refuses, the broadcasts that were added before stay. -/
def addCommon (op : Operator α) (inputs : List NodeId) : Edit α NodeId := do
  let shapes ← (← get).shapes inputs
  match Shape.commonLens shapes with
  | none => Change.refuse (.shape none op.name (.invalid op.name (.noCommonLens shapes)))
  | some lens =>
    let args ← (inputs.zip shapes).mapM fun (input, shape) =>
      if shape.lens = lens then pure input else add (.broadcast lens) [input] []
    add op args []

/-- Infer a node's shape again and, if it is another one, those of its consumers. The bound is on
the depth of this chain. -/
def reinferWithin : (bound : Nat) → NodeId → Edit α Unit
  | 0, _ => (Outcome.fault .endless : Outcome GraphError Unit)
  | bound + 1, node => do
    let g ← get
    let instruction ← g.instruction node
    let shape ← g.inferOver (some node) instruction.op instruction.inputs instruction.modules
    if shape ≠ instruction.shape then
      set (g.setShape node shape)
      (g.consumers node).forM (reinferWithin bound)

/-- How much longer than the graph a chain of re-inference may be before it counts as endless. -/
def chainAllowance : Nat := 1048576

/-- A bound on chains of re-inference. Without cycles a chain is no longer than the graph, so only
chains around a cycle draw on the allowance. -/
def chainBound (g : Graph α) : Nat := g.size + chainAllowance

/-- Infer a node's shape again from its current inputs, and pass a change on to its consumers. -/
def reinfer (node : NodeId) : Edit α Unit := do
  reinferWithin (chainBound (← get)) node

def reinferConsumers (node : NodeId) : Edit α Unit := do
  let g ← get
  (g.consumers node).forM (reinferWithin (chainBound g))

/-- Point the arguments of a node that read `old` at `new`. -/
def reroute (node old new : NodeId) : Edit α Unit := do
  let g ← get
  match g.find? node with
  | none => Change.refuse (.notAnInput old node)
  | some instruction =>
    if !instruction.inputs.contains old then Change.refuse (.notAnInput old node)
    else
      let inputs := instruction.inputs.map fun input => if input = old then new else input
      let shape ← g.inferOver (some node) instruction.op inputs instruction.modules
      set (g.modifyNode node fun instruction =>
        { instruction with inputs := inputs, shape := shape })
      if shape ≠ instruction.shape then reinferConsumers node

/-- Point every argument of a node that reads `old` at `new`. All or nothing, also when a consumer
further down refuses the new shape. -/
def replaceArgument (node old new : NodeId) : Edit α Unit :=
  Change.transaction (reroute node old new)

/-- Point every consumer of `old`, other than `new` itself, at `new`. All or nothing. -/
def replaceInstruction (old new : NodeId) : Edit α Unit :=
  Change.transaction do
    ((← get).consumers old).forM fun consumer =>
      if consumer = new then pure () else reroute consumer old new

/-- Give a node another operator, other inputs and other modules. All or nothing. -/
def replaceOperator (node : NodeId) (op : Operator α) (inputs : List NodeId)
    (modules : List (Graph α)) : Edit α Unit :=
  Change.transaction do
    let g ← get
    let shape ← g.inferOver (some node) op inputs modules
    let old ← g.instruction node
    set (g.modifyNode node fun _ => ⟨op, shape, inputs, modules⟩)
    if shape ≠ old.shape then reinferConsumers node

/-- Take a node out if nothing reads it. -/
def remove (node : NodeId) : Edit α Unit := do
  set (← (← get).remove node)

end Edit

end TensorGraph
