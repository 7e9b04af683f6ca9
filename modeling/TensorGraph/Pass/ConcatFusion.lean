import TensorGraph.Pass.Basic

/-!
# Fusing joins

An elementwise node that reads a join of elementwise nodes becomes one fused join, so that the
joined value need not exist on its own.
-/

namespace TensorGraph.Pass

variable {α : Type}

def readOnce (g : Graph α) (node : NodeId) : Bool := (g.consumers node).length == 1

/-- Whether a node is an elementwise module that one node reads. -/
def isFeedingPart (g : Graph α) (node : NodeId) : Checked Bool :=
  return (← g.op node).isPointwise && readOnce g node

/-- Whether an argument is a join that can be fused into its reader. -/
def isFusible (g : Graph α) (args : List NodeId) (arg : NodeId) : Checked Bool := do
  if (← g.op arg).concatAxis?.isNone || !readOnce g arg || args.count arg != 1 then return false
  return (← (g.inputs arg).mapM (isFeedingPart g)).any id

/-- The position of the first argument that can be fused. -/
def fusiblePosition? (g : Graph α) (args : List NodeId) : Checked (Option Nat) :=
  return (← args.mapM (isFusible g args)).findIdx? id

/-- A module with one parameter, which it passes on. -/
def passingModule (name : String) (elem : ElementType) : Outcome GraphError (Graph α) := do
  let (g, x) := (Graph.empty name).addParameter "x0" (Shape.scalar elem)
  let (g, same) ← g.add .identity [x] []
  let (g, _) ← g.addReturns [same]
  return g

/-- The module that makes one part of a join, and the inputs it reads. -/
def feedingModule (g : Graph α) (node : NodeId) (position : Nat) (part : NodeId) :
    Outcome GraphError (Graph α × List NodeId) := do
  let instruction ← g.instruction part
  match instruction.op.isPointwise, instruction.modules with
  | true, [module] =>
    return ({ module with name := s!"concat:{module.name}" }, instruction.inputs)
  | _, _ =>
    let module ← passingModule s!"concat:identity{node}_{position}" instruction.shape.elem
    return (module, [part])

/-- Let a module read the joined value through a marked parameter instead of a named one. -/
def markParameter (module : Graph α) (name : String) : Outcome GraphError (Option (Graph α)) :=
  match module.parameter? name with
  | none => return none
  | some old => do
    let shape ← module.shape old
    let (renamed, new) :=
      ({ module with name := s!"{module.name}:concat" } : Graph α).addParameter
        ("!" ++ name) shape
    match (do Edit.replaceInstruction old new; Edit.remove old : Edit α Unit) renamed with
    | .ok _ marked => return some marked
    | .error cause _ => .error cause

/-- The fused join that stands for a node and the join at this position among its arguments. -/
structure Fusion (α : Type) where
  join : NodeId
  axis : Int
  inputs : List NodeId
  modules : List (Graph α)

/-- Work out the fused join. There is none when the node does not have one module with a parameter
for each argument. -/
def planFusedJoin (g : Graph α) (node : NodeId) (position : Nat) :
    Outcome GraphError (Option (Fusion α)) := do
  let instruction ← g.instruction node
  let join ← fetch instruction.inputs position
  match (← g.op join).concatAxis?, instruction.modules with
  | some axis, [post] =>
    let names := post.parameterNames
    if names.length ≠ instruction.inputs.length then return none
    let fed ← (g.inputs join).zipIdx.mapM fun (part, k) => feedingModule g node k part
    match ← markParameter post (← fetch names position) with
    | none => return none
    | some marked =>
      return some {
        join := join
        axis := axis
        inputs := fed.flatMap (·.2) ++ instruction.inputs.eraseIdx position
        modules := fed.map (·.1) ++ [marked] }
  | _, _ => return none

/-- Fuse the join at this position among the arguments of a node. Tells whether it was done. -/
def fuseJoin (node : NodeId) (position : Nat) : Revision α (Except GraphError Bool) := do
  let g ← Revision.graph
  match ← (planFusedJoin g node position).attempt with
  | .error cause => return .error cause
  | .ok none => return .ok false
  | .ok (some fusion) =>
    match ← Revision.attempt
        (Edit.replaceOperator node (.fusedConcat fusion.axis) fusion.inputs fusion.modules) with
    | .error cause => return .error cause
    | .ok _ =>
      let _ ← Revision.removeUnused fusion.join
      return .ok true

/-- Fuse at a node if it is elementwise and reads a fusible join. Gives the number of fusions. -/
def fuseAt (node : NodeId) : Revision α Nat := do
  let g ← Revision.graph
  if !g.contains node then return 0
  if !(← g.op node).isPointwise then return 0
  match ← fusiblePosition? g (g.inputs node) with
  | none => return 0
  | some position =>
    match ← fuseJoin node position with
    | .ok done => return if done then 1 else 0
    | .error cause =>
      Revision.warn s!"fuse_concat: {cause.message}"
      return 0

/-- Fuse joins in insertion order. Gives the number of fused nodes. -/
def fuseConcats : Revision α Nat := do
  (← Revision.graph).order.foldlM (fun fused node => return fused + (← fuseAt node)) 0

end TensorGraph.Pass
