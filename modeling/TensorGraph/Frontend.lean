import TensorGraph.Catalog
import TensorGraph.Einsum.Lowering
import TensorGraph.Loop.Lowering

/-!
# The front end

Lower a framework node into instructions. Einsum and scan nodes have lowerings of their own; any
other node is one operator of the catalog.
-/

namespace TensorGraph

inductive NodeError (α : Type)
  | catalog (cause : CatalogError α)
  | graph (cause : GraphError)
  | einsum (node : String) (cause : Einsum.EinsumError)
  | loop (node : String) (cause : Loop.LoopError α)

/-- The wording of a refused node. There is none about an attribute that is a graph. -/
def NodeError.message? {α : Type} [Scalar α] : NodeError α → Option String
  | .catalog cause => cause.message?
  | .graph cause => some cause.message
  | .einsum node cause => some s!"einsum node `{node}`: {cause.message}"
  | .loop node cause => cause.message?.map fun text => s!"scan node `{node}`: {text}"

namespace FrameworkNode

variable {α : Type}

/-- Lower an einsum node by its equation. -/
def lowerEinsum [Scalar α] (node : FrameworkNode α) (args : List NodeId) :
    Change Einsum.EinsumError α (List NodeId) :=
  match node.attributes.lookup "equation" with
  | some (.str equation) => return [← Einsum.lower equation args]
  | _ => Change.refuse .missingEquation

/-- Lower a node to one operator of the catalog. -/
def lowerPlain (node : FrameworkNode α) (args : List NodeId) :
    Change (NodeError α) α (List NodeId) :=
  match Catalog.build (catalogName node.opType) (catalogAttributes node.attributes) with
  | .ok op => return [← (Edit.add op args []).widen .graph]
  | .error cause => Change.refuse (.catalog cause)

/-- Lower a node. Gives the nodes of its outputs. -/
def lower [Scalar α] (node : FrameworkNode α) (args : List NodeId) :
    Change (NodeError α) α (List NodeId) :=
  if node.opType = "Einsum" then (node.lowerEinsum args).widen (.einsum node.name)
  else if node.opType = "Scan" then (Loop.lower node args).widen (.loop node.name)
  else node.lowerPlain args

end FrameworkNode

end TensorGraph
