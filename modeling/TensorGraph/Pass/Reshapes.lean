import TensorGraph.Pass.Basic

/-!
# Chains of reshapes and transpositions

Where a chain of operators that keep the row-major order comes back to a shape it had before, the
consumers can read the earlier node. A chain of transpositions is one transposition by the composed
order, or nothing.
-/

namespace TensorGraph.Pass

variable {α : Type}

/-- Whether an operator keeps the row-major order of the values. -/
def keepsRowMajor : Operator α → Bool
  | .reshape _ => true
  | .contiguous => true
  | .squeeze _ => true
  | .unsqueeze _ => true
  | _ => false

/-- Whether an operator only changes the layout to the standard one. -/
def isContiguous : Operator α → Bool
  | .contiguous => true
  | _ => false

/-- Whether the single consumer of a node, looking through contiguous nodes, transposes it. -/
def feedsTransposeWithin (g : Graph α) : (bound : Nat) → NodeId → Checked Bool
  | 0, _ => .error .endless
  | bound + 1, node =>
    match g.consumers node with
    | [consumer] => do
      let op ← g.op consumer
      if isContiguous op then feedsTransposeWithin g bound consumer
      else return op.transposeOrder?.isSome
    | _ => .ok false

/-- The transposition that feeds a node, looking through contiguous nodes. Without one, the node
where the search ends. -/
def transposeAboveWithin (g : Graph α) : (bound : Nat) → NodeId → Checked NodeId
  | 0, _ => .error .endless
  | bound + 1, node =>
    match g.inputs node with
    | [input] => do
      let op ← g.op input
      if isContiguous op then transposeAboveWithin g bound input
      else if op.transposeOrder?.isSome then return input
      else return node
    | _ => .ok node

/-- The nodes from one upward, along first inputs, as long as they keep the row-major order, and the
first one above that does not. There is no chain when an input is missing. -/
def chainAboveWithin (g : Graph α) : (bound : Nat) → NodeId → Checked (Option (List NodeId))
  | 0, _ => .error .endless
  | bound + 1, node => do
    if keepsRowMajor (← g.op node) then
      match g.inputs node with
      | [] => return none
      | input :: _ => return (← chainAboveWithin g bound input).map (node :: ·)
    else return some [node]

/-- For the first node of a chain whose shape comes again further up, that node and the furthest one
of the same shape. -/
def recurrence? (g : Graph α) (chain : List NodeId) : Checked (Option (NodeId × NodeId)) := do
  let shaped ← chain.mapM fun node => return (node, ← g.shape node)
  return shaped.findSome? fun (start, shape) =>
    (shaped.reverse.find? fun (node, other) => node != start && decide (other = shape)).map
      fun (node, _) => (start, node)

/-- Whether some consumer keeps the row-major order, so that the chain goes on below. -/
def chainGoesOn (g : Graph α) (node : NodeId) : Checked Bool :=
  return (← (g.consumers node).mapM g.op).any keepsRowMajor

/-- Let the consumers of `old` read `new`. Gives the node that may have become unused. -/
def bypass (old new : NodeId) : Revision α (Option NodeId) := do
  match ← Revision.attempt (Edit.replaceInstruction old new) with
  | .ok _ => return some old
  | .error _ => return none

/-- Shorten the chain that ends at a node, if it comes back to an earlier shape. Gives the node that
may have become unused. -/
def collapseChain (node : NodeId) : Revision α (Option NodeId) := do
  let g ← Revision.graph
  if ← chainGoesOn g node then return none
  match ← chainAboveWithin g (g.size + 1) node with
  | none => return none
  | some chain =>
    match ← recurrence? g chain with
    | none => return none
    | some (start, earlier) =>
      if g.hasConsumers start then bypass start earlier else return none

/-- Where a chain of transpositions begins, and the order it composes to. -/
structure TransposeChain where
  /-- The uppermost node that the walk reached. -/
  top : NodeId
  order : List Nat

/-- Walk up a chain of transpositions and compose their orders. There is no chain at a node that
does not transpose. -/
def transposeChainWithin (g : Graph α) :
    (bound : Nat) → NodeId → List Nat → Checked (Option TransposeChain)
  | 0, _, _ => .error .endless
  | bound + 1, node, composed => do
    match (← g.op node).transposeOrder? with
    | none => return none
    | some order =>
      let composed ← Permutation.reorder order composed
      let above ← transposeAboveWithin g (g.size + 1) node
      if above = node || (← g.op above).transposeOrder?.isNone then
        return some ⟨above, composed⟩
      else transposeChainWithin g bound above composed

/-- Replace a chain of transpositions that ends at a node. Gives the node that may have become
unused. -/
def composeTransposes (node : NodeId) : Revision α (Option NodeId) := do
  let g ← Revision.graph
  if ← feedsTransposeWithin g (g.size + 1) node then return none
  let start := Permutation.identity (← g.shape node).rank
  match ← transposeChainWithin g (g.size + 1) node start with
  | none => return none
  | some chain =>
    if (← g.op chain.top).transposeOrder?.isNone then return none
    match g.inputs chain.top, g.inputs node with
    | source :: _, old :: _ =>
      if Permutation.isIdentity chain.order then
        if g.hasConsumers node then bypass node source else return none
      else if chain.top = node then return none
      else
        match ← Revision.attempt
            (Edit.replaceOperator node (.transpose chain.order) [source] []) with
        | .ok _ => return some old
        | .error _ => return none
    | _, _ => return none

/-- What to do at a node: nothing at a node that is not read and not last, nor at a final contiguous
node. -/
def simplifyAt (node : NodeId) : Revision α (Option NodeId) := do
  let g ← Revision.graph
  if !g.contains node then return none
  let op ← g.op node
  let isLast := g.last? == some node
  if isLast && isContiguous op then return none
  else if !isLast && !g.hasConsumers node then return none
  else if keepsRowMajor op then collapseChain node
  else if op.transposeOrder?.isSome then composeTransposes node
  else return none

/-- Shorten chains of reshapes and transpositions, in insertion order. Gives the number of
changes. -/
def shortenChains : Revision α Nat := do
  (← Revision.graph).order.foldlM
    (fun changes node => do
      match ← simplifyAt node with
      | none => return changes
      | some unused =>
        let _ ← Revision.removeUnused unused
        return changes + 1)
    0

end TensorGraph.Pass
