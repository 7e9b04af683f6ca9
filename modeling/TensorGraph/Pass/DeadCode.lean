import TensorGraph.Pass.Basic

/-!
# Dead code

Take out every node that nothing depends on. Parameters, the node that ends the graph and the last
node always stay. Going through the order from the end meets consumers before their inputs.
-/

namespace TensorGraph.Pass

variable {α : Type}

/-- Take out unused nodes, the last inserted first. Gives the number of nodes taken out. -/
def dropDeadCode : Revision α Nat := do
  (← Revision.graph).order.reverse.foldlM
    (fun total node => return total + (← Revision.removeUnused node)) 0

end TensorGraph.Pass
