import TensorGraph.Shape.Basic

/-!
# Signatures of modules

Inference never looks inside a module. What it needs to know is the module's name, its parameters
with their declared shapes, and the shapes it returns.
-/

namespace TensorGraph

/-- How a module is seen from outside. -/
structure Signature where
  name : String
  /-- The parameters in the order of their names, with the shapes declared for them. -/
  parameters : List (String × Shape)
  outputs : List Shape

namespace Signature

def arity (s : Signature) : Nat := s.parameters.length

def parameterNames (s : Signature) : List String := s.parameters.map (·.1)

end Signature

/-- Whether a parameter receives the joined value of a fused join. -/
def takesJoined (parameter : String) : Bool := parameter.toList.head? == some '!'

end TensorGraph
