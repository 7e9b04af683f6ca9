import TensorGraph.Attribute

/-!
# Nodes of a framework

A model arrives node by node: a name, a type of operation and attributes, over arguments that are
already in the graph.
-/

namespace TensorGraph

structure FrameworkNode (α : Type) where
  name : String
  opType : String
  attributes : Attributes α

namespace FrameworkNode

/-- Types of operation whose catalog name is another word. -/
def renamedTypes : List (String × String) := [("MatMul", "dot"), ("Reciprocal", "recip")]

/-- Attributes that the catalog knows under another name. -/
def renamedAttributes : List (String × String) := [("perm", "permutation")]

/-- Lower-case words joined by underscores: one begins at every capital letter but the first
character. -/
def snakeCase (opType : String) : String :=
  let pieces := opType.toList.zipIdx.map fun (c, i) =>
    if c.isUpper then (if i = 0 then [] else ['_']) ++ [c.toLower] else [c]
  String.ofList pieces.flatten

def catalogName (opType : String) : String :=
  (renamedTypes.lookup opType).getD (snakeCase opType)

/-- Attributes under their catalog names. One that is given under its catalog name has precedence
over one that is renamed to it. -/
def catalogAttributes {α : Type} (attributes : Attributes α) : Attributes α :=
  let own := attributes.filter fun (name, _) => (renamedAttributes.lookup name).isNone
  let renamed := attributes.filterMap fun (name, value) =>
    (renamedAttributes.lookup name).map fun catalog => (catalog, value)
  own ++ renamed

end FrameworkNode

end TensorGraph
