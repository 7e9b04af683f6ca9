import TensorGraph.Graph.Basic

/-!
# The text of graphs

A node is written on one line: its handle, its operator with the names of its modules, the handles
of its inputs, and its shape. A graph is its lines in insertion order, under its name if it has one.
-/

namespace TensorGraph.Graph

variable {α : Type} [Scalar α]

/-- The three pieces of a node's line. -/
structure Line where
  handle : String
  /-- The operator, with the names of its modules in brackets. -/
  operator : String
  /-- Inputs and shape. -/
  rest : String

def handle (node : NodeId) : String := s!"@{node}"

def instructionLine (node : NodeId) (instruction : Instruction α (Graph α)) : Checked Line := do
  let args := Text.commaSeparated (instruction.inputs.map handle)
  let modules := Text.commaSeparated (instruction.modules.map name)
  let op ← instruction.op.text
  return {
    handle := handle node
    operator := if modules.isEmpty then op else s!"{op}[{modules}]"
    rest := s!"({args}) -> {instruction.shape.text}" }

def Line.plain (line : Line) : String := s!"{line.handle} = {line.operator}{line.rest}"

/-- The sequence that starts a terminal style. Style zero ends all others. -/
def style (code : String) : String := "\x1b[" ++ code ++ "m"

/-- Text in which every sequence that ends all styles is followed by the start of one. -/
def restyle (start : List Char) : List Char → List Char
  | '\x1b' :: '[' :: '0' :: 'm' :: rest =>
    '\x1b' :: '[' :: '0' :: 'm' :: (start ++ restyle start rest)
  | c :: rest => c :: restyle start rest
  | [] => []

/-- Text in a style. A name inside it may end the style early; it is then started again. -/
def styled (code text : String) : String :=
  style code ++ String.ofList (restyle (style code).toList text.toList) ++ style "0"

/-- The pieces put together for a terminal: the handle bold and the operator green. -/
def Line.colored (line : Line) : String :=
  styled "1" line.handle ++ " = " ++ styled "32" line.operator ++ line.rest

def line (g : Graph α) (node : NodeId) : Checked Line := do
  instructionLine node (← g.instruction node)

def text (g : Graph α) : Checked String := do
  let lines ← g.nodes.mapM fun (node, instruction) => instructionLine node instruction
  let title := if g.name.isEmpty then "" else s!"module {g.name}:\n"
  return title ++ String.join (lines.map fun line => line.plain ++ "\n")

end TensorGraph.Graph
