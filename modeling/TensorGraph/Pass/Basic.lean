import TensorGraph.Graph.Edit
import TensorGraph.Graph.Text
import TensorGraph.Settings

/-!
# Revision

The setting in which passes run: a graph that is changed step by step, and a log. A fault ends a
revision, and the log up to there stays. A refused edit is no fault; the pass decides what to make
of it.
-/

namespace TensorGraph

inductive LogLevel
  | info
  | warn
deriving DecidableEq

structure LogLine where
  level : LogLevel
  message : String
deriving DecidableEq

/-- A line with its level in front. -/
def LogLine.text (line : LogLine) : String :=
  match line.level with
  | .info => "INFO: " ++ line.message
  | .warn => "WARN: " ++ line.message

/-- A graph being revised, with the log so far. -/
structure Workspace (α : Type) where
  graph : Graph α
  /-- The log, the earliest line first. -/
  log : List LogLine

/-- A computation that revises a graph, writes a log and may meet a fault. -/
abbrev Revision (α : Type) := EStateM Fault (Workspace α)

namespace Revision

variable {α β : Type}

def ofChecked : Checked β → Revision α β
  | .ok value => fun w => .ok value w
  | .error cause => fun w => .error cause w

instance : MonadLift Checked (Revision α) := ⟨ofChecked⟩

def graph : Revision α (Graph α) := return (← get).graph

def setGraph (g : Graph α) : Revision α Unit := modify fun w => { w with graph := g }

def log (level : LogLevel) (message : String) : Revision α Unit :=
  modify fun w => { w with log := w.log ++ [⟨level, message⟩] }

def info (message : String) : Revision α Unit := log .info message

def warn (message : String) : Revision α Unit := log .warn message

/-- Try an edit. A refusal is a result, and keeps what the edit has done. -/
def attempt (edit : Edit α β) : Revision α (Except GraphError β) := fun w =>
  match edit w.graph with
  | .ok value g => .ok (.ok value) { w with graph := g }
  | .error (.refusal cause) g => .ok (.error cause) { w with graph := g }
  | .error (.fault cause) g => .error cause { w with graph := g }

/-- Take a node out if nothing reads it, and what it alone kept in use. Gives the number of nodes
taken out. -/
def removeUnused (node : NodeId) : Revision α Nat := do
  let (g, removed) := (← graph).removeUnused node
  setGraph g
  return removed

def lineOf [Scalar α] (node : NodeId) : Revision α String :=
  return (← (← graph).line node).plain

end Revision

end TensorGraph
