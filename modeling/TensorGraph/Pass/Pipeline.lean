import TensorGraph.Pass.ConcatFusion
import TensorGraph.Pass.Contiguous
import TensorGraph.Pass.DeadCode
import TensorGraph.Pass.Reshapes

/-!
# Pipelines

Passes as values: the single passes, their sequences, a pass repeated until the text of the graph
stays the same, and a pass that logs its start. One interpreter runs them all.
-/

namespace TensorGraph

inductive Pass
  | nothing
  | simplifyReshapes
  | deadCode
  /-- Bypass or fold nodes with this operator name. -/
  | eliminate (target : String)
  | fuseConcat
  /-- Repeat until the text of the graph stays the same. -/
  | looped (body : Pass)
  | timed (body : Pass)
  | sequence (passes : List Pass)

inductive PassReport
  | nothing
  | count (value : Nat)
  | elimination (stats : Pass.EliminationStats)
  | sequence (reports : List PassReport)

namespace Pass

def eliminateDefault : Pass := .eliminate "contiguous"

/-- The pipeline for every platform: each structural pass is followed by dropping dead code. -/
def generic : Pass :=
  .sequence
    [.simplifyReshapes, .deadCode, eliminateDefault, .deadCode, .fuseConcat, .deadCode]

/-- A sequence in parentheses; a sequence of one keeps a comma. -/
def tupleText : List String → String
  | [single] => s!"({single},)"
  | items => s!"({Text.commaSeparated items})"

mutual

def text : Pass → String
  | .nothing => "()"
  | .simplifyReshapes => "SimplifyReshapes"
  | .deadCode => "DeadCodeElimination"
  | .eliminate target =>
    "EliminateContiguous \x7b op_name: " ++ Text.quoted target ++ " \x7d"
  | .fuseConcat => "FuseConcat"
  | .looped body => s!"Looped({text body})"
  | .timed body => s!"Timed({text body})"
  | .sequence passes => tupleText (texts passes)

def texts : List Pass → List String
  | [] => []
  | pass :: rest => text pass :: texts rest

end

variable {α : Type} [Scalar α]

/-- Repeat a revision until the text of the graph stays the same. The bound is on the number of
repetitions. -/
def repeatWithin (body : Revision α Unit) : (bound : Nat) → (printed : String) → Revision α Unit
  | 0, _ => (Except.error .endless : Checked Unit)
  | bound + 1, printed => do
    body
    let current ← (← Revision.graph).text
    if current = printed then return () else repeatWithin body bound current

/-- A bound on the repetitions. Each round that changes the graph moves an input upward, or fuses a
join, which gives the fused node new inputs; the last round takes out what is unused. -/
def repetitionBound (g : Graph α) : Nat := Nat.pow (g.size + g.edgeCount + 2) 4

mutual

def run (settings : Settings) : Pass → Revision α PassReport
  | .nothing => return .nothing
  | .simplifyReshapes => return .count (← shortenChains)
  | .deadCode => return .count (← dropDeadCode)
  | .eliminate target => return .elimination (← eliminateContiguous settings target)
  | .fuseConcat => return .count (← fuseConcats)
  | .looped body => do
    let g ← Revision.graph
    repeatWithin (do let _ ← run settings body) (repetitionBound g) (← g.text)
    return .nothing
  | .timed body => do
    Revision.info s!"Starting {body.text}"
    run settings body
  | .sequence passes => return .sequence (← runAll settings passes)

def runAll (settings : Settings) : List Pass → Revision α (List PassReport)
  | [] => return []
  | pass :: rest => do
    let report ← run settings pass
    return report :: (← runAll settings rest)

end

/-- Run a pass as a whole, with its start logged when runs are timed. -/
def compile (settings : Settings) (pass : Pass) : Revision α PassReport :=
  if settings.timed then run settings (.timed pass) else run settings pass

end Pass

end TensorGraph
