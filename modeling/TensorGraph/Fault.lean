import TensorGraph.Shape.Basic

/-!
# Faults and refusals

A computation refuses an input for a cause that the library describes, or it meets a fault:
arithmetic past 64 bits, an access outside a buffer or a graph, a construction whose parts do not
belong together.
-/

namespace TensorGraph

/-- Why a computation could not be carried through at all. -/
inductive Fault
  | overflow
  | outOfBounds
  /-- A buffer would be larger than memory can address. -/
  | tooLarge
  | missingNode
  | rankMismatch
  /-- A value is held to a range whose lower end lies above its upper end. -/
  | emptyRange
  /-- Following the graph does not come to an end. -/
  | endless
  /-- A list of axes does not name each axis of this rank once. -/
  | notPermutation (axes : List Nat) (rank : Nat)
  /-- Values can only be laid out in a strided shape. -/
  | needsStrided (shape : Shape)
  /-- A buffer does not reach the last position of its layout. -/
  | shortBuffer (size : Nat) (shape : Shape)
deriving DecidableEq

def notPermutationText (axes : List Nat) (rank : Nat) : String :=
  s!"{Text.natList axes} is not a permutation of rank {rank}"

def Fault.message? : Fault → Option String
  | .notPermutation axes rank => some (notPermutationText axes rank)
  | .needsStrided shape => some s!"Tensors need a static shape, got {shape.text}"
  | .shortBuffer size shape => some s!"Buffer of {size} elements can't back {shape.text}"
  | _ => none

/-- A computation that gives a value or meets a fault. -/
abbrev Checked := Except Fault

/-- Why a computation stopped: a fault, or a refusal for a described cause. -/
inductive Stop (ε : Type)
  | fault (cause : Fault)
  | refusal (cause : ε)
deriving DecidableEq

/-- A computation that gives a value, refuses its input or meets a fault. -/
abbrev Outcome (ε : Type) := Except (Stop ε)

namespace Outcome

variable {ε δ α : Type}

def refuse (cause : ε) : Outcome ε α := .error (.refusal cause)

def fault (cause : Fault) : Outcome ε α := .error (.fault cause)

/-- A checked computation can serve where refusals are possible. -/
def ofChecked : Checked α → Outcome ε α
  | .ok value => .ok value
  | .error cause => .error (.fault cause)

/-- A result whose errors are refusals of a wider kind. -/
def ofExcept (wrap : ε → δ) : Except ε α → Outcome δ α
  | .ok value => .ok value
  | .error cause => .error (.refusal (wrap cause))

/-- Report every refusal under a wider kind of cause. -/
def widen (wrap : ε → δ) : Outcome ε α → Outcome δ α
  | .ok value => .ok value
  | .error (.fault cause) => .error (.fault cause)
  | .error (.refusal cause) => .error (.refusal (wrap cause))

/-- Bring the refusal, if there is one, into the value. -/
def attempt : Outcome ε α → Checked (Except ε α)
  | .ok value => .ok (.ok value)
  | .error (.fault cause) => .error cause
  | .error (.refusal cause) => .ok (.error cause)

end Outcome

instance {ε : Type} : MonadLift Checked (Outcome ε) := ⟨Outcome.ofChecked⟩

/-- The element at a position that ought to be there. -/
def fetch {α : Type} (items : List α) (position : Nat) : Checked α :=
  match items[position]? with
  | some item => .ok item
  | none => .error .outOfBounds

end TensorGraph
