import TensorGraph.Text.Blank
import TensorGraph.Word

/-!
# Settings

Passes are steered by three settings that arrive as text. A flag is set by any integer other than
zero, with blanks around it allowed; a number of workers is a positive number without blanks.
-/

namespace TensorGraph

namespace Text

/-- The number that decimal digits denote. There is none for other characters, or no digit. -/
def digits? (cs : List Char) : Option Nat :=
  if cs.isEmpty || !cs.all Char.isDigit then none
  else some (cs.foldl (fun value c => value * 10 + (c.toNat - '0'.toNat)) 0)

/-- An unsigned 64-bit number, with an optional plus sign. -/
def unsigned? (cs : List Char) : Option Nat := do
  let value ← match cs with
    | '+' :: rest => digits? rest
    | _ => digits? cs
  if value < Word.limit then some value else none

/-- A signed 64-bit number, with an optional sign. -/
def signed? (cs : List Char) : Option Int := do
  let value ← match cs with
    | '-' :: rest => (digits? rest).map fun n => -(n : Int)
    | '+' :: rest => (digits? rest).map Int.ofNat
    | _ => (digits? cs).map Int.ofNat
  if Word.isSigned value then some value else none

end Text

structure Settings where
  /-- Whether every decision about contiguous nodes is logged. -/
  trace : Bool
  /-- How many workers fold constants. -/
  workers : Nat
  /-- Whether whole runs are timed. -/
  timed : Bool

namespace Settings

/-- A flag is set by an integer other than zero. -/
def flag (value? : Option String) : Bool :=
  match value?.bind fun value => Text.signed? (Text.trimBlanks value.toList) with
  | some number => number != 0
  | none => false

/-- The number of workers, or the number of processors when no positive number is given. -/
def workerCount (processors : Nat) (value? : Option String) : Nat :=
  match value?.bind fun value => Text.unsigned? value.toList with
  | some (n + 1) => n + 1
  | _ => processors

end Settings

end TensorGraph
