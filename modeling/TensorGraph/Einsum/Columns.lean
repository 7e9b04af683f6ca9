import TensorGraph.Einsum.Equation
import TensorGraph.Graph.Error

/-!
# Columns

An equation is checked against the shapes of its operands and every axis is assigned a column:
letters take the first columns in ascending order, the axes of the ellipsis follow.
-/

namespace TensorGraph.Einsum

inductive EinsumError
  | missingEquation
  | malformed (flaw : SyntaxFlaw)
  | emptyOutput
  | repeatedOutputLabel (label : Char)
  | unknownOutputLabel (label : Char)
  | missingOutputEllipsis
  | unexpectedOutputEllipsis
  | termCount (terms inputs : Nat)
  | rankMismatch (term labels rank : Nat)
  | ellipsisMismatch (expected got : Nat)
  | lengthMismatch (label : String) (expected got : Nat)
  | dynamicInput (input : Nat)
  | multipleDuplicateLabels (term : Nat) (repeated : String)
  | graph (cause : GraphError)
deriving DecidableEq

def EinsumError.message : EinsumError → String
  | .missingEquation => "einsum node has no `equation` attribute"
  | .malformed flaw => flaw.message
  | .emptyOutput => "explicit output term is empty"
  | .repeatedOutputLabel label => s!"label `{label}` appears twice in the output"
  | .unknownOutputLabel label => s!"output label `{label}` doesn't appear in any input"
  | .missingOutputEllipsis => "inputs use an ellipsis but the output doesn't"
  | .unexpectedOutputEllipsis => "the output uses an ellipsis but no input does"
  | .termCount terms inputs =>
    s!"equation has {terms} input terms but there are {inputs} inputs"
  | .rankMismatch term labels rank =>
    s!"term {term} has {labels} labels but its input has rank {rank}"
  | .ellipsisMismatch expected got =>
    s!"ellipsis covers {expected} axes in one term and {got} in another"
  | .lengthMismatch label expected got =>
    s!"label `{label}` has length {expected} in one place and {got} in another"
  | .dynamicInput input => s!"input {input} has a dynamic shape"
  | .multipleDuplicateLabels term repeated =>
    s!"term {term} repeats more than one label ({repeated})"
  | .graph cause => cause.message

abbrev Check := Except EinsumError

/-- Columns of the axes of every operand and of the output. -/
structure Columns where
  count : Nat
  inputs : List (List Nat)
  output : List Nat
deriving DecidableEq, Repr

/-- The first item that comes a second time. -/
def firstRepeat? {β : Type} [BEq β] : (seen : List β) → List β → Option β
  | _, [] => none
  | seen, item :: rest => if seen.contains item then some item else firstRepeat? (item :: seen) rest

/-- The letters that a term has more than once, in ascending order. -/
def repeatedLetters (term : Term) : List Char :=
  sorted (fun a b => decide (a ≤ b))
    (term.letters.eraseDups.filter fun c => 1 < term.letters.count c)

/-- Check one operand. Gives the number of axes under the ellipsis as far as it is known. -/
def checkTerm (ellipsisRank : Option Nat) (position : Nat) (term : Term) (rank : Nat) :
    Check (Option Nat) := do
  let labels := term.letters.length
  if rank < labels || (!term.hasEllipsis && rank != labels) then
    .error (.rankMismatch position labels rank)
  else
    let covered := rank - labels
    let known ←
      if !term.hasEllipsis then pure ellipsisRank
      else
        match ellipsisRank with
        | some expected =>
          if expected ≠ covered then .error (.ellipsisMismatch expected covered)
          else pure (some covered)
        | none => pure (some covered)
    let repeated := repeatedLetters term
    if 1 < repeated.length then
      .error (.multipleDuplicateLabels position (String.ofList repeated))
    else return known

/-- Check a given output against the operands. -/
def checkOutput (equation : Equation) (ellipsis : Bool) (output : Term) : Check Unit :=
  if output.isEmpty then .error .emptyOutput
  else
    match firstRepeat? [] output.letters with
    | some c => .error (.repeatedOutputLabel c)
    | none =>
      match output.letters.find? fun c => !equation.letters.contains c with
      | some c => .error (.unknownOutputLabel c)
      | none =>
        if ellipsis && !output.hasEllipsis then .error .missingOutputEllipsis
        else if !ellipsis && output.hasEllipsis then .error .unexpectedOutputEllipsis
        else .ok ()

def expandTerm (letters : List Char) (ellipsisRank : Nat) (term : Term) : List Nat :=
  term.flatMap fun
    | .letter c => [letters.findIdx (· == c)]
    | .ellipsis => List.range' letters.length ellipsisRank

def columnName (letters : List Char) (column : Nat) : String :=
  match letters[column]? with
  | some c => String.singleton c
  | none => s!"...[{column - letters.length}]"

/-- Lengths of columns as far as they are known: in the operand at hand, and in all so far. -/
structure KnownLens where
  own : List (Option Nat)
  joint : List (Option Nat)

/-- The joint length of a column after one more axis: a length of one gives way. -/
def joinColumn (known : Option Nat) (len : Nat) : Option Nat :=
  match known with
  | none => some len
  | some previous =>
    if previous = len ∨ len = 1 then some previous
    else if previous = 1 then some len
    else none

def checkAxis (letters : List Char) (known : KnownLens) (column len : Nat) :
    Check KnownLens := do
  match (known.own[column]?).join with
  | some previous =>
    if previous ≠ len then
      .error (.lengthMismatch (columnName letters column) previous len)
  | none => pure ()
  let joint := (known.joint[column]?).join
  match joinColumn joint len with
  | some joined =>
    return ⟨known.own.set column (some len), known.joint.set column (some joined)⟩
  | none => .error (.lengthMismatch (columnName letters column) (joint.getD 0) len)

def checkOperand (letters : List Char) (count : Nat) (joint : List (Option Nat))
    (columns lens : List Nat) : Check (List (Option Nat)) := do
  let known ← (columns.zip lens).foldlM
    (fun known (column, len) => checkAxis letters known column len)
    ⟨List.replicate count none, joint⟩
  return known.joint

namespace Equation

/-- Check an equation against the shapes of its operands and assign columns. -/
def resolve (equation : Equation) (shapes : List Shape) : Check Columns := do
  if equation.inputs.length ≠ shapes.length then
    .error (.termCount equation.inputs.length shapes.length)
  match shapes.findIdx? fun s => s.isDynamic || s.isTuple with
  | some input => .error (.dynamicInput input)
  | none => pure ()
  let ellipsisRank ← (equation.inputs.zip shapes).zipIdx.foldlM
    (fun known ((term, shape), position) => checkTerm known position term shape.rank) none
  let output := equation.outputTerm
  if equation.output.isSome then checkOutput equation ellipsisRank.isSome output
  let letters := equation.sortedLetters
  let covered := ellipsisRank.getD 0
  let columns : Columns := {
    count := letters.length + covered
    inputs := equation.inputs.map (expandTerm letters covered)
    output := expandTerm letters covered output }
  let _ ← (columns.inputs.zip shapes).foldlM
    (fun joint (cols, shape) => checkOperand letters columns.count joint cols shape.lens)
    (List.replicate columns.count none)
  return columns

end Equation

end TensorGraph.Einsum
