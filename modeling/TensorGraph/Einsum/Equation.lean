import TensorGraph.Sorting
import TensorGraph.Text.Blank
import TensorGraph.Text.Quoted

/-!
# Einsum equations

An equation lists one term per operand, separated by commas, and may name the output after an arrow.
Without an arrow the output is implied: the ellipsis, then every letter that occurs once.
-/

namespace TensorGraph.Einsum

/-- One axis name, or the axes that are not named. -/
inductive Label
  | letter (c : Char)
  | ellipsis
deriving DecidableEq, Repr

/-- The axes of one operand. -/
abbrev Term := List Label

/-- The terms of the operands, and of the output if it is given. -/
structure Equation where
  inputs : List Term
  output : Option Term
deriving DecidableEq, Repr

/-- Why a text is not an equation. Positions count bytes. -/
inductive SyntaxFlaw
  | invalidCharacter (c : Char) (position : Nat)
  | malformedArrow (position : Nat)
  | incompleteEllipsis (position : Nat)
  | multipleEllipses (position : Nat)
deriving DecidableEq, Repr

def SyntaxFlaw.message : SyntaxFlaw → String
  | .invalidCharacter c position =>
    s!"invalid character {Text.quotedChar c} at position {position}"
  | .malformedArrow position => s!"malformed `->` at position {position}"
  | .incompleteEllipsis position => s!"incomplete ellipsis at position {position}"
  | .multipleEllipses position => s!"second ellipsis in one term at position {position}"

def Label.text : Label → String
  | .letter c => String.singleton c
  | .ellipsis => "..."

def Term.letters (term : Term) : List Char :=
  term.filterMap fun
    | .letter c => some c
    | .ellipsis => none

def Term.hasEllipsis (term : Term) : Bool := term.contains .ellipsis

structure Located where
  /-- Number of bytes before the character. -/
  position : Nat
  char : Char

/-- Characters with their positions, from this position on. -/
def locate : (position : Nat) → List Char → List Located
  | _, [] => []
  | position, c :: rest => ⟨position, c⟩ :: locate (position + c.utf8Size) rest

/-- How far an equation has been read. -/
structure Progress where
  inputs : List Term
  term : Term
  inOutput : Bool
  /-- The blank that closed the current term. -/
  closedBy : Option Located

namespace Progress

def start : Progress := ⟨[], [], false, none⟩

/-- A blank closes a term that has labels. -/
def blank (p : Progress) (found : Located) : Progress :=
  if p.term.isEmpty || p.closedBy.isSome then p else { p with closedBy := some found }

/-- The current term is the next operand. -/
def finishTerm (p : Progress) (inOutput : Bool) : Progress :=
  ⟨p.inputs ++ [p.term], [], inOutput, none⟩

def finish (p : Progress) : Equation :=
  if p.inOutput then ⟨p.inputs, some p.term⟩ else ⟨p.inputs ++ [p.term], none⟩

def label (p : Progress) (l : Label) : Progress := { p with term := p.term ++ [l] }

end Progress

/-- Whether a character names an axis. -/
def isLetter (c : Char) : Bool := c.isAlpha

def readFrom (p : Progress) : List Located → Except SyntaxFlaw Equation
  | [] => .ok p.finish
  | l :: rest =>
    if Text.isPlainBlank l.char then readFrom (p.blank l) rest
    else if l.char = ',' then
      if p.inOutput then .error (.invalidCharacter l.char l.position)
      else readFrom (p.finishTerm false) rest
    else if l.char = '-' then
      match rest with
      | ⟨_, '>'⟩ :: rest =>
        if p.inOutput then .error (.malformedArrow l.position)
        else readFrom (p.finishTerm true) rest
      | _ => .error (.malformedArrow l.position)
    else if l.char = '.' || isLetter l.char then
      match p.closedBy with
      | some blank => .error (.invalidCharacter blank.char blank.position)
      | none =>
        if isLetter l.char then readFrom (p.label (.letter l.char)) rest
        else
          match rest with
          | ⟨_, '.'⟩ :: ⟨_, '.'⟩ :: rest =>
            if p.term.hasEllipsis then .error (.multipleEllipses l.position)
            else readFrom (p.label .ellipsis) rest
          | _ => .error (.incompleteEllipsis l.position)
    else .error (.invalidCharacter l.char l.position)

namespace Equation

def parse (text : String) : Except SyntaxFlaw Equation :=
  readFrom .start (locate 0 text.toList)

def letters (equation : Equation) : List Char := equation.inputs.flatMap Term.letters

def hasEllipsis (equation : Equation) : Bool := equation.inputs.any Term.hasEllipsis

/-- The letters of the operands, each once, in ascending order. -/
def sortedLetters (equation : Equation) : List Char :=
  sorted (fun a b => decide (a ≤ b)) equation.letters.eraseDups

/-- The output as given, or the implied one. -/
def outputTerm (equation : Equation) : Term :=
  match equation.output with
  | some term => term
  | none =>
    let single := equation.sortedLetters.filter fun c => equation.letters.count c == 1
    (if equation.hasEllipsis then [.ellipsis] else []) ++ single.map .letter

end Equation

end TensorGraph.Einsum
