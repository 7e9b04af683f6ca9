/-!
# Listings

How a list of already written items appears in text: separated by a comma and a blank, and
enclosed in brackets or in braces. Every list that the library writes goes through here.
-/

namespace TensorGraph.Text

/-- Items separated by a comma and a blank. -/
def commaSeparated (items : List String) : String :=
  ", ".intercalate items

/-- A list in square brackets. The empty list is an empty pair. -/
def inBrackets (items : List String) : String :=
  "[" ++ commaSeparated items ++ "]"

def inBraces (items : List String) : String :=
  "\x7b" ++ commaSeparated items ++ "\x7d"

def natList (values : List Nat) : String :=
  inBrackets (values.map toString)

def intList (values : List Int) : String :=
  inBrackets (values.map toString)

end TensorGraph.Text
