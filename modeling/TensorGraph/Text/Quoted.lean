import TensorGraph.Text.Printable

/-!
# Quoted text

The enclosing quote and the backslash are escaped, the common controls have a letter, and every
other character that is not printable is written by its code point.
-/

namespace TensorGraph.Text

/-- A code point in braces, in the fewest hexadecimal digits. -/
def codePoint (c : Char) : String :=
  "\\u\x7b" ++ String.ofList (Nat.toDigits 16 c.toNat) ++ "\x7d"

/-- How a character appears between these quotes. -/
def escapeChar (quote c : Char) : String :=
  if c = quote then String.ofList ['\\', c]
  else if c = '\\' then "\\\\"
  else if c = '\x00' then "\\0"
  else if c = '\t' then "\\t"
  else if c = '\r' then "\\r"
  else if c = '\n' then "\\n"
  else if isPrintable c then String.singleton c
  else codePoint c

def quoted (s : String) : String :=
  "\"" ++ String.join (s.toList.map (escapeChar '"')) ++ "\""

def quotedChar (c : Char) : String :=
  "'" ++ escapeChar '\'' c ++ "'"

end TensorGraph.Text
