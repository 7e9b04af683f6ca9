/-!
# Shortest decimals

Among the decimals that lie in an interval around a positive value, the one with the fewest digits,
and of those the nearest to the value. For each number of digits only the two neighbours of the
value on the grid of that precision can qualify.
-/

namespace TensorGraph

/-- A decimal number: a coefficient times a power of ten. -/
structure Decimal where
  coefficient : Nat
  /-- The power of ten of the last digit. -/
  exponent : Int
deriving DecidableEq, Repr, Inhabited

namespace Decimal

/-- An interval around a value, all over the denominator `den`. -/
structure Neighbourhood where
  low : Nat
  /-- The value, which is positive. -/
  value : Nat
  high : Nat
  den : Nat
  closed : Bool

namespace Neighbourhood

def holds (n : Neighbourhood) (x : Nat) : Bool :=
  if n.closed then decide (n.low ≤ x) && decide (x ≤ n.high)
  else decide (n.low < x) && decide (x < n.high)

/-- The same interval in the unit `10 ^ exponent`. -/
def inUnit (n : Neighbourhood) : Int → Neighbourhood
  | .ofNat e => { n with den := n.den * Nat.pow 10 e }
  | .negSucc e =>
    let f := Nat.pow 10 (e + 1)
    { n with low := n.low * f, value := n.value * f, high := n.high * f }

/-- The decimal with this last place that qualifies, if there is one. Of two that qualify the nearer
one is taken, and of two equally near ones the greater. -/
def atPlace? (n : Neighbourhood) (exponent : Int) : Option Decimal :=
  let u := n.inUnit exponent
  let below := u.value / u.den
  let down := u.holds (below * u.den)
  let up := u.holds ((below + 1) * u.den)
  if up && (!down || decide ((2 * below + 1) * u.den ≤ 2 * u.value)) then
    some ⟨below + 1, exponent⟩
  else if down then some ⟨below, exponent⟩
  else none

/-- The place of the first digit that is not zero, counted from the point: the value lies between
`10 ^ (place - 1)` and `10 ^ place`. Values below one are searched through `fuel` places. -/
def leadingPlace (n : Neighbourhood) : (fuel : Nat) → Int
  | 0 => 0
  | fuel + 1 =>
    if n.den ≤ n.value then ((Nat.toDigits 10 (n.value / n.den)).length : Int)
    else leadingPlace { n with value := n.value * 10 } fuel - 1

/-- Try one digit more at each step. -/
def search (n : Neighbourhood) : (fuel : Nat) → (exponent : Int) → Decimal
  | 0, exponent => ⟨(n.inUnit exponent).value / (n.inUnit exponent).den, exponent⟩
  | fuel + 1, exponent => (n.atPlace? exponent).getD (search n fuel (exponent - 1))

end Neighbourhood

/-- Remove zeros at the end of the coefficient, at most `fuel` of them. -/
def strip (d : Decimal) : (fuel : Nat) → Decimal
  | 0 => d
  | fuel + 1 =>
    if d.coefficient ≠ 0 ∧ d.coefficient % 10 = 0 then
      strip ⟨d.coefficient / 10, d.exponent + 1⟩ fuel
    else d

/-- The decimal of fewest digits in the interval, and the nearest of those. -/
def shortest (n : Neighbourhood) : Decimal :=
  (n.search 20 (n.leadingPlace 400 - 1)).strip 20

/-- How decimals are laid out: from which power of ten on, and down to which, the point is written
in place. -/
structure Format where
  /-- The greatest place of a first digit that is written positionally. -/
  lastPlace : Int
  /-- The least place of a first digit that is written positionally. -/
  firstPlace : Int

/-- The point in its place, with at least one digit on each side. -/
def positional (digits : List Char) (place : Int) : String :=
  if place ≤ 0 then
    "0." ++ String.ofList (List.replicate (-place).toNat '0' ++ digits)
  else if (digits.length : Int) ≤ place then
    String.ofList (digits ++ List.replicate (place.toNat - digits.length) '0') ++ ".0"
  else
    String.ofList (digits.take place.toNat) ++ "." ++ String.ofList (digits.drop place.toNat)

/-- One digit before the point, and the power of ten after an `e`. -/
def scientific (digits : List Char) (place : Int) : String :=
  let rest := digits.drop 1
  let point := if rest.isEmpty then "" else "." ++ String.ofList rest
  String.ofList (digits.take 1) ++ point ++ s!"e{place - 1}"

/-- The text of a decimal that is not zero. -/
def render (format : Format) (d : Decimal) : String :=
  let digits := Nat.toDigits 10 d.coefficient
  let place := (digits.length : Int) + d.exponent
  if format.firstPlace ≤ place ∧ place ≤ format.lastPlace then positional digits place
  else scientific digits place

end Decimal

end TensorGraph
