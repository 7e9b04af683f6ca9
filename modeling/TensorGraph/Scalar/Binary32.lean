import TensorGraph.Decimal.Shortest
import TensorGraph.Scalar.Basic
import TensorGraph.Word

/-!
# 32-bit floating point scalars

Arithmetic is rounded at every operation. Conversions from and to integers, and the written form,
are computed exactly from the sign, exponent and fraction fields.
-/

namespace TensorGraph.Binary32

/-- What a bit pattern stands for. A finite number is a significand times a power of two. -/
inductive Content
  | finite (negative : Bool) (significand : Nat) (exponent : Int)
  | infinite (negative : Bool)
  | notANumber
deriving DecidableEq, Repr

/-- The weight of the sign, the highest of the 32 bits. -/
def signBit : Nat := 0x80000000

/-- The weight of the exponent field's lowest bit, which is also that of the leading bit that
numbers with a nonzero exponent field do not store. -/
def hiddenBit : Nat := 0x800000

/-- Read the three fields. A zero exponent field marks the numbers without the leading bit. -/
def decode (bits : Nat) : Content :=
  let negative := decide (signBit ≤ bits)
  let field : Nat := bits / hiddenBit % 256
  let fraction : Nat := bits % hiddenBit
  if field = 255 then
    if fraction = 0 then .infinite negative else .notANumber
  else if field = 0 then .finite negative fraction (-149)
  else .finite negative (hiddenBit + fraction) ((field : Int) - 150)

def content (x : Float32) : Content := decode x.toBits.toNat

/-- Division rounded to the nearest integer, a half to the even one. -/
def roundDiv (n d : Nat) : Nat :=
  let below := n / d
  let twice := 2 * (n % d)
  if twice < d ∨ (twice = d ∧ below % 2 = 0) then below else below + 1

/-- The bit pattern of the nearest number to a natural number: shift the leading bit into place,
round what falls off, and let a carry out of the fraction raise the exponent field. -/
def bitsOfNat (n : Nat) : Nat :=
  if n = 0 then 0
  else
    let top := n.log2
    let rounded := if top ≤ 23 then n * Nat.pow 2 (23 - top) else roundDiv n (Nat.pow 2 (top - 23))
    min (0x7f800000) ((top + 126) * hiddenBit + rounded)

def ofNat (n : Nat) : Float32 := Float32.ofBits (bitsOfNat n).toUInt32

def ofInt (n : Int) : Float32 :=
  if n < 0 then Float32.ofBits (signBit + bitsOfNat n.natAbs).toUInt32 else ofNat n.natAbs

/-- The integer part of a significand times a power of two. -/
def integerPart (significand : Nat) : Int → Nat
  | .ofNat e => significand * Nat.pow 2 e
  | .negSucc e => significand / Nat.pow 2 (e + 1)

def saturate (n : Int) : Int :=
  max (-(Word.signedLimit : Int)) (min ((Word.signedLimit : Int) - 1) n)

/-- The integer part toward zero, held to the signed 64-bit range. What is not a number counts as
zero. -/
def truncate (x : Float32) : Int :=
  match content x with
  | .finite false m e => saturate (integerPart m e)
  | .finite true m e => saturate (-(integerPart m e : Int))
  | .infinite false => saturate Word.signedLimit
  | .infinite true => saturate (-(Word.signedLimit : Int))
  | .notANumber => 0

/-- The greater of two numbers. One that is not a number gives way. -/
def greater (a b : Float32) : Float32 :=
  if a.isNaN then b
  else if b.isNaN then a
  else if a < b then b
  else a

/-- The reals that round to a positive number, in quarters of its last place. Below a power of two
the neighbours are twice as dense. The ends round to the even significand. -/
def neighbourhood (significand : Nat) (exponent : Int) : Decimal.Neighbourhood :=
  let m := 4 * significand
  let gap := if significand = hiddenBit then 1 else 2
  let scale := Nat.pow 2 (exponent - 2).toNat
  { low := (m - gap) * scale
    value := m * scale
    high := (m + 2) * scale
    den := Nat.pow 2 (2 - exponent).toNat
    closed := significand % 2 == 0 }

/-- Numbers are written positionally from one ten-thousandth up to sixteen digits before the
point. -/
def format : Decimal.Format := ⟨16, -3⟩

def magnitudeText (significand : Nat) (exponent : Int) : String :=
  if significand = 0 then "0.0"
  else (Decimal.shortest (neighbourhood significand exponent)).render format

/-- A sign in front of negative numbers, zero included. -/
def signed (negative : Bool) (magnitude : String) : String :=
  if negative then "-" ++ magnitude else magnitude

/-- The fewest digits that read back as the same number. -/
def text (x : Float32) : String :=
  match content x with
  | .finite negative m e => signed negative (magnitudeText m e)
  | .infinite negative => signed negative "inf"
  | .notANumber => "NaN"

def unary : UnaryFn → Float32 → Float32
  | .neg, x => -x
  | .exp, x => x.exp
  | .relu, x => greater x 0
  | .sqrt, x => x.sqrt
  | .recip, x => 1 / x

def binary : BinaryFn → Float32 → Float32 → Float32
  | .add, a, b => a + b
  | .sub, a, b => a - b
  | .mul, a, b => a * b
  | .div, a, b => a / b
  | .max, a, b => greater a b

/-- Sums start from negative zero, the neutral element of rounded addition. -/
instance : Scalar Float32 where
  zero := 0
  emptySum := -0
  unary := unary
  binary := binary
  ofNat := ofNat
  truncate := truncate
  isNegative x := decide (x < 0)
  same a b := a == b
  text := text

end TensorGraph.Binary32
