import Logo.Number.Shortest

/-!
# Numbers

A number is a 64-bit signed integer or a 64-bit float. This module holds their widening, their
reading from digits and the two ways in which a float is written.
-/

namespace Logo

inductive Number where
  | integer (value : Int64)
  | float (value : Float)

/-- The float nearest to an integer, the one with an even significand if two are equally near. -/
def widen (value : Int64) : Float :=
  .ofModel (.ofInt64 value)

def Number.toFloat : Number → Float
  | .integer value => widen value
  | .float value => value

/-- The integer itself, if 64 signed bits hold it. -/
def int64? (n : Int) : Option Int64 :=
  if Int64.minValue.toInt ≤ n ∧ n ≤ Int64.maxValue.toInt then some (Int64.ofInt n) else none

/-- The nearest integer that 64 signed bits hold. -/
def clampInt64 (n : Int) : Int64 :=
  if n < Int64.minValue.toInt then Int64.minValue
  else if Int64.maxValue.toInt < n then Int64.maxValue
  else Int64.ofInt n

def digitsValue (digits : List Char) : Nat :=
  digits.foldl (fun value digit => 10 * value + (digit.toNat - '0'.toNat)) 0

def readInteger (negative : Bool) (digits : List Char) : Option Int64 :=
  int64? (signed negative (digitsValue digits))

/-- The float nearest to the decimal with these digits on either side of the point. -/
def readFloat (negative : Bool) (whole fraction : List Char) : Float :=
  let magnitude := Float.ofScientific (digitsValue (whole ++ fraction)) true fraction.length
  if negative then -magnitude else magnitude

/-- Reads a word as a number: an optional minus sign, digits, and perhaps one point with any number
of digits after it. -/
def Number.ofWord? (text : String) : Option Number :=
  let (negative, digits) := match text.toList with
    | '-' :: digits => (true, digits)
    | digits => (false, digits)
  let whole := digits.takeWhile Char.isDigit
  match whole, digits.dropWhile Char.isDigit with
  | [], _ => none
  | _, [] => (readInteger negative whole).map .integer
  | _, '.' :: fraction =>
    if fraction.all Char.isDigit then some (.float (readFloat negative whole fraction)) else none
  | _, _ => none

/-- A float in the fewest digits that read back, without a point if it has no fraction. -/
def plainFloat (value : Float) : String :=
  match Binary.ofFloat value with
  | .nan => "NaN"
  | .infinite negative => if negative then "-inf" else "inf"
  | .finite negative significand exponent =>
    (if negative then "-" else "") ++
      (if significand = 0 then "0" else (shortest significand exponent).positional)

/-- A float as programs print it: whole values below `10 ^ 15` keep one zero behind the point. -/
def printedFloat (value : Float) : String :=
  let binary := Binary.ofFloat value
  match binary with
  | .finite negative significand exponent =>
    let whole := truncatedMagnitude significand exponent
    if binary.isIntegral ∧ whole < Nat.pow 10 15 then
      (if negative then "-" else "") ++ toString whole ++ ".0"
    else plainFloat value
  | _ => plainFloat value

/-- The order of two numbers. Two integers compare exactly, all other pairs as floats, and a float
that is no number has no order. -/
def Number.compare? : Number → Number → Option Ordering
  | .integer left, .integer right => some (compare left right)
  | left, right =>
    let a := left.toFloat
    let b := right.toFloat
    if a < b then some .lt
    else if a == b then some .eq
    else if b < a then some .gt
    else none

/-- Equality of floats in which a value that is no number equals itself. -/
def equalFloats (left right : Float) : Bool :=
  left == right || (left.isNaN && right.isNaN)

/-- Equality of numbers, an integer being widened to meet a float. -/
def Number.equal : Number → Number → Bool
  | .integer left, .integer right => left == right
  | .float left, .float right => equalFloats left right
  | .integer left, .float right => widen left == right
  | .float left, .integer right => widen right == left

end Logo
