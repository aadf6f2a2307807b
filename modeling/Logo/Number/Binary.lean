/-!
# The exact value of a float

A finite 64-bit float is an integer times a power of two. Truncation and rounding are decided on
that value, without further rounding.
-/

namespace Logo

/-- What a 64-bit float stands for. -/
inductive Binary where
  | nan
  | infinite (negative : Bool)
  /-- The number `significand * 2 ^ exponent`, or its opposite. -/
  | finite (negative : Bool) (significand : Nat) (exponent : Int)

/-- Reads the sign, the eleven exponent bits and the 52 fraction bits of a bit pattern. -/
def Binary.ofBits (bits : Nat) : Binary :=
  let negative : Bool := bits / Nat.pow 2 63 % 2 = 1
  let biased : Nat := bits / Nat.pow 2 52 % Nat.pow 2 11
  let fraction : Nat := bits % Nat.pow 2 52
  if biased = 2047 then
    if fraction = 0 then .infinite negative else .nan
  else if biased = 0 then .finite negative fraction (-1074)
  else .finite negative (Nat.pow 2 52 + fraction) ((biased : Int) - 1075)

def Binary.ofFloat (value : Float) : Binary :=
  .ofBits value.toBits.toNat

/-- An integer with the given sign. -/
def signed (negative : Bool) (magnitude : Nat) : Int :=
  if negative then -(magnitude : Int) else magnitude

/-- The integer part of `significand * 2 ^ exponent`. -/
def truncatedMagnitude (significand : Nat) (exponent : Int) : Nat :=
  significand * Nat.pow 2 exponent.toNat / Nat.pow 2 (-exponent).toNat

/-- The integer nearest to `significand * 2 ^ exponent`, the greater of two that are equally
near. -/
def roundedMagnitude (significand : Nat) (exponent : Int) : Nat :=
  let scale := Nat.pow 2 (-exponent).toNat
  (2 * (significand * Nat.pow 2 exponent.toNat) + scale) / (2 * scale)

/-- The value without its fraction. -/
def Binary.truncate? : Binary → Option Int
  | .finite negative significand exponent =>
    some (signed negative (truncatedMagnitude significand exponent))
  | _ => none

/-- The nearest integer, and of two equally near ones the one further from zero. -/
def Binary.round? : Binary → Option Int
  | .finite negative significand exponent =>
    some (signed negative (roundedMagnitude significand exponent))
  | _ => none

/-- Whether the value is finite and has no fraction. -/
def Binary.isIntegral : Binary → Bool
  | .finite _ significand exponent => significand % Nat.pow 2 (-exponent).toNat = 0
  | _ => false

end Logo
