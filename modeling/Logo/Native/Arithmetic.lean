import Logo.Error

/-!
# Arithmetic

Two integers give an integer or an error, never a rounded result. A float among the operands makes
the other one a float too.
-/

namespace Logo.Arithmetic

/-- An exact integer result, if 64 signed bits hold it. -/
def exact (operation : String) (left right : Int64) (result : Int) : Except RuntimeError Number :=
  match int64? result with
  | some value => .ok (.integer value)
  | none => .error (.overflow operation left right)

def add : Number → Number → Except RuntimeError Number
  | .integer a, .integer b => exact "add" a b (a.toInt + b.toInt)
  | a, b => .ok (.float (a.toFloat + b.toFloat))

def subtract : Number → Number → Except RuntimeError Number
  | .integer a, .integer b => exact "sub" a b (a.toInt - b.toInt)
  | a, b => .ok (.float (a.toFloat - b.toFloat))

def multiply : Number → Number → Except RuntimeError Number
  | .integer a, .integer b => exact "mul" a b (a.toInt * b.toInt)
  | a, b => .ok (.float (a.toFloat * b.toFloat))

/-- The quotient of two integers is truncated toward zero. -/
def divide : Number → Number → Except RuntimeError Number
  | .integer a, .integer b =>
    if b = 0 then .error .divisionByZero else exact "div" a b (a.toInt.tdiv b.toInt)
  | a, b => .ok (.float (a.toFloat / b.toFloat))

/-- The remainder has the sign of the dividend. It exists only where the quotient does. -/
def modulo (a b : Int64) : Except RuntimeError Number :=
  if b = 0 then .error .divisionByZero
  else match int64? (a.toInt.tdiv b.toInt) with
    | some _ => exact "mod" a b (a.toInt.tmod b.toInt)
    | none => .error (.overflow "mod" a b)

/-- Whether a whole number lies between the floats nearest to the least and to the greatest integer.
Floats compare as the numbers for which they stand do. -/
def fitsAmongFloats (whole : Int) : Bool :=
  match (Binary.ofFloat (widen Int64.minValue)).truncate?,
      (Binary.ofFloat (widen Int64.maxValue)).truncate? with
  | some least, some greatest => least ≤ whole && whole ≤ greatest
  | _, _ => false

/-- The integer for the whole value of a float. The range is tested among floats; a value that only
its upper bound lets through is brought down to the greatest integer. -/
def toInteger (value : Float) (whole? : Option Int) : Except RuntimeError Number :=
  match whole? with
  | some whole =>
    if fitsAmongFloats whole then .ok (.integer (clampInt64 whole))
    else .error (.integerRange value)
  | none => .error (.integerRange value)

/-- Drops the fraction. -/
def integer : Number → Except RuntimeError Number
  | .integer n => .ok (.integer n)
  | .float value => toInteger value (Binary.ofFloat value).truncate?

/-- The nearest integer, halves going away from zero. -/
def round : Number → Except RuntimeError Number
  | .integer n => .ok (.integer n)
  | .float value => toInteger value (Binary.ofFloat value).round?

end Logo.Arithmetic
