import Logo.Number

/-!
# The turtle

The turtle has a place and a heading, in degrees clockwise from north, and leaves a path.
-/

namespace Logo

structure Turtle where
  x : Float
  y : Float
  heading : Float
  /-- The points visited since the screen was cleared, the latest first. -/
  path : List (Float × Float)

/-- The remainder of a division by 360 that is not negative. The division is exact, so that only the
last addition can round. -/
def wrapDegrees (degrees : Float) : Float :=
  match Binary.ofFloat degrees with
  | .finite negative significand exponent =>
    let places := (-exponent).toNat
    let rest := significand * Nat.pow 2 exponent.toNat % (360 * Nat.pow 2 places)
    let magnitude := (Float.ofNat rest).scaleB (-(places : Int))
    let remainder := if negative then -magnitude else magnitude
    if remainder < 0 then remainder + 360 else remainder
  | _ => 0 / 0

/-- The nearest 64-bit integer, halves going away from zero. What is no number counts as zero. -/
def nearestInt64 (value : Float) : Int64 :=
  match Binary.ofFloat value with
  | .nan => 0
  | .infinite negative => if negative then Int64.minValue else Int64.maxValue
  | .finite negative significand exponent =>
    clampInt64 (signed negative (roundedMagnitude significand exponent))

namespace Turtle

def start : Turtle where
  x := 0
  y := 0
  heading := 0
  path := [(0, 0)]

def forward (turtle : Turtle) (distance : Float) : Turtle :=
  let radians := turtle.heading * (3.141592653589793 / 180)
  let x := turtle.x + distance * radians.sin
  let y := turtle.y + distance * radians.cos
  { turtle with x, y, path := (x, y) :: turtle.path }

/-- Turns clockwise. -/
def turn (turtle : Turtle) (degrees : Float) : Turtle :=
  { turtle with heading := wrapDegrees (turtle.heading + degrees) }

def home (turtle : Turtle) : Turtle where
  x := 0
  y := 0
  heading := 0
  path := (0, 0) :: turtle.path

/-- The place in whole steps. -/
def position (turtle : Turtle) : Int64 × Int64 :=
  (nearestInt64 turtle.x, nearestInt64 turtle.y)

end Turtle

end Logo
