import Logo.Number.Binary

/-!
# The fewest digits that read back

Of the decimals that round to a given float, the ones with the fewest digits are looked for on
coarser and then finer decimal grids, in exact arithmetic. The first grid with a point in the
float's rounding interval gives the digits.
-/

namespace Logo

/-- The number `digits * 10 ^ exponent`. -/
structure Decimal where
  digits : Nat
  exponent : Int

/-- The reals that round to one positive float, as multiples of `unit / denominator`. -/
structure RoundingInterval where
  value : Nat
  low : Nat
  high : Nat
  unit : Nat
  denominator : Nat
  /-- The ends belong to the interval. -/
  closed : Bool

/-- The interval reaches half way to the neighbouring floats. Below a power of two the neighbour is
only half as far away. Halves go to an even significand. -/
def RoundingInterval.of (significand : Nat) (exponent : Int) : RoundingInterval :=
  let narrow := significand = Nat.pow 2 52 ∧ exponent > -1074
  { value := 4 * significand
    low := if narrow then 4 * significand - 1 else 4 * significand - 2
    high := 4 * significand + 2
    unit := Nat.pow 2 (exponent - 2).toNat
    denominator := Nat.pow 2 (2 - exponent).toNat
    closed := significand % 2 = 0 }

/-- Whether `digits * 10 ^ exponent` lies in the interval. -/
def RoundingInterval.contains (interval : RoundingInterval) (decimal : Decimal) : Bool :=
  let point := decimal.digits * Nat.pow 10 decimal.exponent.toNat * interval.denominator
  let scale := interval.unit * Nat.pow 10 (-decimal.exponent).toNat
  if interval.closed then interval.low * scale ≤ point && point ≤ interval.high * scale
  else interval.low * scale < point && point < interval.high * scale

/-- The value on the grid of `10 ^ exponent`: its integer part there, and whether the remainder is
at least one half. -/
def RoundingInterval.gridPoint (interval : RoundingInterval) (exponent : Int) : Nat × Bool :=
  let numerator := interval.value * interval.unit * Nat.pow 10 (-exponent).toNat
  let denominator := interval.denominator * Nat.pow 10 exponent.toNat
  (numerator / denominator, denominator ≤ 2 * (numerator % denominator))

/-- The neighbour of the value on the grid of `10 ^ exponent` that lies in the interval, the nearer
one if both do. -/
def RoundingInterval.onGrid? (interval : RoundingInterval) (exponent : Int) : Option Decimal :=
  let (below, upperHalf) := interval.gridPoint exponent
  let floor : Decimal := ⟨below, exponent⟩
  let ceiling : Decimal := ⟨below + 1, exponent⟩
  let first := if upperHalf then ceiling else floor
  let second := if upperHalf then floor else ceiling
  if interval.contains first then some first
  else if interval.contains second then some second
  else none

/-- The number of decimal digits, none for zero. -/
def digitCount (n : Nat) : Nat :=
  if n = 0 then 0 else (Nat.toDigits 10 n).length

/-- The power of ten just above the value: `10 ^ (k - 1) ≤ value < 10 ^ k`. -/
def RoundingInterval.magnitude (interval : RoundingInterval) : Int :=
  let numerator := interval.value * interval.unit
  if interval.denominator ≤ numerator then (digitCount (numerator / interval.denominator) : Int)
  else 1 - (digitCount ((interval.denominator - 1) / numerator) : Int)

/-- The first hit on ever finer grids, `fuel` of them, the next one with `count` digits. -/
def RoundingInterval.search (interval : RoundingInterval) (count : Nat) : Nat → Decimal
  | 0 => (interval.onGrid? (interval.magnitude - count)).getD ⟨0, 0⟩
  | fuel + 1 =>
    match interval.onGrid? (interval.magnitude - count) with
    | some decimal => decimal
    | none => interval.search (count + 1) fuel

/-- The shortest decimal that reads back as `significand * 2 ^ exponent`. The first grid is so
coarse that only the power of ten above the value can be hit; seventeen digits are always enough. -/
def shortest (significand : Nat) (exponent : Int) : Decimal :=
  (RoundingInterval.of significand exponent).search 0 17

/-- Positional notation: zeros fill up to the unit, a point divides the fraction, and there is never
an exponent. -/
def Decimal.positional (decimal : Decimal) : String :=
  let digits := Nat.toDigits 10 decimal.digits
  if 0 ≤ decimal.exponent then
    String.ofList (digits ++ List.replicate decimal.exponent.toNat '0')
  else
    let places := (-decimal.exponent).toNat
    let padded := List.replicate (places + 1 - digits.length) '0' ++ digits
    let (whole, fraction) := padded.splitAt (padded.length - places)
    String.ofList (whole ++ '.' :: fraction)

end Logo
