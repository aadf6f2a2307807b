/-!
# Ranges of characters

Character properties are tables of closed intervals of code points.
-/

namespace Logo.Text

/-- Closed intervals of code points. -/
abbrev Ranges := List (Nat × Nat)

/-- Intervals in increasing order from `start` on. The numbers say by turns how many code points are
left out and how many the next interval has. -/
def Ranges.ofRuns (start : Nat) : List Nat → Ranges
  | skipped :: held :: rest =>
    (start + skipped, start + skipped + held - 1) :: ofRuns (start + skipped + held) rest
  | _ => []

/-- Whether some interval holds the character's code point. -/
def Ranges.contains (ranges : Ranges) (c : Char) : Bool :=
  ranges.any fun (first, last) => first ≤ c.toNat && c.toNat ≤ last

end Logo.Text
