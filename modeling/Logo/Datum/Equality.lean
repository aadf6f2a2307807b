import Logo.Datum

/-!
# Equality and order of data
-/

namespace Logo.Datum

mutual

/-- Equality as programs see it: lists item by item, calls by name and inputs, procedures by
name. -/
def equal : Datum → Datum → Bool
  | .atom left, .atom right => left.equal right
  | .list left _ _, .list right _ _ => equalAll left right
  | .call ⟨left, leftInputs, _⟩, .call ⟨right, rightInputs, _⟩ =>
    Text.sameLetters left right && equalAll leftInputs rightInputs
  | .procedure left, .procedure right => Text.sameLetters left.name right.name
  | _, _ => false

def equalAll : List Datum → List Datum → Bool
  | [], [] => true
  | left :: lefts, right :: rights => equal left right && equalAll lefts rights
  | _, _ => false

end

/-- Numbers and words are ordered; nothing else is. -/
def compare? : Datum → Datum → Option Ordering
  | .atom left, .atom right => left.compare? right
  | _, _ => Option.none

end Logo.Datum
