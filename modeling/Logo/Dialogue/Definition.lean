import Logo.Text.Casing
import Logo.Text.Lines

/-!
# Definitions typed line by line

The lines of a definition are kept until the one that begins with `end`, so that the whole is read
at once.
-/

namespace Logo

/-- The lines of a definition that has begun. -/
structure PartialDefinition where
  lines : List String

namespace PartialDefinition

def none : PartialDefinition where
  lines := []

def isOpen (definition : PartialDefinition) : Bool :=
  !definition.lines.isEmpty

/-- Whether the first word of a line is the given one, in small or capital letters. -/
def startsWith (line word : String) : Bool :=
  match Text.fields line with
  | first :: _ => Text.sameLetters first word
  | [] => false

/-- Takes a line. The answer is the line itself outside a definition, or the definition that the
line closes. -/
def push (definition : PartialDefinition) (line : String) : Option String × PartialDefinition :=
  if !definition.isOpen && !startsWith line "to" then (some line, definition)
  else
    let lines := definition.lines ++ [line]
    if definition.isOpen && startsWith line "end" then (some ("\n".intercalate lines), none)
    else (Option.none, ⟨lines⟩)

/-- Gives up the definition. -/
def clear (_ : PartialDefinition) : PartialDefinition :=
  none

end PartialDefinition

end Logo
