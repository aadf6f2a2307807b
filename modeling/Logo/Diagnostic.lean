import Logo.Text.Lines

/-!
# Reports of errors

An error is reported in one line, or with the lines of the source around its place, a mark on its
line and a caret under its column.
-/

namespace Logo

/-- An error as it is reported. Errors of running programs have no place: what runs may have been
read from text that the program has put together. -/
inductive Diagnostic where
  | lexical (message : String) (line column : Nat)
  | parse (message : String) (line column : Nat)
  | runtime (message : String)

namespace Diagnostic

def message : Diagnostic → String
  | .lexical message _ _ | .parse message _ _ | .runtime message => message

/-- The line and column of the fault. -/
def place? : Diagnostic → Option (Nat × Nat)
  | .lexical _ line column | .parse _ line column => some (line, column)
  | .runtime _ => none

/-- The report in one line. -/
def summary : Diagnostic → String
  | .lexical message line column => located "Lexical error" message line column
  | .parse message line column => located "Parse error" message line column
  | .runtime message => "Runtime error: " ++ message
where
  located (heading message : String) (line column : Nat) : String :=
    heading ++ " at line " ++ toString line ++ ", column " ++ toString column ++ ": " ++ message

/-- A line number, right-aligned in four places. -/
def lineNumber (number : Nat) : String :=
  let digits := toString number
  "".pushn ' ' (4 - digits.length) ++ digits

/-- One line of the source, and below the faulty one the caret. -/
def excerptLine (line column number : Nat) (content : String) : String :=
  if number = line then
    " → " ++ lineNumber number ++ " | " ++ content ++ "\n" ++
      (if 0 < column then "        | " ++ "".pushn ' ' (column - 1) ++ "^\n" else "")
  else
    "   " ++ lineNumber number ++ " | " ++ content ++ "\n"

/-- The lines of the source with their numbers, from two before a line to two behind it. -/
def window (line : Nat) (source : String) : List (Nat × String) :=
  let numbered := (Text.lines source).zipIdx.map fun (content, index) => (index + 1, content)
  let index := line - 1
  (numbered.take (index + 3)).drop (index - 2)

/-- The fault's line among its neighbours. A line number of zero marks the first line. -/
def excerpt (line column : Nat) (source : String) : String :=
  String.join ((window line source).map fun (number, content) =>
    excerptLine (line - 1 + 1) column number content)

def detailedAt (heading message : String) (line column : Nat) (source : String) : String :=
  "\n" ++ heading ++ " at line " ++ toString line ++
    (if 0 < column then ", column " ++ toString column else "") ++ ": " ++ message ++ "\n\n" ++
    excerpt line column source

/-- The report with the lines of the source around the fault. -/
def detailed (diagnostic : Diagnostic) (source : String) : String :=
  match diagnostic with
  | .lexical message line column => detailedAt "Lexical error" message line column source
  | .parse message line column => detailedAt "Parse error" message line column source
  | .runtime _ => "\n" ++ diagnostic.summary ++ "\n"

end Diagnostic

end Logo
