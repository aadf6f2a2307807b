import Logo.Datum

/-!
# Texts of data

Data have a printed form, in which words lose their quote marks, and a source form, which reads
back. A list that still has the text it was read from shows that text as its source.
-/

namespace Logo.Datum

mutual

/-- The form that reads back: quoted words keep their mark and lists their brackets. -/
def source : Datum → String
  | .atom value => value.source
  | .list items text _ =>
    "[" ++ text.getD (" ".intercalate (sources items)) ++ "]"
  | .call ⟨name, inputs, _⟩ => "(" ++ " ".intercalate (name :: sources inputs) ++ ")"
  | .procedure definition => "to " ++ definition.header

def sources : List Datum → List String
  | [] => []
  | datum :: data => datum.source :: sources data

end

mutual

/-- The printed form, with the brackets of every list. -/
def display : Datum → String
  | .atom value => value.display
  | .list items _ _ => "[" ++ " ".intercalate (displays items) ++ "]"
  | .call site => source (.call site)
  | .procedure definition => "to " ++ definition.header

def displays : List Datum → List String
  | [] => []
  | datum :: data => datum.display :: displays data

end

/-- The printed form without the outermost brackets. -/
def printed : Datum → String
  | .list items _ _ => " ".intercalate (displays items)
  | datum => datum.display

/-- The text that a list gives to be read as code: the text it was read from, or else the sources
of its items. -/
def blockText (items : List Datum) (text : Option String) : String :=
  text.getD (" ".intercalate (sources items))

/-- The printed form of a word. -/
def wordText? (datum : Datum) : Option String :=
  if datum.isWord then some datum.display else Option.none

end Logo.Datum
