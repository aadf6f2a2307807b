import Logo.Text.Blank

/-!
# Lines and fields of a text
-/

namespace Logo.Text

/-- The characters before each newline and those after the last one. -/
def splitLines : List Char → List (List Char)
  | [] => [[]]
  | c :: rest =>
    if c = '\n' then [] :: splitLines rest
    else match splitLines rest with
      | [] => [[c]]
      | line :: lines => (c :: line) :: lines

/-- A line without the carriage return that ends it. -/
def dropReturn (line : List Char) : List Char :=
  match line.reverse with
  | '\r' :: shorter => shorter.reverse
  | _ => line

/-- The lines that newlines close, each without the carriage return before its newline, and then
what follows the last newline, if anything does. -/
def closeLines : List (List Char) → List (List Char)
  | [] => []
  | [last] => if last.isEmpty then [] else [last]
  | line :: lines => dropReturn line :: closeLines lines

def lines (text : String) : List String :=
  (closeLines (splitLines text.toList)).map String.ofList

/-- A text without the white space at either end. -/
def trim (text : String) : String :=
  let front := text.toList.dropWhile isBlank
  String.ofList (front.reverse.dropWhile isBlank).reverse

/-- The runs of characters between white space, `field` being the open one, last character first. -/
def fieldsFrom (field : List Char) : List Char → List (List Char)
  | [] => if field.isEmpty then [] else [field.reverse]
  | c :: rest =>
    if isBlank c then
      if field.isEmpty then fieldsFrom [] rest else field.reverse :: fieldsFrom [] rest
    else fieldsFrom (c :: field) rest

def fields (text : String) : List String :=
  (fieldsFrom [] text.toList).map String.ofList

end Logo.Text
