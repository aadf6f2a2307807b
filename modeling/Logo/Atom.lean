import Logo.Number
import Logo.Text.Casing

/-!
# Atoms

Data without parts: numbers, truth values, words, and the two kinds of nothing. A word is a bare
symbol or carries a quote mark; most operations look only at its text.
-/

namespace Logo

inductive Atom where
  | number (value : Number)
  | boolean (value : Bool)
  | symbol (text : String)
  /-- A word with a quote mark, which is not part of the text. -/
  | quote (text : String)
  /-- The absence of a value. -/
  | nil
  /-- The value of a name that is declared and not yet assigned. -/
  | none

/-- The names by which type errors call data. Two of them stand for groups. -/
inductive TypeName where
  | integer
  | float
  | number
  | boolean
  | symbol
  | quote
  | word
  | nil
  | none
  | list
  | call
  | procedure
  deriving DecidableEq

def TypeName.text : TypeName → String
  | .integer => "integer"
  | .float => "float"
  | .number => "number"
  | .boolean => "boolean"
  | .symbol => "symbol"
  | .quote => "quote"
  | .word => "word"
  | .nil => "nil"
  | .none => "none"
  | .list => "list"
  | .call => "call"
  | .procedure => "procedure"

namespace Atom

def typeName : Atom → TypeName
  | .number (.integer _) => .integer
  | .number (.float _) => .float
  | .boolean _ => .boolean
  | .symbol _ => .symbol
  | .quote _ => .quote
  | .nil => .nil
  | .none => .none

/-- The text as programs print it. -/
def display : Atom → String
  | .number (.integer value) => toString value.toInt
  | .number (.float value) => printedFloat value
  | .boolean value => if value then "true" else "false"
  | .symbol text | .quote text => text
  | .nil => "nil"
  | .none => ""

/-- The text that reads back: a quoted word keeps its mark. -/
def source : Atom → String
  | .quote text => "\"" ++ text
  | atom => atom.display

/-- Numbers, truth values and words have text of their own. -/
def isWord : Atom → Bool
  | .nil | .none => false
  | _ => true

/-- The text of a symbol or a quoted word. -/
def text? : Atom → Option String
  | .symbol text | .quote text => some text
  | _ => Option.none

/-- The number that an atom is or that its text spells. -/
def number? : Atom → Option Number
  | .number value => some value
  | .symbol text | .quote text => Number.ofWord? text
  | _ => Option.none

def truthText (value : Bool) : String :=
  if value then "true" else "false"

/-- Equality as programs see it. Nothing equals neither kind of nothing, the spelling of a number or
of a truth value equals its value, and words are compared by their text. -/
def equal : Atom → Atom → Bool
  | .number left, .number right => left.equal right
  | .boolean left, .boolean right => left == right
  | .boolean value, .symbol text | .boolean value, .quote text
  | .symbol text, .boolean value | .quote text, .boolean value =>
    Text.sameLetters text (truthText value)
  | .symbol left, .symbol right | .symbol left, .quote right
  | .quote left, .symbol right | .quote left, .quote right => left == right
  | .number value, .symbol text | .number value, .quote text
  | .symbol text, .number value | .quote text, .number value =>
    match Number.ofWord? text with
    | some spelled => spelled.equal value
    | Option.none => false
  | _, _ => false

/-- The order of two numbers, or else of two texts. -/
def compare? (left right : Atom) : Option Ordering :=
  match left.number?, right.number? with
  | some a, some b => a.compare? b
  | _, _ =>
    match left.text?, right.text? with
    | some a, some b => some (compare a b)
    | _, _ => Option.none

end Atom

end Logo
