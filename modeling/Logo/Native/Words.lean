import Logo.Error
import Logo.Text.Segmentation

/-!
# Words and lists

The operations that build words and lists from other ones. Words are sequences of user-perceived
characters. A word made from a quoted word is quoted, every other one is a bare symbol. What is
built is a datum: it shares nothing with what it was built from.
-/

namespace Logo.Words

variable [Segmentation]

/-- A word with the given text, quoted if `like` was. -/
def rebuild (like : Atom) (text : String) : Atom :=
  match like with
  | .quote _ => .quote text
  | _ => .symbol text

/-- The printed text of a word. -/
def wordText (datum : Datum) : Except RuntimeError String :=
  match datum.wordText? with
  | some text => .ok text
  | none => .error (.typeMismatch [.word] datum)

/-- The items of a list, or the atom that a word is. -/
inductive Sequence where
  | list (items : List Datum)
  | word (atom : Atom)

/-- A datum that has items or characters. -/
def sequence (datum : Datum) : Except RuntimeError Sequence :=
  match datum with
  | .list items _ _ => .ok (.list items)
  | .atom atom =>
    if atom.isWord then .ok (.word atom) else .error (.typeMismatch [.list, .word] datum)
  | _ => .error (.typeMismatch [.list, .word] datum)

/-- Rearranges the items of a list or the characters of a word. -/
def rearrange (change : ∀ {α : Type}, List α → List α) (datum : Datum) :
    Except RuntimeError Datum := do
  match ← sequence datum with
  | .list items => return .built (change items)
  | .word atom =>
    return .atom (rebuild atom (String.join (change (Segmentation.pieces atom.display))))

def butFirst : Datum → Except RuntimeError Datum :=
  rearrange (·.tail)

def butLast : Datum → Except RuntimeError Datum :=
  rearrange (·.dropLast)

def reverse : Datum → Except RuntimeError Datum :=
  rearrange (·.reverse)

/-- Puts a thing in front of the items of a list, or its text in front of a word. -/
def putFirst (thing target : Datum) : Except RuntimeError Datum := do
  match ← sequence target with
  | .list items => return .built (thing :: items)
  | .word atom => return .atom (rebuild atom ((← wordText thing) ++ atom.display))

/-- Puts a thing behind the items of a list, or its text behind a word. -/
def putLast (thing target : Datum) : Except RuntimeError Datum := do
  match ← sequence target with
  | .list items => return .built (items ++ [thing])
  | .word atom => return .atom (rebuild atom (atom.display ++ (← wordText thing)))

/-- The texts of words run together. The absence of a value adds nothing. -/
def join : List Datum → Except RuntimeError String
  | [] => .ok ""
  | .atom .nil :: data => join data
  | datum :: data => do
    let text ← wordText datum
    return text ++ (← join data)

/-- All inputs in one list, the items of list inputs taking their place. -/
def sentence (data : List Datum) : Datum :=
  .built (data.flatMap fun
    | .list items _ _ => items
    | datum => [datum])

mutual

/-- Converts the words in a datum at any depth. Numbers and truth values stay as they are. -/
def convertCase (convert : String → String) : Datum → Except RuntimeError Datum
  | .list items _ _ => do return .built (← convertAll convert items)
  | .atom (.symbol text) => .ok (.symbol (convert text))
  | .atom (.quote text) => .ok (.quote (convert text))
  | .atom atom =>
    if atom.isWord then .ok (.atom atom) else .error (.typeMismatch [.list, .word] (.atom atom))
  | datum => .error (.typeMismatch [.list, .word] datum)

def convertAll (convert : String → String) : List Datum → Except RuntimeError (List Datum)
  | [] => .ok []
  | datum :: data => do
    let converted ← convertCase convert datum
    return converted :: (← convertAll convert data)

end

end Logo.Words
