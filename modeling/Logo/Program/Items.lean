import Logo.Datum
import Logo.Program.Tokens

/-!
# Reading list text

Lists are data: every raw word becomes a symbol and nothing in them is evaluated.
-/

namespace Logo

/-- A list read from the source between two brackets. -/
def bracketed (source : String) (opening closing : Span) (items : List Datum) : Datum :=
  .list items (some (sliceBytes source opening.stop closing.start)) (some (opening.through closing))

/-- The items up to the bracket that closes the one at `opening`, and that bracket's place. -/
def readItems (source : String) (opening : Span) (tokens : List Token) :
    Except ParseError (List Datum × Span × Shorter tokens) :=
  match tokens with
  | ⟨.word text, _⟩ :: rest => do
    let (items, closing, ⟨after, hafter⟩) ← readItems source opening rest
    return (.symbol text :: items, closing, ⟨after, by simp only [List.length_cons]; omega⟩)
  | ⟨.leftBracket, span⟩ :: rest => do
    let (inner, innerClosing, ⟨middle, hmiddle⟩) ← readItems source span rest
    let (items, closing, ⟨after, hafter⟩) ← readItems source opening middle
    return (bracketed source span innerClosing inner :: items, closing,
      ⟨after, by simp only [List.length_cons]; omega⟩)
  | ⟨.rightBracket, span⟩ :: rest =>
    return ([], span, ⟨rest, by simp⟩)
  | _ => throw ⟨.unterminatedList, opening⟩
termination_by tokens.length
decreasing_by
  all_goals simp only [List.length_cons]
  all_goals omega

/-- Reads the text of a line as the contents of a list. -/
def readList (text : String) : Except ReadError Datum := do
  let source := "[" ++ text ++ "]"
  let scan ← (Scan.ofSource source).mapError .lex
  match scan.tokens with
  | ⟨.leftBracket, opening⟩ :: rest =>
    let (items, closing, _) ← (readItems source opening rest).mapError .parse
    return bracketed source opening closing items
  | tokens => throw (.parse ⟨.unterminatedList, nextSpan scan.finish tokens⟩)

end Logo
