import Logo.Program.Expression

/-!
# Reading programs

The headers of all definitions are entered in the procedure table first, and then the second names
that the text gives, so that a call can be read with the right number of inputs wherever it stands.
A definition replaces its header when it has been read. If a text turns out to be unreadable, the
table is put back as it was.
-/

namespace Logo

/-- The variable names at the front of the tokens, in small letters, and the tokens behind them. -/
def takeParams : List Token → List String × List Token
  | ⟨.reference name, _⟩ :: rest =>
    let (params, after) := takeParams rest
    (Text.lowercase name :: params, after)
  | tokens => ([], tokens)

theorem length_takeParams_le (tokens : List Token) :
    (takeParams tokens).2.length ≤ tokens.length := by
  fun_induction takeParams tokens with
  | case1 name span rest params after hparams ih =>
    simp only [hparams] at ih
    simp only [List.length_cons]
    omega
  | case2 => exact Nat.le_refl _

/-- A pass over the tokens of a text enters procedures in the table as it goes. When it fails, what
it has entered by then stays in the table. -/
abbrev Pass := EStateM ParseError Procedures

/-- Enters a procedure without a body for every header in the text. -/
def Pass.headers : List Token → Pass Unit
  | [] => return
  | ⟨.define, span⟩ :: rest =>
    match rest with
    | ⟨.symbol name, _⟩ :: after => do
      modify (·.define (.user name (takeParams after).1 [] none))
      headers rest
    | _ => throw ⟨.missingProcedureName, span⟩
  | _ :: rest => headers rest

/-- The word `alias` followed by two quoted words gives the procedure of the first one the name of
the second. -/
def aliasAt? : List Token → Option (String × String)
  | ⟨.symbol keyword, _⟩ :: ⟨.quote name, _⟩ :: ⟨.quote second, _⟩ :: _ =>
    if Text.sameLetters keyword "alias" then some (name, second) else none
  | _ => none

/-- Enters the second names that the text gives. -/
def Pass.aliases : List Token → Pass Unit
  | [] => return
  | token :: rest =>
    match aliasAt? (token :: rest) with
    | some (name, second) => do
      match (← get).nameAgain? name second with
      | some procedures => set procedures
      | none => throw ⟨.unknownProcedure name, token.span⟩
      aliases rest
    | none => aliases rest

/-- The lines of a body up to `end`, and the place of that word. `opening` is the place of the word
`to` that opened the definition. -/
def readBody (reading : Reading) (name : String) (opening : Span) (tokens : List Token) :
    Except ParseError (List Datum × Span × Shorter tokens) :=
  match hnext : skipNewlines tokens with
  | [] => throw ⟨.missingEnd name, opening⟩
  | ⟨.close, span⟩ :: rest =>
    return ([], span, ⟨rest, length_lt_of_skipNewlines hnext⟩)
  | ⟨.define, span⟩ :: _ => throw ⟨.nestedDefinition name, span⟩
  | next :: others => do
    let (line, ⟨middle, hmiddle⟩) ← readExpression reading (next :: others)
    have hmiddleTokens : middle.length < tokens.length :=
      length_lt_of_skipNewlines_of_lt hnext hmiddle
    let (lines, closing, ⟨rest, hrest⟩) ← readBody reading name opening middle
    return (line :: lines, closing, ⟨rest, length_lt_of_lt_of_lt hmiddleTokens hrest⟩)
termination_by tokens.length

/-- The definition whose word `to` stands at `opening`, in front of the tokens. -/
def readDefinition (reading : Reading) (opening : Span) (tokens : List Token) :
    Except ParseError (Procedure × Shorter tokens) :=
  match tokens with
  | ⟨.symbol name, _⟩ :: afterName => do
    let params := (takeParams afterName).1
    have hparams := length_takeParams_le afterName
    let (body, closing, ⟨rest, hrest⟩) ← readBody reading name opening (takeParams afterName).2
    let text := sliceBytes reading.source opening.start closing.stop
    return (.user name params body (some text), ⟨rest, by simp only [List.length_cons]; omega⟩)
  | _ => throw ⟨.missingProcedureName, opening⟩

/-- The lines of a program: definitions, which enter the table as they are read, and expressions. -/
def Pass.lines (source : String) (finish : Span) (tokens : List Token) : Pass (List Datum) :=
  match hnext : skipNewlines tokens with
  | [] => return []
  | ⟨.define, opening⟩ :: inside => do
    have hinside : inside.length < tokens.length := length_lt_of_skipNewlines hnext
    let reading := ⟨source, finish, ← get⟩
    let (procedure, ⟨rest, hrest⟩) ← ofExcept (readDefinition reading opening inside)
    have : rest.length < tokens.length := length_lt_of_lt_of_lt hinside hrest
    modify (·.define procedure)
    return .procedure procedure :: (← lines source finish rest)
  | next :: others => do
    let reading := ⟨source, finish, ← get⟩
    let (line, ⟨rest, hrest⟩) ← ofExcept (readExpression reading (next :: others))
    have : rest.length < tokens.length := length_lt_of_skipNewlines_of_lt hnext hrest
    return line :: (← lines source finish rest)
termination_by tokens.length
decreasing_by
  all_goals assumption

/-- The lines of a program whose tokens are known. -/
def Pass.program (source : String) (scan : Scan) : Pass (List Datum) := do
  headers scan.tokens
  aliases scan.tokens
  lines source scan.finish scan.tokens

/-- Keeps the table as it is and puts it back if the pass fails. -/
def Pass.restoring {α : Type} (pass : Pass α) : Pass α := do
  let snapshot ← get
  try pass
  catch cause =>
    set snapshot
    throw cause

/-- Reads a text as a program. -/
def readSource (source : String) : EStateM ReadError Procedures (List Datum) := fun procedures =>
  match Scan.ofSource source with
  | .error cause => .error (.lex cause) procedures
  | .ok scan =>
    match (Pass.program source scan).restoring procedures with
    | .ok program procedures => .ok program procedures
    | .error cause procedures => .error (.parse cause) procedures

/-- The program that is read from a text with the procedures that are known so far, and the
procedures that are known then. -/
def readProgram (procedures : Procedures) (source : String) :
    Except ReadError (List Datum × Procedures) :=
  match readSource source procedures with
  | .ok program procedures => .ok (program, procedures)
  | .error error _ => .error error

end Logo
