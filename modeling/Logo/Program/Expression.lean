import Logo.Procedure.Table
import Logo.Program.Items

/-!
# Reading expressions

Operators are calls of procedures, in four levels of which each binds its operands more tightly than
the one before. A name that is known as a procedure takes as many expressions as the procedure has
inputs; in parentheses it takes all up to the closing one.
-/

namespace Logo

/-- The levels of operators, the loosest first. -/
inductive Level where
  | equality
  | comparison
  | term
  | factor
  deriving DecidableEq

def Operator.level : Operator → Level
  | .equal | .equalEqual | .bangEqual => .equality
  | .less | .greater | .lessEqual | .greaterEqual => .comparison
  | .plus | .minus => .term
  | .star | .slash => .factor

/-- The procedure that an operator calls. -/
def Operator.procedure : Operator → String
  | .equal | .equalEqual => "equal?"
  | .bangEqual => "notequal?"
  | .less => "less?"
  | .greater => "greater?"
  | .lessEqual => "lessequal?"
  | .greaterEqual => "greaterequal?"
  | .plus => "add"
  | .minus => "sub"
  | .star => "mul"
  | .slash => "div"

/-- The number of levels that bind at least as tightly. -/
def Level.height : Level → Nat
  | .equality => 4
  | .comparison => 3
  | .term => 2
  | .factor => 1

theorem Level.height_le (level : Level) : level.height ≤ 4 := by
  cases level <;> decide

/-- What reading an expression looks up. -/
structure Reading where
  source : String
  /-- The place behind the last token. -/
  finish : Span
  procedures : Procedures

mutual

/-- An expression whose operators are of the given level or tighter. -/
def readLevel (reading : Reading) (level : Level) (tokens : List Token) :
    Except ParseError (Datum × Shorter tokens) := do
  let (left, ⟨middle, hmiddle⟩) ← readOperand reading level tokens
  let (datum, ⟨rest, hrest⟩) ← readOperators reading level left middle
  return (datum, ⟨rest, length_lt_of_lt_of_le hmiddle hrest⟩)
termination_by tokens.length * 16 + 2 * level.height + 1

/-- An operand of the given level: an expression of the next one. -/
def readOperand (reading : Reading) (level : Level) (tokens : List Token) :
    Except ParseError (Datum × Shorter tokens) :=
  match level with
  | .equality => readLevel reading .comparison tokens
  | .comparison => readLevel reading .term tokens
  | .term => readLevel reading .factor tokens
  | .factor => readPrimary reading tokens
termination_by tokens.length * 16 + 2 * level.height
decreasing_by
  all_goals
    simp only [Level.height]
    omega

/-- The operators of one level that follow `left`, each with its right operand. -/
def readOperators (reading : Reading) (level : Level) (left : Datum) (tokens : List Token) :
    Except ParseError (Datum × Remaining tokens) :=
  match tokens with
  | ⟨.operator op, span⟩ :: operand =>
    if op.level = level then do
      let (right, ⟨middle, hmiddle⟩) ← readOperand reading level operand
      let call := .call ⟨op.procedure, [left, right], span⟩
      let (datum, ⟨rest, hrest⟩) ← readOperators reading level call middle
      return (datum, ⟨rest, by simp only [List.length_cons]; omega⟩)
    else return (left, .all (⟨.operator op, span⟩ :: operand))
  | other => return (left, .all other)
termination_by tokens.length * 16 + 10
decreasing_by
  all_goals
    have := level.height_le
    simp only [List.length_cons]
    omega

/-- A literal, a variable, a call, a list or an expression in parentheses. -/
def readPrimary (reading : Reading) (tokens : List Token) :
    Except ParseError (Datum × Shorter tokens) :=
  match tokens with
  | [] => throw ⟨.unexpectedEnd, reading.finish⟩
  | ⟨kind, span⟩ :: rest =>
    let here : Shorter (⟨kind, span⟩ :: rest) := ⟨rest, by simp⟩
    match kind with
    | .number value => return (.atom (.number value), here)
    | .boolean value => return (.boolean value, here)
    | .nil => return (.nil, here)
    | .quote text => return (.quote text, here)
    | .reference name => return (.call ⟨"thing", [.symbol name], span⟩, here)
    | .symbol name =>
      match reading.procedures.find? name with
      | some procedure => do
        let (inputs, ⟨after, hafter⟩) ← readInputs reading procedure.arity rest
        return (.call ⟨name, inputs, span⟩, ⟨after, by simp only [List.length_cons]; omega⟩)
      | none => return (.symbol name, here)
    | .leftBracket => do
      let (items, closing, ⟨after, hafter⟩) ← readItems reading.source span rest
      return (bracketed reading.source span closing items,
        ⟨after, by simp only [List.length_cons]; omega⟩)
    | .leftParen => do
      let (datum, ⟨after, hafter⟩) ← readGroup reading span rest
      return (datum, ⟨after, by simp only [List.length_cons]; omega⟩)
    | .newline => throw ⟨.unexpectedLineEnd, span⟩
    | other => throw ⟨.unexpectedToken other.text, span⟩
termination_by tokens.length * 16

/-- As many expressions as a procedure has inputs. -/
def readInputs (reading : Reading) (count : Nat) (tokens : List Token) :
    Except ParseError (List Datum × Remaining tokens) :=
  match count with
  | 0 => return ([], .all tokens)
  | count + 1 => do
    let (input, ⟨middle, hmiddle⟩) ← readLevel reading .equality tokens
    let (inputs, ⟨rest, hrest⟩) ← readInputs reading count middle
    return (input :: inputs, ⟨rest, length_le_of_lt_of_le hmiddle hrest⟩)
termination_by tokens.length * 16 + 10
decreasing_by
  · simp only [Level.height]
    omega
  · omega

/-- What stands between the parenthesis at `opening` and the one that closes it. -/
def readGroup (reading : Reading) (opening : Span) (tokens : List Token) :
    Except ParseError (Datum × Remaining tokens) :=
  match hnext : skipNewlines tokens with
  | ⟨.symbol name, span⟩ :: inside =>
    have hinside : inside.length < tokens.length := length_lt_of_skipNewlines hnext
    if reading.procedures.contains name then do
      let (inputs, ⟨rest, hrest⟩) ← readGroupInputs reading opening inside
      return (.call ⟨name, inputs, span⟩, ⟨rest, length_le_of_lt_of_le hinside hrest⟩)
    else readParenthesized reading tokens
  | _ => readParenthesized reading tokens
termination_by tokens.length * 16 + 15
decreasing_by
  all_goals omega

/-- One expression and the parenthesis behind it. -/
def readParenthesized (reading : Reading) (tokens : List Token) :
    Except ParseError (Datum × Remaining tokens) := do
  have hskip := length_skipNewlines_le tokens
  let (datum, ⟨middle, hmiddle⟩) ← readLevel reading .equality (skipNewlines tokens)
  match hnext : skipNewlines middle with
  | ⟨.rightParen, _⟩ :: rest =>
    have hrest : rest.length < middle.length := length_lt_of_skipNewlines hnext
    return (datum, ⟨rest, by omega⟩)
  | other => throw ⟨.missingParen, nextSpan reading.finish other⟩
termination_by tokens.length * 16 + 10
decreasing_by
  simp only [Level.height]
  omega

/-- Every expression up to the closing parenthesis. -/
def readGroupInputs (reading : Reading) (opening : Span) (tokens : List Token) :
    Except ParseError (List Datum × Remaining tokens) :=
  match hnext : skipNewlines tokens with
  | [] => throw ⟨.unterminatedGroup, opening⟩
  | ⟨.rightParen, _⟩ :: rest =>
    have hrest : rest.length < tokens.length := length_lt_of_skipNewlines hnext
    return ([], ⟨rest, by omega⟩)
  | next :: others => do
    have hothers : others.length < tokens.length := length_lt_of_skipNewlines hnext
    let (input, ⟨middle, hmiddle⟩) ← readLevel reading .equality (next :: others)
    have hmiddleTokens : middle.length < tokens.length :=
      length_lt_of_skipNewlines_of_lt hnext hmiddle
    let (inputs, ⟨rest, hrest⟩) ← readGroupInputs reading opening middle
    return (input :: inputs, ⟨rest, length_le_of_lt_of_le hmiddleTokens hrest⟩)
termination_by tokens.length * 16 + 10
decreasing_by
  · simp only [List.length_cons, Level.height]
    omega
  · omega

end

/-- An expression at the front of the tokens. -/
def readExpression (reading : Reading) (tokens : List Token) :
    Except ParseError (Datum × Shorter tokens) :=
  readLevel reading .equality tokens

end Logo
