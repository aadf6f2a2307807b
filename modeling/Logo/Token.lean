import Logo.Number
import Logo.Span

/-!
# Tokens

What a source text is cut into: keywords, literals, names, operators and brackets in code, and raw
words between the brackets of a list.
-/

namespace Logo

inductive Operator where
  | plus
  | minus
  | star
  | slash
  | equal
  | equalEqual
  | bangEqual
  | less
  | lessEqual
  | greater
  | greaterEqual
  deriving DecidableEq

inductive TokenKind where
  /-- The word `to`, which opens a definition. -/
  | define
  /-- The word `end`, which closes a definition. -/
  | close
  | nil
  | boolean (value : Bool)
  | number (value : Number)
  | quote (text : String)
  | reference (name : String)
  | symbol (name : String)
  /-- A word inside the brackets of a list, kept as it stands. -/
  | word (text : String)
  | operator (op : Operator)
  | leftParen
  | rightParen
  | leftBracket
  | rightBracket
  | newline

structure Token where
  kind : TokenKind
  span : Span

def Operator.text : Operator → String
  | .plus => "+"
  | .minus => "-"
  | .star => "*"
  | .slash => "/"
  | .equal => "="
  | .equalEqual => "=="
  | .bangEqual => "!="
  | .less => "<"
  | .lessEqual => "<="
  | .greater => ">"
  | .greaterEqual => ">="

/-- A token as error messages name it. -/
def TokenKind.text : TokenKind → String
  | .define => "to"
  | .close => "end"
  | .nil => "nil"
  | .boolean value => if value then "true" else "false"
  | .number (.integer value) => toString value.toInt
  | .number (.float value) => plainFloat value
  | .quote text => "\"" ++ text
  | .reference name => ":" ++ name
  | .symbol name => name
  | .word text => text
  | .operator op => op.text
  | .leftParen => "("
  | .rightParen => ")"
  | .leftBracket => "["
  | .rightBracket => "]"
  | .newline => "newline"

end Logo
