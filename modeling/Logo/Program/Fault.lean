import Logo.Token.Lexer

/-!
# What can be wrong with a text
-/

namespace Logo

inductive ParseFault where
  | unexpectedEnd
  | unexpectedLineEnd
  | unexpectedToken (text : String)
  | unterminatedGroup
  | missingParen
  | unterminatedList
  | missingProcedureName
  | nestedDefinition (name : String)
  | missingEnd (name : String)
  /-- A second name is given to a procedure that does not exist. -/
  | unknownProcedure (name : String)
  deriving DecidableEq

def ParseFault.message : ParseFault → String
  | .unexpectedEnd => "Unexpected end of input"
  | .unexpectedLineEnd => "Unexpected end of line"
  | .unexpectedToken text => "Unexpected token '" ++ text ++ "'"
  | .unterminatedGroup => "Unterminated '('"
  | .missingParen => "Expected ')'"
  | .unterminatedList => "Unterminated list"
  | .missingProcedureName => "Expected procedure name after 'to'"
  | .nestedDefinition name => "Cannot define a procedure inside " ++ name
  | .missingEnd name => "Missing 'end' for procedure " ++ name
  | .unknownProcedure name => "I don't know how to " ++ name

structure ParseError where
  fault : ParseFault
  span : Span

/-- Why a text cannot be read. -/
inductive ReadError where
  | lex (error : LexError)
  | parse (error : ParseError)

end Logo
