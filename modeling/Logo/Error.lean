import Logo.Datum.Printer
import Logo.Diagnostic
import Logo.Program.Fault

/-!
# Errors

The causes for which a program stops, and the wording of each.
-/

namespace Logo

inductive RuntimeError where
  | typeMismatch (expected : List TypeName) (received : Datum)
  | unknownProcedure (name : String)
  | unknownVariable (name : String)
  /-- More calls are active than the machine allows. -/
  | tooDeep (procedure : String) (depth : Nat)
  | notEnoughInputs (procedure : String) (expected received : Nat)
  | overflow (operation : String) (left right : Int64)
  | divisionByZero
  /-- A float that 64 signed bits do not hold. -/
  | integerRange (value : Float)
  | outOfRange (index : Int64) (length : Nat)
  /-- A list that is run as code cannot be read. -/
  | unreadableBlock (error : ReadError) (text : String)
  /-- A line of input cannot be read as a list. -/
  | unreadableLine (error : ReadError)
  /-- A list would be stored inside itself. -/
  | circularList

def LexError.diagnostic (error : LexError) : Diagnostic :=
  .lexical error.fault.message error.line error.column

def ParseError.diagnostic (error : ParseError) : Diagnostic :=
  .parse error.fault.message error.span.line error.span.column

def ReadError.diagnostic : ReadError → Diagnostic
  | .lex error => error.diagnostic
  | .parse error => error.diagnostic

def mismatchMessage (expected : List TypeName) (received : Datum) : String :=
  "expected " ++ " or ".intercalate (expected.map TypeName.text) ++ " but received " ++
    received.typeName.text ++ " '" ++ received.source ++ "'"

def RuntimeError.message : RuntimeError → String
  | .typeMismatch expected received => mismatchMessage expected received
  | .unknownProcedure name => "I don't know how to " ++ name
  | .unknownVariable name => name ++ " has no value"
  | .tooDeep procedure depth =>
    "too many nested calls (" ++ toString depth ++ " active) while calling " ++ procedure
  | .notEnoughInputs procedure expected received =>
    "not enough inputs to " ++ procedure ++ ": expected " ++ toString expected ++ ", received " ++
      toString received
  | .overflow operation left right =>
    "integer overflow in " ++ operation ++ " " ++ toString left.toInt ++ " " ++ toString right.toInt
  | .divisionByZero => "division by zero"
  | .integerRange value => plainFloat value ++ " does not fit in an integer"
  | .outOfRange index length =>
    "index " ++ toString index.toInt ++ " is out of range for length " ++ toString length
  | .unreadableBlock error text => error.diagnostic.summary ++ " in [" ++ text ++ "]"
  | .unreadableLine error => error.diagnostic.summary
  | .circularList => "a list cannot contain itself"

/-- Why a text cannot be read or run. -/
inductive Error where
  | read (error : ReadError)
  | runtime (error : RuntimeError)

def Error.diagnostic : Error → Diagnostic
  | .read error => error.diagnostic
  | .runtime error => .runtime error.message

end Logo
