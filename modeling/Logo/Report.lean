import Logo.Datum.Printer
import Logo.Diagnostic

/-!
# Reports for other programs

A run can be reported as one object in JSON: its value, or the error that stopped it, with all that
the program has written.
-/

namespace Logo

namespace Json

def hexDigit (n : Nat) : Char :=
  Nat.digitChar n

/-- A character inside quotes. Quotes, backslashes and control characters are escaped. -/
def escape (c : Char) : List Char :=
  match c with
  | '"' => ['\\', '"']
  | '\\' => ['\\', '\\']
  | '\n' => ['\\', 'n']
  | '\r' => ['\\', 'r']
  | '\t' => ['\\', 't']
  | '\x08' => ['\\', 'b']
  | '\x0c' => ['\\', 'f']
  | _ =>
    if c.toNat < 0x20 then
      ['\\', 'u', '0', '0', hexDigit (c.toNat / 16), hexDigit (c.toNat % 16)]
    else [c]

def string (text : String) : String :=
  "\"" ++ String.ofList (text.toList.flatMap escape) ++ "\""

def array (elements : List String) : String :=
  "[" ++ ",".intercalate elements ++ "]"

def object (fields : List (String × String)) : String :=
  "\x7b" ++ ",".intercalate (fields.map fun (name, value) => string name ++ ":" ++ value) ++ "\x7d"

end Json

/-- A line that a program has written, and when. -/
structure ConsoleEntry where
  milliseconds : Nat
  message : String

def ConsoleEntry.json (entry : ConsoleEntry) : String :=
  Json.object [
    ("timestamp_ms", toString entry.milliseconds),
    ("message", Json.string entry.message)]

/-- The value of a run as a report shows it. Both kinds of nothing are shown as an empty text. -/
def reportedValue : Datum → String
  | .atom .nil | .atom .none => ""
  | datum => datum.display

/-- The report of a run that has ended. -/
def scriptReport (value : Datum) (milliseconds : Nat) (console : List ConsoleEntry) : String :=
  Json.object [
    ("type", Json.string "script"),
    ("status", Json.string "complete"),
    ("value", Json.string (reportedValue value)),
    ("duration_ms", toString milliseconds),
    ("console", Json.array (console.map ConsoleEntry.json))]

def placeReport : Option (Nat × Nat) → String
  | some (line, column) => Json.object [("line", toString line), ("column", toString column)]
  | none => "null"

/-- The report of a run that has failed. -/
def errorReport (error : Diagnostic) (backtrace : List String) (console : List ConsoleEntry) :
    String :=
  Json.object [
    ("type", Json.string "error"),
    ("message", Json.string error.message),
    ("location", placeReport error.place?),
    ("backtrace", Json.array (backtrace.map Json.string)),
    ("console", Json.array (console.map ConsoleEntry.json))]

end Logo
