/-!
# The activity log

Records have a level; those less urgent than the log's own level are not kept.
-/

namespace Logo

inductive LogLevel where
  | error
  | warn
  | info
  | debug
  | trace
  deriving DecidableEq

namespace LogLevel

def text : LogLevel → String
  | .error => "ERROR"
  | .warn => "WARN"
  | .info => "INFO"
  | .debug => "DEBUG"
  | .trace => "TRACE"

/-- The number of levels that are at least as urgent. -/
def rank : LogLevel → Nat
  | .error => 1
  | .warn => 2
  | .info => 3
  | .debug => 4
  | .trace => 5

end LogLevel

structure Log where
  /-- The least urgent level that is kept; nothing is, if there is none. -/
  threshold : Option LogLevel
  /-- The records, the latest first. -/
  records : List (LogLevel × String)

namespace Log

def new (threshold : Option LogLevel) : Log where
  threshold
  records := []

def keeps (log : Log) (level : LogLevel) : Bool :=
  match log.threshold with
  | some threshold => level.rank ≤ threshold.rank
  | none => false

def add (log : Log) (level : LogLevel) (message : String) : Log :=
  { log with records := (level, message) :: log.records }

/-- The records in the order in which they were made, and a log without them. -/
def take (log : Log) : List (LogLevel × String) × Log :=
  (log.records.reverse, { log with records := [] })

end Log

end Logo
