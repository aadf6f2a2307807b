import Logo.Machine

/-!
# Output streams

What a command has written to its two output streams. A machine's log goes to the error stream, and
what its program writes goes to the other one.
-/

namespace Logo

structure Streams where
  /-- The texts written to the output stream, the latest first. -/
  out : List String
  /-- The texts written to the error stream, the latest first. -/
  err : List String

namespace Streams

def empty : Streams where
  out := []
  err := []

def print (streams : Streams) (text : String) : Streams :=
  { streams with out := text :: streams.out }

def printLine (streams : Streams) (text : String) : Streams :=
  streams.print (text ++ "\n")

def complain (streams : Streams) (text : String) : Streams :=
  { streams with err := (text ++ "\n") :: streams.err }

/-- Writes the records that a machine's log has kept. -/
def drainLog (streams : Streams) (machine : Machine) : Streams × Machine :=
  let (records, log) := machine.world.log.take
  let streams := records.foldl (fun streams (level, message) =>
    streams.complain ("[" ++ level.text ++ "] " ++ message)) streams
  (streams, { machine with world := { machine.world with log } })

/-- Writes what a machine's program has written. -/
def drainConsole (streams : Streams) (machine : Machine) : Streams × Machine :=
  let (text, console) := machine.world.console.takeOutput
  (streams.print text, { machine with world := { machine.world with console } })

def drain (streams : Streams) (machine : Machine) : Streams × Machine :=
  let (streams, machine) := streams.drainLog machine
  streams.drainConsole machine

end Streams

end Logo
