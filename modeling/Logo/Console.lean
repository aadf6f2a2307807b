import Logo.Text.Lines

/-!
# Consoles

A console has lines of input that are still to be read and keeps everything that was written to it.
A recorder keeps what was written line by line.
-/

namespace Logo

structure Console where
  input : List String
  /-- The texts that were written, the latest first. -/
  written : List String

namespace Console

def new (input : List String) : Console where
  input
  written := []

def write (console : Console) (text : String) : Console :=
  { console with written := text :: console.written }

/-- The next line of input, if there is one. -/
def readLine (console : Console) : Option String × Console :=
  match console.input with
  | [] => (none, console)
  | line :: input => (some line, { console with input })

/-- All that was written. -/
def output (console : Console) : String :=
  String.join console.written.reverse

/-- All that was written, in lines. -/
def outputLines (console : Console) : List String :=
  Text.lines console.output

/-- All that was written, and a console to which nothing has been written. -/
def takeOutput (console : Console) : String × Console :=
  (console.output, { console with written := [] })

end Console

structure Recorder where
  /-- The start of a line that has not ended. -/
  pending : List Char
  entries : List String

namespace Recorder

def new : Recorder where
  pending := []
  entries := []

/-- The line that the first newline ends, and what follows, for each newline in turn. -/
def cutLines (line : List Char) : List Char → List String × List Char
  | [] => ([], line.reverse)
  | c :: rest =>
    if c = '\n' then
      let (entries, pending) := cutLines [] rest
      (String.ofList line.reverse :: entries, pending)
    else cutLines (c :: line) rest

/-- Every newline ends an entry. -/
def write (recorder : Recorder) (text : String) : Recorder :=
  let (entries, pending) := cutLines recorder.pending.reverse text.toList
  { pending, entries := recorder.entries ++ entries }

/-- The entries so far, a line that has not ended being the last, and an empty recorder. -/
def take (recorder : Recorder) : List String × Recorder :=
  (if recorder.pending.isEmpty then recorder.entries
    else recorder.entries ++ [String.ofList recorder.pending], new)

end Recorder

end Logo
