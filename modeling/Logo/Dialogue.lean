import Logo.Dialogue.Definition
import Logo.Machine.Run
import Logo.Streams

/-!
# The dialogue

The interactive reader: it prompts for a line, obeys its own commands, collects definitions, and
gives everything else to the machine.
-/

namespace Logo

structure Dialogue where
  machine : Machine
  definition : PartialDefinition
  streams : Streams

namespace Dialogue

variable [Segmentation]

def prompt (dialogue : Dialogue) : String :=
  if dialogue.definition.isOpen then ": "
  else if dialogue.machine.paused then "paused> "
  else "? "

/-- Writes out what the machine has to say. -/
def drain (dialogue : Dialogue) : Dialogue :=
  let (streams, machine) := dialogue.streams.drain dialogue.machine
  { dialogue with streams, machine }

def printLine (dialogue : Dialogue) (text : String) : Dialogue :=
  { dialogue with streams := dialogue.streams.printLine text }

def complain (dialogue : Dialogue) (text : String) : Dialogue :=
  { dialogue with streams := dialogue.streams.complain text }

/-- Tells how the lines of `input` have ended. Only errors of a running program give up the work
that is left. -/
def report (dialogue : Dialogue) (input : String)
    (result : EStateM.Result Error Machine Value) : Dialogue :=
  match result with
  | .ok value machine =>
    let dialogue := { dialogue with machine }.drain
    if machine.paused then
      dialogue.printLine
        ("Paused at depth " ++ toString machine.depth ++ ". Type resume to continue.")
    else
      match machine.view value with
      | .atom .nil | .atom .none => dialogue
      | datum => dialogue.printLine ("; " ++ datum.display)
  | .error error machine =>
    let dialogue := { dialogue with machine := machine.noteFailure error }.drain
    let dialogue := dialogue.complain (error.diagnostic.detailed input)
    match error with
    | .runtime _ => { dialogue with machine := dialogue.machine.reset }
    | .read _ => dialogue

/-- Prints the headers of the user-defined procedures, each under its own name only. -/
def printHeaders (dialogue : Dialogue) : Dialogue :=
  dialogue.machine.world.environment.procedures.entries.sorted.foldl
    (fun dialogue (name, procedure) =>
      if procedure.isUserDefined && Text.sameLetters procedure.name name then
        dialogue.printLine ("to " ++ procedure.header)
      else dialogue) dialogue

/-- Prints the text of a definition. -/
def printDefinition (dialogue : Dialogue) (name : String) : Dialogue :=
  match dialogue.machine.world.environment.procedures.find? name with
  | some procedure =>
    if procedure.isUserDefined then
      dialogue.printLine (procedure.source.getD ("to " ++ procedure.header ++ "\nend"))
    else dialogue.printLine (procedure.name ++ " is a primitive")
  | none => dialogue.complain (RuntimeError.unknownProcedure name).message

/-- The value of a script that has come to its end. -/
def outcomeValue : Outcome → Value
  | .completed value => value
  | .paused | .exhausted => .none

/-- What a line asks for. -/
inductive Command where
  | leave
  | resume
  | reset
  | headers
  | definition (name : String)
  | run

def Command.ofInput (input : String) : Command :=
  match Text.fields input with
  | [word] =>
    if Text.sameLetters word "bye" then .leave
    else if Text.sameLetters word "resume" then .resume
    else if Text.sameLetters word "reset" then .reset
    else if Text.sameLetters word "pots" then .headers
    else .run
  | [word, name] => if Text.sameLetters word "po" then .definition name else .run
  | _ => .run

/-- Does what a line asks for, unless it asks to leave. -/
def obey (fuel : Nat) (dialogue : Dialogue) (input : String) : Option Dialogue :=
  match Command.ofInput input with
  | .leave => none
  | .resume =>
    some (dialogue.report input ((do
      let value ← Machine.running (Machine.resume fuel)
      return value.getD .none) dialogue.machine))
  | .reset => some { dialogue with machine := dialogue.machine.reset }
  | .headers => some dialogue.printHeaders
  | .definition name => some (dialogue.printDefinition name)
  | .run =>
    some (dialogue.report input ((do
      let outcome ← Machine.runScript fuel input
      return outcomeValue outcome) dialogue.machine))

/-- Takes the next line of input. -/
def nextLine (dialogue : Dialogue) : Option String × Dialogue :=
  let dialogue := { dialogue with streams := dialogue.streams.print dialogue.prompt }
  let machine := dialogue.machine.note .debug fun _ => "unsupported terminal"
  let (line, console) := machine.world.console.readLine
  let machine := { machine with world := { machine.world with console } }
  (line, { dialogue with machine }.drain)

/-- Goes on with the dialogue until its input ends or a line asks to leave. Every round takes a line
from the input, which has fewer than `rounds`. -/
def converse (fuel : Nat) (dialogue : Dialogue) : Nat → Dialogue
  | 0 => dialogue
  | rounds + 1 =>
    match dialogue.nextLine with
    | (none, dialogue) => dialogue.printLine "Goodbye!"
    | (some line, dialogue) =>
      let line := Text.trim line
      if line.isEmpty then dialogue.converse fuel rounds
      else
        let (input, definition) := dialogue.definition.push line
        let dialogue := { dialogue with definition }
        match input with
        | none => dialogue.converse fuel rounds
        | some input =>
          match dialogue.obey fuel input with
          | none => dialogue.printLine "Goodbye!"
          | some dialogue => dialogue.converse fuel rounds

/-- A whole dialogue on the given lines of input. -/
def hold (fuel maxDepth : Nat) (threshold : Option LogLevel) (input : List String) : Streams :=
  let streams := Streams.empty.printLine "Tortuga Logo REPL. Type bye to leave."
  let machine := (Machine.new maxDepth (.new input) (.new threshold)).noteProcedures
  let dialogue : Dialogue := ⟨machine, .none, streams⟩
  (dialogue.drain.converse fuel (input.length + 1)).streams

end Dialogue

end Logo
