import Logo.Dialogue
import Logo.Report
import Logo.Text.Cluster

/-!
# The command line

What the command does for its arguments: it runs a script, reports a run in JSON, or holds a
dialogue. All that comes from outside is given: arguments, environment variables, files and the
standard input.
-/

namespace Logo.CommandLine

attribute [instance] Graphemes.segmentation

/-- What a call of the command depends on. -/
structure Invocation where
  arguments : List String
  /-- The value of an environment variable. -/
  setting : String → Option String
  /-- The contents of a file, or why it cannot be read. -/
  fileText : String → Except String String
  input : String

/-- What a call of the command leaves behind. -/
structure Result where
  code : Nat
  out : String
  err : String

def Result.of (code : Nat) (streams : Streams) : Result where
  code
  out := String.join streams.out.reverse
  err := String.join streams.err.reverse

/-- The arguments were no use. -/
def argumentError : Nat :=
  1

/-- The script could not be read or failed. -/
def scriptError : Nat :=
  2

structure Options where
  dialogue : Bool
  code : Option String
  script : Option String
  json : Bool
  maxDepth : Option String
  verbosity : Nat

def helpText : String :=
  "\n".intercalate [
    "Tortuga - a Logo interpreter",
    "",
    "USAGE:",
    "    tortuga <SCRIPT>          Run a script file",
    "    tortuga -e <CODE>         Evaluate inline script",
    "    tortuga -r                Start REPL",
    "    tortuga -h                Show this help",
    "    cat file | tortuga        Read script from stdin",
    "",
    "OPTIONS:",
    "    -e, --eval <CODE>         Evaluate inline script",
    "    -o, --output <MODE>       Output mode: text (default) or json",
    "    -d, --max-depth <N>       Maximum number of active calls (default " ++
      toString Machine.defaultMaxDepth ++ ")",
    "    -v, --verbose             Log engine activity to stderr (-vv for trace)",
    "",
    "ENVIRONMENT:",
    "    TORTUGA_MAX_DEPTH         Default for --max-depth",
    "    TORTUGA_LOG               Log level: off, error, warn, info, debug, trace"]

def refuse (message : String) : Result :=
  .of argumentError (Streams.empty.complain message)

def help (code : Nat) : Result :=
  .of code (Streams.empty.printLine helpText)

/-- The options before any argument has been read. -/
def initialOptions (invocation : Invocation) : Options where
  dialogue := false
  code := none
  script := none
  json := false
  maxDepth := invocation.setting "TORTUGA_MAX_DEPTH"
  verbosity := 0

/-- Reads the arguments in order. The first that asks for help or makes no sense decides. -/
def parse (options : Options) : List String → Except Result Options
  | [] => .ok options
  | argument :: rest =>
    match argument with
    | "-h" | "--help" => .error (help 0)
    | "-r" | "--repl" => parse { options with dialogue := true } rest
    | "-v" | "--verbose" => parse { options with verbosity := options.verbosity + 1 } rest
    | "-vv" => parse { options with verbosity := options.verbosity + 2 } rest
    | "-e" | "--eval" =>
      match rest with
      | code :: rest => parse { options with code := some code } rest
      | [] => .error (refuse "Error: -e requires a script argument")
    | "-o" | "--output" =>
      match rest with
      | "text" :: rest => parse { options with json := false } rest
      | "json" :: rest => parse { options with json := true } rest
      | _ => .error (refuse "Error: -o requires 'text' or 'json'")
    | "-d" | "--max-depth" =>
      match rest with
      | depth :: rest => parse { options with maxDepth := some depth } rest
      | [] => .error (refuse "Error: -d requires a number")
    | _ =>
      if argument.startsWith "-" then .error (refuse ("Unknown option: " ++ argument))
      else parse { options with script := some argument } rest

/-- A positive number of 64 bits, perhaps with a plus sign. -/
def readDepth (text : String) : Option Nat :=
  let digits := match text.toList with
    | '+' :: digits => digits
    | digits => digits
  let depth := digitsValue digits
  if !digits.isEmpty && digits.all Char.isDigit && 0 < depth && depth < UInt64.size then some depth
  else none

/-- A log level by name, in small or capital letters. -/
def readThreshold (name : String) : Option (Option LogLevel) :=
  match name.toLower with
  | "off" => some none
  | "error" => some (some .error)
  | "warn" => some (some .warn)
  | "info" => some (some .info)
  | "debug" => some (some .debug)
  | "trace" => some (some .trace)
  | _ => none

/-- What is logged: more for each `-v`, and without any what the environment says. -/
def threshold (invocation : Invocation) (options : Options) : Option LogLevel :=
  match options.verbosity with
  | 0 => ((invocation.setting "TORTUGA_LOG").bind readThreshold).getD (some .warn)
  | 1 => some .debug
  | _ => some .trace

/-- The lines of the standard input, without the marks that end them. -/
def inputLines (input : String) : List String :=
  let lines := Text.splitLines input.toList
  let lines := if lines.getLast? == some [] then lines.dropLast else lines
  lines.map fun line => String.ofList (line.reverse.dropWhile (· == '\r')).reverse

/-- The file that holds the script, where it is to be read from one. -/
def scriptPath? (invocation : Invocation) : Option String :=
  match parse (initialOptions invocation) invocation.arguments with
  | .ok options => if options.dialogue || options.code.isSome then none else options.script
  | .error _ => none

/-- The script to run, and the lines of input that are left for it. -/
def findSource (invocation : Invocation) (options : Options) :
    Except Result (String × List String) :=
  match options.code, options.script with
  | some code, _ => .ok (code, inputLines invocation.input)
  | none, some path =>
    match invocation.fileText path with
    | .ok source => .ok (source, inputLines invocation.input)
    | .error reason => .error (refuse ("Error reading file '" ++ path ++ "': " ++ reason))
  | none, none =>
    if (Text.trim invocation.input).isEmpty then .error (help argumentError)
    else .ok (invocation.input, [])

/-- Runs a script whose output goes straight to the output stream. -/
def runText (fuel : Nat) (machine : Machine) (source : String) : Result :=
  match Machine.completeScript fuel source machine with
  | .ok value machine =>
    let machine := machine.note .info fun machine =>
      "completed in 0ms with " ++ (machine.view (value.getD .none)).source
    .of 0 (Streams.empty.drain machine).1
  | .error error machine =>
    let (streams, _) := Streams.empty.drain (machine.noteFailure error)
    .of scriptError (streams.complain (error.diagnostic.detailed source))

/-- The entries of a report for all that a program has written. -/
def consoleEntries (machine : Machine) : List ConsoleEntry :=
  ((Recorder.new.write machine.world.console.output).take.1).map (⟨0, ·⟩)

/-- Runs a script and reports it in JSON. -/
def runJson (fuel : Nat) (machine : Machine) (source : String) : Result :=
  match Machine.completeScript fuel source machine with
  | .ok value machine =>
    let (streams, machine) := Streams.empty.drainLog machine
    let value := machine.view (value.getD .none)
    .of 0 (streams.printLine (scriptReport value 0 (consoleEntries machine)))
  | .error error machine =>
    let (streams, machine) := Streams.empty.drainLog (machine.noteFailure error)
    let report := errorReport error.diagnostic machine.backtrace (consoleEntries machine)
    .of scriptError (streams.printLine report)

/-- The greatest number of active calls that the options allow. -/
def depthLimit (options : Options) : Except Result Nat :=
  match options.maxDepth with
  | none => .ok Machine.defaultMaxDepth
  | some text =>
    match readDepth text with
    | some depth => .ok depth
    | none => .error (refuse "Error: max depth must be a positive number")

/-- Does what the arguments ask for. -/
def attempt (fuel : Nat) (invocation : Invocation) : Except Result Result := do
  let options ← parse (initialOptions invocation) invocation.arguments
  let maxDepth ← depthLimit options
  let level := threshold invocation options
  if options.dialogue then
    return .of 0 (Dialogue.hold fuel maxDepth level (inputLines invocation.input))
  let (source, input) ← findSource invocation options
  let machine := (Machine.new maxDepth (.new input) (.new level)).noteProcedures
  if options.json then return runJson fuel machine source
  else return runText fuel machine source

/-- The result of a call of the command, with a bound on the steps of every run. -/
def run (fuel : Nat) (invocation : Invocation) : Result :=
  match attempt fuel invocation with
  | .ok result | .error result => result

end Logo.CommandLine
