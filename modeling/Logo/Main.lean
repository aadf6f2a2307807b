import Logo.CommandLine

/-!
# The program

Gathers what a call of the command depends on, and writes what it leaves behind. The standard input
is read to its end first, unless it is a terminal and no dialogue is asked for.
-/

namespace Logo

/-- Why a file cannot be read. -/
def readFailure : IO.Error → String
  | .noFileOrDirectory .. => "No such file or directory (os error 2)"
  | .permissionDenied .. => "Permission denied (os error 13)"
  | .inappropriateType .. => "Is a directory (os error 21)"
  | error => toString error

def readScript (path : String) : IO (Except String String) := do
  try
    return .ok (← IO.FS.readFile path)
  catch error =>
    return .error (readFailure error)

end Logo

def main (arguments : List String) : IO UInt32 := do
  let depth ← IO.getEnv "TORTUGA_MAX_DEPTH"
  let level ← IO.getEnv "TORTUGA_LOG"
  let stdin ← IO.getStdin
  let typed ← stdin.isTty
  let asksDialogue := arguments.any fun argument => argument == "-r" || argument == "--repl"
  let input ← if typed && !asksDialogue then pure "" else stdin.readToEnd
  let setting (name : String) : Option String :=
    if name == "TORTUGA_MAX_DEPTH" then depth
    else if name == "TORTUGA_LOG" then level
    else none
  let invocation : Logo.CommandLine.Invocation := ⟨arguments, setting, fun _ => .error "", input⟩
  let script ← match Logo.CommandLine.scriptPath? invocation with
    | some path => Logo.readScript path
    | none => pure (.ok "")
  let result := Logo.CommandLine.run (Nat.pow 2 62) { invocation with fileText := fun _ => script }
  (← IO.getStdout).putStr result.out
  (← IO.getStderr).putStr result.err
  return result.code.toUInt32
