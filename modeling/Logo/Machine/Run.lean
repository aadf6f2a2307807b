import Logo.Machine.Step

/-!
# Running programs

A run makes steps until there is no work left, the machine pauses, or a step fails. The number of
steps is bounded by a given fuel; a run that uses it up has no outcome.
-/

namespace Logo

/-- How a run ends that does not fail. -/
inductive Outcome where
  /-- The program has run out; this is the value of its last line. -/
  | completed (value : Value)
  /-- A pause has stopped the machine. -/
  | paused
  /-- The fuel has been used up. -/
  | exhausted

namespace Machine

variable [Segmentation]

/-- Steps until the work is done or the machine pauses. -/
def drive (machine : Machine) : Nat → EStateM.Result RuntimeError Machine (Option Value)
  | 0 => .ok none machine
  | fuel + 1 =>
    if machine.paused then .ok (some machine.lastResult) machine
    else
      match tick machine with
      | .ok true machine => machine.drive fuel
      | .ok false machine => .ok (some machine.lastResult) machine
      | .error error machine =>
        .error error (machine.note .warn fun machine =>
          error.message ++ " (in " ++ " <- ".intercalate machine.backtrace ++ ")")

/-- Runs a program behind all work that is left. While the machine is paused, the program only
waits. The value is that of the last line, or none if the fuel was not enough. -/
def run (fuel : Nat) (program : Value) : Engine (Option Value) := fun machine =>
  let machine := if machine.hasWork then machine else { machine with lastResult := .none }
  (machine.load program).drive fuel

/-- Goes on after a pause. -/
def resume (fuel : Nat) : Engine (Option Value) := fun machine =>
  let machine := if machine.paused then
      { machine.note .debug fun machine => "resume at depth " ++ toString machine.depth with
        paused := false }
    else machine
  machine.drive fuel

/-- The outcome of a run that has ended with a value, or with none. -/
def outcome (machine : Machine) : Option Value → Outcome
  | none => .exhausted
  | some value => if machine.paused then .paused else .completed value

/-- An action that can only fail while it runs. -/
def running {α : Type} (action : Engine α) : EStateM Error Machine α := fun machine =>
  match action machine with
  | .ok value machine => .ok value machine
  | .error error machine => .error (.runtime error) machine

/-- Reads a text as a program, placed in the store as a list. -/
def readProgramList (source : String) : EStateM Error Machine Value := fun machine =>
  match read source machine with
  | .ok program machine =>
    let (value, machine) := machine.place (.built program)
    .ok value machine
  | .error error machine => .error (.read error) machine

/-- Reads a script and runs it. -/
def runScript (fuel : Nat) (source : String) : EStateM Error Machine Outcome := do
  let program ← readProgramList source
  let value ← running (run fuel program)
  return (← get).outcome value

/-- Goes on with a script that has paused. -/
def resumeScript (fuel : Nat) : EStateM Error Machine Outcome := do
  let value ← running (resume fuel)
  return (← get).outcome value

/-- Goes on through all further pauses, of which there have been `pauses`. -/
def finishScript (fuel pauses : Nat) : Nat → Outcome → EStateM Error Machine (Option Value)
  | _, .completed value => return some value
  | _, .exhausted => return none
  | 0, .paused => return none
  | rounds + 1, .paused => do
    modify fun machine => machine.note .info fun machine =>
      "paused (" ++ toString (pauses + 1) ++ ") at depth " ++ toString machine.depth ++ ": " ++
        " <- ".intercalate machine.backtrace
    let outcome ← resumeScript fuel
    finishScript fuel (pauses + 1) rounds outcome

/-- Reads a script and runs it through all pauses. -/
def completeScript (fuel : Nat) (source : String) : EStateM Error Machine (Option Value) := do
  let outcome ← runScript fuel source
  finishScript fuel 0 fuel outcome

/-- Records which calls were active when a program failed. -/
def noteFailure (machine : Machine) : Error → Machine
  | .runtime error =>
    machine.note .warn fun machine =>
      error.message ++ " (depth " ++ toString machine.depth ++ "): " ++
        " <- ".intercalate machine.backtrace
  | .read _ => machine

end Machine

end Logo
