import Logo.Machine.Run

/-!
# Machines with other special forms

The machine with its special forms as a parameter: everything from a step of a form up to a script
that is run through all pauses. The machine itself is the case of the forms that it has.
-/

namespace Logo

/-- What each special form does with its inputs, the point it has reached and the result of the work
that it asked for. -/
abbrev Forms := Special → List Value → Option Continuation → Option Value → Action Progress

namespace Forms

variable [Segmentation]

abbrev standard : Forms := World.runSpecial

/-- The forms with a pause that has no result and does not stop the machine. -/
def steady : Forms := fun form inputs continuation finished =>
  match form with
  | .pause => return .done .none
  | form => World.runSpecial form inputs continuation finished

variable (forms : Forms)

def stepSpecial (frame : Frame) (form : Special) : Engine Unit := do
  let { continuation, result, .. } := frame
  let frame := { frame with continuation := none, result := none }
  Machine.setTop frame
  match ← Machine.inWorld (forms form frame.arguments continuation result) with
  | .done value => Machine.setTop (frame.finish value)
  | .output value => modify (·.output value)
  | .pause =>
    Machine.setTop (frame.finish .none)
    modify Machine.pause
  | .call site continuation =>
    Machine.setTop { frame with continuation := some continuation }
    Machine.schedule site
  | .bounded program continuation =>
    Machine.setTop { frame with continuation := some continuation }
    modify (·.beginBounded program)

def invoke (frame : Frame) : Engine Unit := do
  let definition := frame.definition
  if frame.arguments.length < definition.arity then
    throw (.notEnoughInputs definition.name definition.arity frame.arguments.length)
  let unbound := !frame.bound
  let frame := { frame with bound := true }
  Machine.setTop frame
  if unbound && !definition.isSpecial then
    Machine.inWorld (Machine.bindInputs definition.params frame.arguments)
  match definition.kind with
  | .native action =>
    modify fun machine => machine.note .trace fun _ => "call primitive " ++ definition.name
    let value ← Machine.inWorld (World.runNative action frame.arguments)
    Machine.setTop (frame.finish value)
  | .special form => forms.stepSpecial frame form
  | .userDefined => Machine.stepBody frame

def tick : Engine Bool := do
  let machine ← get
  if machine.paused then return machine.hasWork
  match machine.frames.top? with
  | none => Machine.advanceProgram
  | some frame =>
    if frame.evaluated then set machine.unschedule.2
    else if frame.needsArguments then Machine.evaluateInput frame
    else forms.invoke frame
  return (← get).hasWork

def drive (machine : Machine) : Nat → EStateM.Result RuntimeError Machine (Option Value)
  | 0 => .ok none machine
  | fuel + 1 =>
    if machine.paused then .ok (some machine.lastResult) machine
    else
      match forms.tick machine with
      | .ok true machine => drive machine fuel
      | .ok false machine => .ok (some machine.lastResult) machine
      | .error error machine =>
        .error error (machine.note .warn fun machine =>
          error.message ++ " (in " ++ " <- ".intercalate machine.backtrace ++ ")")

def run (fuel : Nat) (program : Value) : Engine (Option Value) := fun machine =>
  let machine := if machine.hasWork then machine else { machine with lastResult := .none }
  forms.drive (machine.load program) fuel

def resume (fuel : Nat) : Engine (Option Value) := fun machine =>
  let machine := if machine.paused then
      { machine.note .debug fun machine => "resume at depth " ++ toString machine.depth with
        paused := false }
    else machine
  forms.drive machine fuel

def runScript (fuel : Nat) (source : String) : EStateM Error Machine Outcome := do
  let program ← Machine.readProgramList source
  let value ← Machine.running (forms.run fuel program)
  return (← get).outcome value

def resumeScript (fuel : Nat) : EStateM Error Machine Outcome := do
  let value ← Machine.running (forms.resume fuel)
  return (← get).outcome value

def finishScript (fuel pauses : Nat) : Nat → Outcome → EStateM Error Machine (Option Value)
  | _, .completed value => return some value
  | _, .exhausted => return none
  | 0, .paused => return none
  | rounds + 1, .paused => do
    modify fun machine => machine.note .info fun machine =>
      "paused (" ++ toString (pauses + 1) ++ ") at depth " ++ toString machine.depth ++ ": " ++
        " <- ".intercalate machine.backtrace
    let outcome ← forms.resumeScript fuel
    finishScript fuel (pauses + 1) rounds outcome

def completeScript (fuel : Nat) (source : String) : EStateM Error Machine (Option Value) := do
  let outcome ← forms.runScript fuel source
  forms.finishScript fuel 0 fuel outcome

theorem tick_standard : standard.tick = Machine.tick := rfl

theorem drive_standard : standard.drive = Machine.drive := by
  funext machine fuel
  induction fuel generalizing machine with
  | zero => rfl
  | succ fuel ih =>
    rw [drive, Machine.drive, tick_standard]
    split
    · rfl
    · cases Machine.tick machine with
      | error cause after => rfl
      | ok more after =>
        cases more with
        | true => exact ih after
        | false => rfl

theorem run_standard : standard.run = Machine.run := by
  funext fuel program machine
  rw [run, Machine.run, drive_standard]

theorem resume_standard : standard.resume = Machine.resume := by
  funext fuel machine
  rw [resume, Machine.resume, drive_standard]

theorem runScript_standard : standard.runScript = Machine.runScript := by
  funext fuel source
  rw [runScript, Machine.runScript, run_standard]

theorem resumeScript_standard : standard.resumeScript = Machine.resumeScript := by
  funext fuel
  rw [resumeScript, Machine.resumeScript, resume_standard]

theorem finishScript_standard : standard.finishScript = Machine.finishScript := by
  funext fuel pauses rounds outcome
  induction rounds generalizing pauses outcome with
  | zero => cases outcome <;> rfl
  | succ rounds ih =>
    cases outcome with
    | completed value => rfl
    | exhausted => rfl
    | paused => simp only [finishScript, Machine.finishScript, resumeScript_standard, ih]

theorem completeScript_standard : standard.completeScript = Machine.completeScript := by
  funext fuel source
  rw [completeScript, Machine.completeScript, runScript_standard, finishScript_standard]

end Forms

end Logo
