import Logo.Proofs.Orderly

/-!
# A recursive evaluator

What a call means, said by recursion on calls and without frames, cursors or continuations. Inputs
come before the procedure and are evaluated from left to right; a call has a scope of its own while
it is evaluated, unless it is of a special form.

The evaluator has to know how many calls may still be nested, its room, and it gives up where a call
would need more. It gives up too at the forms that are about the stack of calls itself: those that
leave a procedure, stop the machine, or run on a stack of their own.
-/

namespace Logo

/-- Why an evaluation gives no value. -/
inductive Interruption where
  | failed (cause : RuntimeError)
  /-- The evaluation would be of a form that it does not know, or would need more room. -/
  | outside

abbrev Evaluation := EStateM Interruption World

namespace World

def opened (world : World) (definition : Procedure) : World :=
  { world with
    environment := if definition.isSpecial then world.environment
      else world.environment.push (.new definition.name) }

def closed (world : World) (definition : Procedure) : World :=
  { world with
    environment := if definition.isSpecial then world.environment else world.environment.pop }

end World

namespace Evaluation

variable {α : Type}

def perform (action : Action α) : Evaluation α := fun world =>
  match action world with
  | .ok value world => .ok value world
  | .error cause world => .error (.failed cause) world

def lookup (name : String) : Evaluation Procedure := do
  match (← get).environment.procedures.find? name with
  | some definition => return definition
  | none => throw (.failed (.unknownProcedure name))

section Calls

-- How the calls inside are evaluated.
variable (evaluate : Call → Evaluation Value)

def evaluateInput : Datum → Evaluation Value
  | .call site => evaluate site
  | literal => perform (World.place literal)

/-- Runs lines one after another. The value is that of the last line, or the given one if there is
none. -/
def runLines (value : Value) : List Datum → Evaluation Value
  | [] => return value
  | .call site :: lines => do runLines (← evaluate site) lines
  | .atom (.symbol name) :: _ => throw (.failed (.unknownProcedure name))
  | .procedure _ :: lines => runLines value lines
  | literal :: lines => do runLines (← perform (World.place literal)) lines

def runBlock (handle : ListHandle) : Evaluation Value := do
  runLines evaluate .nil (← perform (World.readBlock handle))

def runRounds (handle : ListHandle) (value : Value) : Nat → Evaluation Value
  | 0 => return value
  | rounds + 1 => do runRounds handle (← runBlock evaluate handle) rounds

def runForm (form : Special) (inputs : List Value) : Evaluation Value :=
  let first := inputs.getD 0 .nil
  let second := inputs.getD 1 .nil
  let third := inputs.getD 2 .nil
  match form with
  | .thing => do
    let name ← perform (World.expectName first)
    match (← get).environment.thing? name with
    | some value => return value
    | none => throw (.failed (.unknownVariable name))
  | .declare => do
    let name ← perform (World.expectName first)
    perform (World.declare name)
    return .none
  | .make => do
    let name ← perform (World.expectName first)
    perform (World.make name second)
    return second
  | .declareMake => do
    let name ← perform (World.expectName first)
    perform (World.declare name)
    perform (World.make name second)
    return second
  | .ifThen => do
    if ← perform (World.expectBoolean first) then
      runBlock evaluate (← perform (World.expectList second))
    else return .nil
  | .ifElse => do
    let branch := if ← perform (World.expectBoolean first) then second else third
    runBlock evaluate (← perform (World.expectList branch))
  | .repeatBlock => do
    let handle ← perform (World.expectList second)
    let count ← perform (World.expectInteger first)
    runRounds evaluate handle .nil count.toInt.toNat
  | .output | .stop | .run | .pause | .iterate _ => throw .outside

variable [Segmentation]

def runProcedure (definition : Procedure) (inputs : List Value) : Evaluation Value :=
  match definition.kind with
  | .native action => perform (World.runNative action inputs)
  | .userDefined => runLines evaluate .nil definition.body
  | .special form => runForm evaluate form inputs

/-- Applies a procedure to its inputs, which a special form does not see as variables. -/
def applyTo (definition : Procedure) (inputs : List Value) : Evaluation Value := do
  if inputs.length < definition.arity then
    throw (.failed (.notEnoughInputs definition.name definition.arity inputs.length))
  unless definition.isSpecial do
    perform (Machine.bindInputs definition.params inputs)
  runProcedure evaluate definition inputs

end Calls

def leave (definition : Procedure) (value : Value) : Evaluation Value := do
  modify (·.closed definition)
  return value

variable [Segmentation]

def evaluate : Nat → Call → Evaluation Value
  | 0, call => do
    let _ ← lookup call.name
    throw .outside
  | room + 1, call => do
    let definition ← lookup call.name
    modify (·.opened definition)
    let inputs ← call.inputs.mapM (evaluateInput (evaluate room))
    let value ← applyTo (evaluate room) definition inputs
    leave definition value

end Evaluation

end Logo
