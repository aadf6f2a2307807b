import Logo.Primitive.Table
import Logo.Stack
import Logo.World

/-!
# The machine

All that a running program has to remember: the stack of active calls, the lines still to be run,
and for every bounded run that is open the stack and the lines that wait for its end. A call that is
active is a frame; the text of the program is never changed by running it.
-/

namespace Logo

/-- The lines of a block that are still to be run, and the value of the last one that has run. -/
structure Block where
  lines : List Datum
  value : Value

/-- The state of a template that runs for one value after another. -/
structure IterationState where
  /-- The value for which the template is running. -/
  current : Value
  /-- The values that come after it. -/
  pending : List Value
  /-- The results so far, the latest first. -/
  results : List Value
  /-- The values are the characters of a word. -/
  word : Bool

/-- What a special form keeps while the work it asked for is done. -/
inductive Continuation where
  | block (block : Block)
  /-- A block that is to be run `remaining` times more after this one. -/
  | repeating (remaining : Nat) (block : Block)
  | running
  | iterating (state : IterationState)

/-- An active call. -/
structure Frame where
  call : Call
  definition : Procedure
  /-- The inputs evaluated so far, in order. -/
  arguments : List Value
  /-- The inputs have been given to the procedure's variables. -/
  bound : Bool
  /-- The line of the body that comes next. -/
  cursor : Nat
  result : Option Value
  /-- The call is over and its result stands. -/
  evaluated : Bool
  continuation : Option Continuation

namespace Frame

def new (call : Call) (definition : Procedure) : Frame where
  call
  definition
  arguments := []
  bound := false
  cursor := 0
  result := none
  evaluated := false
  continuation := none

def needsArguments (frame : Frame) : Bool :=
  frame.arguments.length < frame.call.inputs.length

/-- The expression of the input that comes next. -/
def nextInput? (frame : Frame) : Option Datum :=
  frame.call.inputs[frame.arguments.length]?

def finish (frame : Frame) (result : Value) : Frame :=
  { frame with result := some result, evaluated := true }

/-- Takes in the value of a call that the frame has waited for: its next input, or else the result
of its work. -/
def receive (frame : Frame) (value : Value) : Frame :=
  if frame.needsArguments then { frame with arguments := frame.arguments ++ [value] }
  else { frame with result := some value }

end Frame

/-- The frames and lines that a bounded run has put aside. -/
structure Segment where
  frames : Stack Frame
  program : List Value

structure Machine where
  world : World
  frames : Stack Frame
  /-- The lines that are still to be run. -/
  program : List Value
  /-- What the open bounded runs have put aside, the innermost first. -/
  bounded : List Segment
  /-- The number of frames put aside. -/
  suspended : Nat
  lastResult : Value
  paused : Bool
  /-- The greatest number of frames that may be active. -/
  maxDepth : Nat
  /-- The number of active frames of each procedure. -/
  active : NameTable Nat

namespace Machine

/-- The bound on active frames where none is given. -/
def defaultMaxDepth : Nat :=
  100000

/-- A machine that knows the built-in procedures and has nothing to do. -/
def new (maxDepth : Nat) (console : Console) (log : Log) : Machine where
  world :=
    { World.empty with
      environment := { Environment.empty with procedures := .standard }
      console
      log }
  frames := .empty
  program := []
  bounded := []
  suspended := 0
  lastResult := .none
  paused := false
  maxDepth
  active := []

/-- The number of active frames, those put aside included. -/
def depth (machine : Machine) : Nat :=
  machine.frames.size + machine.suspended

def hasWork (machine : Machine) : Bool :=
  !machine.frames.isEmpty || !machine.program.isEmpty || !machine.bounded.isEmpty

/-- All active frames, the innermost first. -/
def allFrames (machine : Machine) : List Frame :=
  machine.frames.toList ++ machine.bounded.flatMap (·.frames.toList)

/-- The names by which the active procedures were called, the innermost first. -/
def backtrace (machine : Machine) : List String :=
  machine.allFrames.map (·.call.name)

/-- The place of the innermost call. -/
def currentSpan? (machine : Machine) : Option Span :=
  machine.frames.top?.map (·.call.span)

/-- Adds a record to the log if its level is kept. -/
@[inline]
def note (machine : Machine) (level : LogLevel) (message : Machine → String) : Machine :=
  if machine.world.log.keeps level then
    let log := machine.world.log.add level (message machine)
    { machine with world := { machine.world with log } }
  else machine

/-- Records how many procedures the machine knows. -/
def noteProcedures (machine : Machine) : Machine :=
  machine.note .debug fun machine =>
    "loaded " ++ toString machine.world.environment.procedures.entries.length ++ " primitives"

/-- The datum that a value holds. -/
def view (machine : Machine) (value : Value) : Datum :=
  machine.world.view value

/-- Puts a program behind the lines that are still to be run. -/
def load (machine : Machine) (program : Value) : Machine :=
  let lines := match program with
    | .list handle => machine.world.store.items handle
    | value => [value]
  { machine with program := machine.program ++ lines }

/-- Stops before the next step. -/
def pause (machine : Machine) : Machine :=
  let machine := if machine.paused then machine
    else machine.note .debug fun machine => "pause at depth " ++ toString machine.depth
  { machine with paused := true }

/-- Gives up all work. Procedures and global variables stay. -/
def reset (machine : Machine) : Machine :=
  { machine with
    world := { machine.world with environment := machine.world.environment.truncate }
    frames := .empty
    program := []
    bounded := []
    suspended := 0
    paused := false
    active := [] }

/-- The machine with another procedure table. -/
def withProcedures (machine : Machine) (procedures : Procedures) : Machine :=
  { machine with world := machine.world.withProcedures procedures }

/-- Reads a text as a program. Only the procedure table is worked on. -/
def read (source : String) : EStateM ReadError Machine (List Datum) := fun machine =>
  match readSource source machine.world.environment.procedures with
  | .ok program procedures => .ok program (machine.withProcedures procedures)
  | .error error procedures => .error error (machine.withProcedures procedures)

/-- Places a datum in the store, which is taken out of the machine meanwhile, so that it is not
copied. -/
def place (machine : Machine) (datum : Datum) : Value × Machine :=
  let world := machine.world
  let machine := { machine with world := .empty }
  let store := world.store
  let world := { world with store := .empty }
  let (value, store) := store.place datum
  (value, { machine with world := { world with store } })

end Machine

end Logo
