import Logo.Native
import Logo.Special

/-!
# One step of the machine

A step looks at the innermost frame: it takes the next line if there is none, hands the result on if
the frame is over, evaluates the next input if one is missing, and otherwise runs the procedure. A
step that fails leaves the machine as it stands at the failure, and the machine can go on from
there.
-/

namespace Logo

abbrev Engine := EStateM RuntimeError Machine

namespace Machine

variable [Segmentation]

/-- Runs an action on the machine's world, which is taken out of the machine meanwhile, so that it
is not copied. -/
@[inline]
def inWorld {α : Type} (action : Action α) : Engine α := fun machine =>
  let world := machine.world
  let machine := { machine with world := .empty }
  match action world with
  | .ok value world => .ok value { machine with world }
  | .error error world => .error error { machine with world }

def modifyEnvironment (machine : Machine) (change : Environment → Environment) : Machine :=
  { machine with
    world := { machine.world with environment := change machine.world.environment } }

/-- Starts a call: the procedure gets a frame, and a scope unless it is a special form. -/
def schedule (call : Call) : Engine Unit := do
  let machine ← get
  match machine.world.environment.procedures.find? call.name with
  | none => throw (.unknownProcedure call.name)
  | some definition =>
    let depth := machine.depth
    if machine.maxDepth ≤ depth then throw (.tooDeep definition.name depth)
    let count := (machine.active.get? definition.name).getD 0
    let machine := if 0 < count && definition.isUserDefined then
        machine.note .debug fun _ =>
          "recursive call to " ++ definition.name ++ " (" ++ toString count ++ " active)"
      else machine
    let machine := { machine with active := machine.active.insert definition.name (count + 1) }
    let machine := machine.note .trace fun _ =>
      "schedule " ++ definition.name ++ " at depth " ++ toString (depth + 1)
    let machine := if definition.isSpecial then machine
      else machine.modifyEnvironment (·.push (.new definition.name))
    set { machine with frames := machine.frames.push (.new call definition) }

/-- Takes back what a frame has claimed: its scope and its place among the active ones. -/
def release (machine : Machine) (frame : Frame) : Machine :=
  let name := frame.definition.name
  let machine := if frame.definition.isSpecial then machine
    else machine.modifyEnvironment (·.pop)
  match machine.active.get? name with
  | some count =>
    { machine with
      active := if count - 1 = 0 then machine.active.erase name
        else machine.active.insert name (count - 1) }
  | none => machine

/-- Hands a value to the innermost frame, which has waited for it. -/
def deliver (machine : Machine) (value : Value) : Machine :=
  match machine.frames.top? with
  | some parent => { machine with frames := machine.frames.replaceTop (parent.receive value) }
  | none => machine

/-- Ends the innermost frame and hands its result on. -/
def unschedule (machine : Machine) : Option Value × Machine :=
  match machine.frames.top? with
  | none => (none, machine)
  | some frame =>
    let machine := { machine with frames := machine.frames.pop }.release frame
    let result := frame.result.getD .nil
    let machine := machine.note .trace fun machine =>
      "unschedule " ++ frame.definition.name ++ " -> " ++ (machine.view result).source
    (some result, { machine.deliver result with lastResult := result })

/-- Gives up frames, the innermost first, so that `rest` are left. -/
def abandon (machine : Machine) (frames : List Frame) (rest : Stack Frame) : Machine :=
  frames.foldl (fun machine frame =>
    (machine.note .trace fun _ => "abandon " ++ frame.definition.name).release frame)
    { machine with frames := rest }

/-- Starts a program on a stack of its own. -/
def beginBounded (machine : Machine) (program : List Value) : Machine :=
  let machine := machine.note .debug fun machine =>
    "bounded run of " ++ toString program.length ++ " lines, saving " ++
      toString machine.frames.size ++ " frames"
  { machine with
    frames := .empty
    program
    bounded := ⟨machine.frames, machine.program⟩ :: machine.bounded
    suspended := machine.suspended + machine.frames.size
    lastResult := .nil }

/-- Goes back to the frames and lines that a bounded run has put aside. -/
def restore (machine : Machine) (saved : Segment) (outer : List Segment) : Machine :=
  { machine with
    frames := saved.frames
    program := saved.program
    bounded := outer
    suspended := machine.suspended - saved.frames.size }

/-- Ends a bounded run and hands its last value to the frame that has waited for it. -/
def endBounded (machine : Machine) (saved : Segment) (outer : List Segment) : Machine :=
  let result := machine.lastResult
  let machine := machine.note .debug fun machine =>
    "bounded run finished with " ++ (machine.view result).source
  let machine := machine.restore saved outer
  match machine.frames.top? with
  | some frame =>
    { machine with frames := machine.frames.replaceTop { frame with result := some result } }
  | none => machine

/-- Ends the innermost frame of a user-defined procedure with a value and gives up all frames inside
it. Bounded runs, those still open being `segments`, are left if they hold no such frame. Without
any such frame at all, the innermost frame of the outermost run ends. -/
def outputThrough (machine : Machine) (value : Value) (segments : List Segment) : Machine :=
  let frames := machine.frames.toList
  let above := frames.takeWhile (!·.definition.isUserDefined)
  match frames.dropWhile (!·.definition.isUserDefined) with
  | target :: _ =>
    machine.abandon above ((machine.frames.drop above.length).replaceTop (target.finish value))
  | [] =>
    match segments with
    | [] =>
      match machine.frames.top? with
      | some frame => { machine with frames := machine.frames.replaceTop (frame.finish value) }
      | none => machine
    | saved :: outer =>
      let machine := machine.note .debug fun _ =>
        "output leaves a bounded run, restoring " ++ toString saved.frames.size ++ " frames"
      let machine := (machine.abandon frames .empty).restore saved outer
      machine.outputThrough value outer

/-- Ends the procedure whose body is running. -/
def output (machine : Machine) (value : Value) : Machine :=
  machine.outputThrough value machine.bounded

/-- Changes the innermost frame. -/
def setTop (frame : Frame) : Engine Unit :=
  modify fun machine => { machine with frames := machine.frames.replaceTop frame }

/-- Takes the next line of the program, or ends the bounded run whose lines are used up. -/
def advanceProgram : Engine Unit := do
  let machine ← get
  match machine.program with
  | line :: program =>
    set { machine with program }
    match line with
    | .call site => schedule site
    | .atom (.symbol name) => throw (.unknownProcedure name)
    | .procedure definition =>
      modify fun machine =>
        let machine := machine.note .debug fun _ => "defined " ++ definition.header
        { machine with lastResult := .none }
    | literal => modify fun machine => { machine with lastResult := literal }
  | [] =>
    match machine.bounded with
    | saved :: outer => set (machine.endBounded saved outer)
    | [] => return

/-- Evaluates the next input of a frame: a call is started, a literal is copied. -/
def evaluateInput (frame : Frame) : Engine Unit := do
  match frame.nextInput? with
  | some (.call site) => schedule site
  | some literal =>
    let value ← inWorld (World.place literal)
    setTop { frame with arguments := frame.arguments ++ [value] }
  | none => return

/-- Gives the inputs to the procedure's variables. Every one is declared first, so that no outer
variable changes. -/
def bindInputs : List String → List Value → Action Unit
  | param :: params, value :: values => do
    World.declare param
    World.make param value
    bindInputs params values
  | _, _ => return

/-- Runs the next line of a body, or ends the call with the value of the last one. -/
def stepBody (frame : Frame) : Engine Unit := do
  match frame.definition.body[frame.cursor]? with
  | some line =>
    let frame := { frame with cursor := frame.cursor + 1 }
    setTop frame
    match line with
    | .call site => schedule site
    | .atom (.symbol name) => throw (.unknownProcedure name)
    | .procedure _ => return
    | literal =>
      let value ← inWorld (World.place literal)
      setTop { frame with result := some value }
  | none => setTop (frame.finish (frame.result.getD .nil))

/-- Runs a special form and does what it asks for. What the form has kept is given to it, and is
lost if it fails. -/
def stepSpecial (frame : Frame) (form : Special) : Engine Unit := do
  let { continuation, result, .. } := frame
  let frame := { frame with continuation := none, result := none }
  setTop frame
  match ← inWorld (World.runSpecial form frame.arguments continuation result) with
  | .done value => setTop (frame.finish value)
  | .output value => modify (·.output value)
  | .pause =>
    setTop (frame.finish .none)
    modify pause
  | .call site continuation =>
    setTop { frame with continuation := some continuation }
    schedule site
  | .bounded program continuation =>
    setTop { frame with continuation := some continuation }
    modify (·.beginBounded program)

/-- Runs the procedure of a frame that has all its inputs. -/
def invoke (frame : Frame) : Engine Unit := do
  let definition := frame.definition
  if frame.arguments.length < definition.arity then
    throw (.notEnoughInputs definition.name definition.arity frame.arguments.length)
  let unbound := !frame.bound
  let frame := { frame with bound := true }
  setTop frame
  if unbound && !definition.isSpecial then
    inWorld (bindInputs definition.params frame.arguments)
  match definition.kind with
  | .native action =>
    modify fun machine => machine.note .trace fun _ => "call primitive " ++ definition.name
    let value ← inWorld (World.runNative action frame.arguments)
    setTop (frame.finish value)
  | .special form => stepSpecial frame form
  | .userDefined => stepBody frame

/-- One step. The answer is whether there is work left. -/
def tick : Engine Bool := do
  let machine ← get
  if machine.paused then return machine.hasWork
  match machine.frames.top? with
  | none => advanceProgram
  | some frame =>
    if frame.evaluated then set machine.unschedule.2
    else if frame.needsArguments then evaluateInput frame
    else invoke frame
  return (← get).hasWork

end Machine

end Logo
