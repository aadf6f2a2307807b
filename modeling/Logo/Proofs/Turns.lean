import Logo.Proofs.Steps

/-!
# Turns

What a step does for a call that is at work depends on two things only, the frame of the call and
the world. Both are changed, and then something may be asked of the rest of the machine: that
another call starts, that a procedure ends, that the machine pauses or that lines are run on their
own.
-/

namespace Logo

/-- What is asked of the machine around the innermost frame. -/
inductive Move where
  | stay
  | fail (cause : RuntimeError)
  | call (site : Call)
  | output (value : Value)
  | pause
  | bounded (program : List Value)

def Move.IsPlain : Move → Prop
  | .stay | .fail _ | .call _ => True
  | .output _ | .pause | .bounded _ => False

/-- What a call asks for that is not over by that. -/
def Move.Waits : Move → Prop
  | .call _ | .bounded _ => True
  | .stay | .fail _ | .output _ | .pause => False

/-- The innermost frame and the world after a step, and what is asked for then. -/
structure Turn where
  frame : Frame
  world : World
  move : Move

structure Turn.Of (turn : Turn) (frame : Frame) : Prop where
  call : turn.frame.call = frame.call
  definition : turn.frame.definition = frame.definition
  evaluated : turn.move.Waits → turn.frame.evaluated = frame.evaluated

namespace Frame

def takeInput (frame : Frame) (world : World) : Turn :=
  match frame.nextInput? with
  | some (.call site) => ⟨frame, world, .call site⟩
  | some literal =>
    ⟨{ frame with arguments := frame.arguments ++ [(world.store.place literal).1] },
      world.placed literal, .stay⟩
  | none => ⟨frame, world, .stay⟩

def takeLine (frame : Frame) (world : World) : Turn :=
  let next := { frame with cursor := frame.cursor + 1 }
  match frame.definition.body[frame.cursor]? with
  | some (.call site) => ⟨next, world, .call site⟩
  | some (.atom (.symbol name)) => ⟨next, world, .fail (.unknownProcedure name)⟩
  | some (.procedure _) => ⟨next, world, .stay⟩
  | some literal =>
    ⟨{ next with result := some (world.store.place literal).1 }, world.placed literal, .stay⟩
  | none => ⟨frame.finish (frame.result.getD .nil), world, .stay⟩

def conclude (frame : Frame) : EStateM.Result RuntimeError World Value → Turn
  | .ok value world => ⟨frame.finish value, world, .stay⟩
  | .error cause world => ⟨frame, world, .fail cause⟩

def proceed (frame : Frame) : EStateM.Result RuntimeError World Progress → Turn
  | .error cause world => ⟨frame, world, .fail cause⟩
  | .ok (.done value) world => ⟨frame.finish value, world, .stay⟩
  | .ok (.output value) world => ⟨frame, world, .output value⟩
  | .ok .pause world => ⟨frame.finish .none, world, .pause⟩
  | .ok (.call site continuation) world =>
    ⟨{ frame with continuation := some continuation }, world, .call site⟩
  | .ok (.bounded program continuation) world =>
    ⟨{ frame with continuation := some continuation }, world, .bounded program⟩

end Frame

namespace Machine

variable {machine : Machine} {frame : Frame}

/-- The machine does what a turn asks for. -/
def make (machine : Machine) (turn : Turn) : EStateM.Result RuntimeError Machine Unit :=
  let next := machine.withTop turn.frame turn.world
  match turn.move with
  | .stay => .ok () next
  | .fail cause => .error cause next
  | .call site => schedule site next
  | .output value => .ok () (next.output value)
  | .pause => .ok () next.pause
  | .bounded program => .ok () (next.beginBounded program)

theorem withTop_withTop (machine : Machine) (first second : Frame) (world other : World) :
    (machine.withTop first world).withTop second other = machine.withTop second other := by
  rw [withTop, withTop, withTop, Stack.replaceTop_replaceTop]

theorem withTop_self (htop : machine.frames.top? = some frame) :
    machine.withTop frame machine.world = machine := by
  have hsame : machine.frames.replaceTop frame = machine.frames := by
    rw [Stack.eq_push_of_top? htop, Stack.replaceTop_push]
  rw [withTop, hsame]

/-- A turn says what the innermost frame becomes, so what it was before does not matter. -/
theorem make_withTop (machine : Machine) (frame : Frame) (world : World) (turn : Turn) :
    (machine.withTop frame world).make turn = machine.make turn := by
  rw [make, make, withTop_withTop]

theorem evaluateInput_eq (htop : machine.frames.top? = some frame) :
    evaluateInput frame machine = machine.make (frame.takeInput machine.world) := by
  rw [evaluateInput_apply, Frame.takeInput]
  cases frame.nextInput? with
  | none => exact congrArg (EStateM.Result.ok ()) (withTop_self htop).symm
  | some input =>
    cases input with
    | call site => exact congrArg (schedule site) (withTop_self htop).symm
    | atom value => rfl
    | list items source span => rfl
    | procedure definition => rfl

theorem stepBody_eq (frame : Frame) (machine : Machine) :
    stepBody frame machine = machine.make (frame.takeLine machine.world) := by
  rw [stepBody_apply, Frame.takeLine]
  dsimp only
  cases frame.definition.body[frame.cursor]? with
  | none => rfl
  | some line =>
    cases line with
    | call site => rfl
    | procedure definition => rfl
    | list items source span => rfl
    | atom value => cases value <;> rfl

theorem conclude_eq (machine : Machine) (frame : Frame)
    (result : EStateM.Result RuntimeError World Value) :
    machine.conclude frame result = machine.make (frame.conclude result) := by
  cases result <;> rfl

theorem proceed_eq (machine : Machine) (frame : Frame)
    (result : EStateM.Result RuntimeError World Progress) :
    machine.proceed frame result = machine.make (frame.proceed result) := by
  cases result with
  | error cause world => rfl
  | ok progress world => cases progress <;> rfl

end Machine

def World.traced (world : World) (definition : Procedure) : World :=
  { world with log := world.log.noted .trace ("call primitive " ++ definition.name) }

namespace Forms

variable [Segmentation] (forms : Forms)

variable {frame : Frame}

/-- What a call does next that is at work. -/
def turn (frame : Frame) (world : World) : Turn :=
  if frame.needsArguments then frame.takeInput world
  else if frame.arguments.length < frame.definition.arity then
    ⟨frame, world, .fail (.notEnoughInputs frame.definition.name frame.definition.arity
      frame.arguments.length)⟩
  else
    let bound := { frame with bound := true }
    let ready := world.prepared frame
    match frame.definition.kind with
    | .native action =>
      bound.conclude (World.runNative action frame.arguments (ready.traced frame.definition))
    | .special form =>
      { bound with continuation := none, result := none }.proceed
        (forms form frame.arguments frame.continuation frame.result ready)
    | .userDefined => bound.takeLine ready

/-- Only a special form can ask for more than a call. -/
theorem turn_cases (frame : Frame) (world : World) :
    (forms.turn frame world).move.IsPlain ∨
      ∃ form, frame.definition.kind = .special form ∧ frame.needsArguments = false ∧
        frame.definition.arity ≤ frame.arguments.length ∧
        forms.turn frame world =
          { frame with bound := true, continuation := none, result := none }.proceed
            (forms form frame.arguments frame.continuation frame.result
              (world.prepared frame)) := by
  rw [turn]
  split
  · left
    rw [Frame.takeInput]
    split <;> trivial
  · rename_i hneeds
    split
    · exact .inl trivial
    · rename_i henough
      cases hkind : frame.definition.kind with
      | native action =>
        left
        dsimp only
        cases World.runNative action frame.arguments _ <;> trivial
      | special form =>
        exact .inr ⟨form, rfl, eq_false_of_ne_true hneeds, Nat.le_of_not_lt henough, rfl⟩
      | userDefined =>
        left
        dsimp only
        rw [Frame.takeLine]
        dsimp only
        split <;> trivial

theorem turn_of_special {form : Special} (hcomplete : frame.needsArguments = false)
    (henough : frame.definition.arity ≤ frame.arguments.length)
    (hkind : frame.definition.kind = .special form) (world : World) :
    forms.turn frame world = { frame with bound := true, continuation := none, result := none }.proceed
      (forms form frame.arguments frame.continuation frame.result world) := by
  have hspecial : frame.definition.isSpecial = true := by rw [Procedure.isSpecial, hkind]
  rw [turn, if_neg (Bool.eq_false_iff.mp hcomplete), if_neg (Nat.not_lt.mpr henough), hkind,
    World.prepared_of_special hspecial]

theorem turn_of (frame : Frame) (world : World) : (forms.turn frame world).Of frame := by
  rw [turn]
  split
  · rw [Frame.takeInput]
    split <;> exact ⟨rfl, rfl, fun _ => rfl⟩
  · split
    · exact ⟨rfl, rfl, fun _ => rfl⟩
    · cases frame.definition.kind with
      | native action =>
        dsimp only
        cases World.runNative action frame.arguments _ <;> exact ⟨rfl, rfl, False.elim⟩
      | special form =>
        dsimp only
        cases forms form frame.arguments frame.continuation frame.result _ with
        | error cause after => exact ⟨rfl, rfl, False.elim⟩
        | ok progress after => cases progress <;> exact ⟨rfl, rfl, fun hwaits => by trivial⟩
      | userDefined =>
        dsimp only
        rw [Frame.takeLine]
        dsimp only
        split <;> exact ⟨rfl, rfl, fun hwaits => by trivial⟩

theorem step_of_open {machine : Machine} (htop : machine.frames.top? = some frame)
    (hopen : frame.evaluated = false) :
    forms.step machine = machine.make (forms.turn frame machine.world) := by
  rw [step, htop]
  dsimp only
  rw [if_neg (Bool.eq_false_iff.mp hopen), turn]
  split
  · exact Machine.evaluateInput_eq htop
  · rw [invoke_apply]
    split
    · exact congrArg (EStateM.Result.error _) (Machine.withTop_self htop).symm
    · cases frame.definition.kind with
      | native action =>
        dsimp only
        rw [Machine.conclude_eq, Machine.note_apply]
        rfl
      | special form =>
        dsimp only
        rw [stepSpecial_apply, Machine.proceed_eq, Machine.make_withTop]
        rfl
      | userDefined =>
        dsimp only
        rw [Machine.stepBody_eq, Machine.make_withTop]
        rfl

end Forms

namespace Machine

variable [Segmentation] {machine : Machine} {frame : Frame}

/-- A call that is not over takes a turn. -/
theorem step_of_open (htop : machine.frames.top? = some frame) (hopen : frame.evaluated = false) :
    step machine = machine.make (Forms.standard.turn frame machine.world) :=
  Forms.standard.step_of_open htop hopen

/-- A special form that has all its inputs is run. -/
theorem step_of_special {form : Special} (htop : machine.frames.top? = some frame)
    (hopen : frame.evaluated = false) (hcomplete : frame.needsArguments = false)
    (henough : frame.definition.arity ≤ frame.arguments.length)
    (hkind : frame.definition.kind = .special form) :
    step machine =
      machine.proceed { frame with bound := true, continuation := none, result := none }
        (World.runSpecial form frame.arguments frame.continuation frame.result machine.world) := by
  rw [step_of_open htop hopen, proceed_eq,
    Forms.standard.turn_of_special hcomplete henough hkind]

/-- A step takes the next line, ends a call or is a turn of a call. -/
theorem step_cases (machine : Machine) :
    (machine.frames.top? = none ∧ step machine = advanceProgram machine) ∨
      ∃ frame, machine.frames.top? = some frame ∧
        ((frame.evaluated = true ∧ step machine = .ok () machine.unschedule.2) ∨
          (frame.evaluated = false ∧
            step machine = machine.make (Forms.standard.turn frame machine.world))) := by
  cases htop : machine.frames.top? with
  | none =>
    left
    rw [step, htop]
    exact ⟨rfl, rfl⟩
  | some frame =>
    refine .inr ⟨frame, rfl, ?_⟩
    cases hevaluated : frame.evaluated with
    | true =>
      left
      rw [step, htop]
      dsimp only
      rw [hevaluated]
      exact ⟨rfl, rfl⟩
    | false => exact .inr ⟨rfl, step_of_open htop hevaluated⟩

end Machine

end Logo
