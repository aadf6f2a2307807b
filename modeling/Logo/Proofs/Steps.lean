import Logo.Proofs.Computation
import Logo.Proofs.Forms

/-!
# The steps, spelled out

Each part of a step is a sequence of small changes to the machine. Here every one of them is given
as one equation: what it makes of a machine as a whole. Proofs about runs of the machine start from
these equations.
-/

namespace Logo

namespace Stack

variable {α : Type}

@[ext]
theorem ext {left right : Stack α} (hlist : left.toList = right.toList) : left = right := by
  obtain ⟨leftList, leftSize, hleft⟩ := left
  obtain ⟨rightList, rightSize, hright⟩ := right
  dsimp only at hlist
  subst hlist
  rw [← hright] at hleft
  subst hleft
  rfl

@[simp]
theorem toList_push (stack : Stack α) (element : α) :
    (stack.push element).toList = element :: stack.toList := rfl

@[simp]
theorem toList_pop (stack : Stack α) : stack.pop.toList = stack.toList.tail := rfl

@[simp]
theorem toList_drop (stack : Stack α) (count : Nat) :
    (stack.drop count).toList = stack.toList.drop count := rfl

theorem toList_replaceTop (stack : Stack α) (element : α) :
    (stack.replaceTop element).toList =
      match stack.toList with
      | [] => []
      | _ :: rest => element :: rest := rfl

@[simp]
theorem replaceTop_replaceTop (stack : Stack α) (first second : α) :
    (stack.replaceTop first).replaceTop second = stack.replaceTop second := by
  ext1
  simp only [toList_replaceTop]
  cases stack.toList <;> rfl

@[simp]
theorem replaceTop_push (stack : Stack α) (first second : α) :
    (stack.push first).replaceTop second = stack.push second := by
  ext1
  rfl

@[simp]
theorem pop_push (stack : Stack α) (element : α) : (stack.push element).pop = stack := by
  ext1
  rfl

@[simp]
theorem top?_push (stack : Stack α) (element : α) : (stack.push element).top? = some element := rfl

@[simp]
theorem size_push (stack : Stack α) (element : α) : (stack.push element).size = stack.size + 1 :=
  rfl

/-- A stack with a top is what lies below with that top on it. -/
theorem eq_push_of_top? {stack : Stack α} {element : α} (htop : stack.top? = some element) :
    stack = stack.pop.push element := by
  ext1
  rw [top?] at htop
  rw [toList_push, toList_pop]
  cases helements : stack.toList with
  | nil =>
    rw [helements] at htop
    cases htop
  | cons first rest =>
    rw [helements] at htop
    cases htop
    rfl

theorem top?_replaceTop {stack : Stack α} {element : α} (htop : stack.top? = some element)
    (other : α) : (stack.replaceTop other).top? = some other := by
  rw [eq_push_of_top? htop, replaceTop_push, top?_push]

/-- What is left when the front is taken off. -/
theorem toList_drop_of_append {stack : Stack α} {front rest : List α}
    (hsplit : stack.toList = front ++ rest) : (stack.drop front.length).toList = rest := by
  rw [toList_drop, hsplit, List.drop_left]

theorem top?_drop_of_append {stack : Stack α} {front rest : List α} {element : α}
    (hsplit : stack.toList = front ++ element :: rest) :
    (stack.drop front.length).top? = some element :=
  congrArg List.head? (toList_drop_of_append hsplit)

theorem eq_empty_of_top? {stack : Stack α} (htop : stack.top? = none) : stack = empty := by
  ext1
  exact List.head?_eq_none_iff.mp htop

end Stack

namespace World

def placed (world : World) (datum : Datum) : World :=
  { world with store := (world.store.place datum).2 }

def bindAll (world : World) (params : List String) (values : List Value) : World :=
  (Machine.bindInputs params values world).state

/-- The world in which the call of a frame is performed: its inputs have been given to variables,
unless that was done before. -/
def prepared (world : World) (frame : Frame) : World :=
  if frame.bound || frame.definition.isSpecial then world
  else world.bindAll frame.definition.params frame.arguments

theorem prepared_of_special {frame : Frame} (hspecial : frame.definition.isSpecial = true)
    (world : World) : world.prepared frame = world := by
  rw [prepared, hspecial, Bool.or_true]
  rfl

end World

def Log.noted (log : Log) (level : LogLevel) (message : String) : Log :=
  if log.keeps level then log.add level message else log

namespace Machine

/-! ## Small changes -/

theorem note_apply (machine : Machine) (level : LogLevel) (message : Machine → String) :
    machine.note level message =
      { machine with
        world := { machine.world with
          log := machine.world.log.noted level (message machine) } } := by
  rw [note, Log.noted]
  split <;> rfl

/-- A record in the log changes nothing but the log. -/
theorem note_eq (machine : Machine) (level : LogLevel) (message : Machine → String) :
    machine.note level message =
      { machine with
        world := { machine.world with log := (machine.note level message).world.log } } := by
  rw [note]
  split <;> rfl

variable {machine : Machine}

theorem hasWork_eq_false_iff :
    machine.hasWork = false ↔
      machine.frames.toList = [] ∧ machine.program = [] ∧ machine.bounded = [] := by
  simp only [hasWork, Bool.or_eq_false_iff, Bool.not_eq_false', List.isEmpty_iff, Stack.isEmpty,
    and_assoc]

def withTop (machine : Machine) (frame : Frame) (world : World) : Machine :=
  { machine with world, frames := machine.frames.replaceTop frame }

theorem setTop_apply (frame : Frame) (machine : Machine) :
    setTop frame machine = .ok () (machine.withTop frame machine.world) := rfl

/-- Only the last of two changes of the innermost frame counts. -/
theorem setTop_withTop (first second : Frame) (machine : Machine) (world : World) :
    setTop second (machine.withTop first world) = .ok () (machine.withTop second world) := by
  rw [setTop_apply, withTop, withTop, Stack.replaceTop_replaceTop]
  rfl

variable {α : Type}

theorem inWorld_apply (action : Action α) (machine : Machine) :
    inWorld action machine =
      match action machine.world with
      | .ok value world => .ok value { machine with world }
      | .error cause world => .error cause { machine with world } := rfl

theorem inWorld_withTop (action : Action α) (frame : Frame) (machine : Machine) (world : World) :
    inWorld action (machine.withTop frame world) =
      match action world with
      | .ok value world => .ok value (machine.withTop frame world)
      | .error cause world => .error cause (machine.withTop frame world) := rfl

def enter (machine : Machine) (call : Call) (definition : Procedure) : Machine :=
  let depth := machine.depth
  let count := (machine.active.get? definition.name).getD 0
  let machine := if 0 < count && definition.isUserDefined then
      machine.note .debug fun _ =>
        "recursive call to " ++ definition.name ++ " (" ++ toString count ++ " active)"
    else machine
  let machine := { machine with active := machine.active.insert definition.name (count + 1) }
  let machine := machine.note .trace fun _ =>
    "schedule " ++ definition.name ++ " at depth " ++ toString (depth + 1)
  let machine := if definition.isSpecial then machine
    else machine.modifyEnvironment (·.push (.new definition.name))
  { machine with frames := machine.frames.push (.new call definition) }

theorem schedule_apply (call : Call) (machine : Machine) :
    schedule call machine =
      match machine.world.environment.procedures.find? call.name with
      | none => .error (.unknownProcedure call.name) machine
      | some definition =>
        if machine.maxDepth ≤ machine.depth then
          .error (.tooDeep definition.name machine.depth) machine
        else .ok () (machine.enter call definition) := by
  rw [schedule, get_bind_apply]
  change (match machine.world.environment.procedures.find? call.name with
    | none => _
    | some definition => _ : Engine Unit) machine = _
  cases machine.world.environment.procedures.find? call.name with
  | none => rfl
  | some definition =>
    dsimp only
    split <;> rfl

def entryLog (machine : Machine) (definition : Procedure) : Log :=
  let count := (machine.active.get? definition.name).getD 0
  let log := if 0 < count && definition.isUserDefined then
      machine.world.log.noted .debug
        ("recursive call to " ++ definition.name ++ " (" ++ toString count ++ " active)")
    else machine.world.log
  log.noted .trace ("schedule " ++ definition.name ++ " at depth " ++ toString (machine.depth + 1))

/-- Apart from what it records, the start of a call adds a frame, a scope unless the call is of a
special form, and one to the count of the procedure's name. -/
theorem enter_eq (machine : Machine) (call : Call) (definition : Procedure) :
    machine.enter call definition =
      { machine with
        world := { machine.world with
          environment := if definition.isSpecial then machine.world.environment
            else machine.world.environment.push (.new definition.name)
          log := machine.entryLog definition }
        frames := machine.frames.push (.new call definition)
        active := machine.active.insert definition.name
          ((machine.active.get? definition.name).getD 0 + 1) } := by
  have hfirst : ∀ (condition : Prop) [Decidable condition] (message : String),
      (if condition then machine.note .debug fun _ => message else machine) =
        { machine with
          world := { machine.world with
            log := if condition then machine.world.log.noted .debug message
              else machine.world.log } } := by
    intro condition _ message
    split
    · exact machine.note_apply .debug fun _ => message
    · rfl
  simp only [enter, hfirst]
  rw [note_apply]
  cases definition.isSpecial <;> rfl

def discount (active : NameTable Nat) (name : String) : NameTable Nat :=
  match active.get? name with
  | some count => if count - 1 = 0 then active.erase name else active.insert name (count - 1)
  | none => active

theorem release_eq (machine : Machine) (frame : Frame) :
    machine.release frame =
      { machine with
        world := { machine.world with
          environment := if frame.definition.isSpecial then machine.world.environment
            else machine.world.environment.pop }
        active := discount machine.active frame.definition.name } := by
  simp only [release, discount]
  cases frame.definition.isSpecial with
  | true =>
    simp only [if_true]
    cases machine.active.get? frame.definition.name <;> rfl
  | false =>
    simp only [Bool.false_eq_true, if_false, modifyEnvironment]
    cases machine.active.get? frame.definition.name <;> rfl

def received (frames : Stack Frame) (value : Value) : Stack Frame :=
  match frames.top? with
  | some parent => frames.replaceTop (parent.receive value)
  | none => frames

theorem deliver_eq (machine : Machine) (value : Value) :
    machine.deliver value = { machine with frames := received machine.frames value } := by
  rw [deliver, received]
  cases machine.frames.top? <;> rfl

theorem unschedule_eq {frame : Frame} (htop : machine.frames.top? = some frame) :
    machine.unschedule.2 =
      { ({ machine with frames := machine.frames.pop }.release frame).note .trace fun machine =>
          "unschedule " ++ frame.definition.name ++ " -> " ++
            (machine.view (frame.result.getD .nil)).source with
        frames := received machine.frames.pop (frame.result.getD .nil)
        lastResult := frame.result.getD .nil } := by
  simp only [unschedule, htop, deliver_eq]
  rw [note_apply, release_eq]

def answered (saved : Segment) (result : Value) : Stack Frame :=
  match saved.frames.top? with
  | some frame => saved.frames.replaceTop { frame with result := some result }
  | none => saved.frames

theorem endBounded_eq (machine : Machine) (saved : Segment) (outer : List Segment) :
    machine.endBounded saved outer =
      { machine.note .debug fun noted =>
          "bounded run finished with " ++ (noted.view machine.lastResult).source with
        frames := answered saved machine.lastResult
        program := saved.program
        bounded := outer
        suspended := machine.suspended - saved.frames.size } := by
  simp only [endBounded, restore, answered]
  rw [note_apply]
  cases saved.frames.top? <;> rfl

/-- What giving up one frame keeps is kept by giving up many. -/
theorem abandon_keeps {holds : Machine → Prop}
    (hrelease : ∀ (machine : Machine) (frame : Frame), holds machine →
      holds ((machine.note .trace fun _ => "abandon " ++ frame.definition.name).release frame))
    {machine : Machine} {rest : Stack Frame} (hmachine : holds { machine with frames := rest })
    (frames : List Frame) : holds (machine.abandon frames rest) := by
  have hfold : ∀ start : Machine, holds start → holds (frames.foldl (fun machine frame =>
      (machine.note .trace fun _ => "abandon " ++ frame.definition.name).release frame) start) := by
    induction frames with
    | nil => exact fun start hstart => hstart
    | cons frame frames ih => exact fun start hstart => ih _ (hrelease start frame hstart)
  exact hfold _ hmachine

/-- Giving up frames changes no more than the scopes, the counts and the log. -/
theorem exists_abandon_eq (machine : Machine) (frames : List Frame) (rest : Stack Frame) :
    ∃ world active, machine.abandon frames rest =
      { machine with world, active, frames := rest } := by
  let holds : Machine → Prop := fun later =>
    ∃ world active, later = { machine with world, active, frames := rest }
  have hkeeps : holds (machine.abandon frames rest) := by
    apply abandon_keeps
    · rintro _ frame ⟨world, active, rfl⟩
      rw [note_eq, release_eq]
      exact ⟨_, _, rfl⟩
    · exact ⟨machine.world, machine.active, rfl⟩
  exact hkeeps

/-- An output leaves bounded runs, as long as it finds no procedure to end, and then ends a frame if
there is one. -/
theorem outputThrough_keeps (holds ends : Machine → Prop) {value : Value}
    (hnote : ∀ {machine : Machine} level message, holds machine → holds (machine.note level message))
    (hleave : ∀ {machine : Machine} {saved outer}, machine.bounded = saved :: outer →
      holds machine → holds ((machine.abandon machine.frames.toList .empty).restore saved outer))
    (hfinish : ∀ {machine : Machine} {above target rest},
      machine.frames.toList = above ++ target :: rest → holds machine →
        ends (machine.abandon above
          ((machine.frames.drop above.length).replaceTop (target.finish value))))
    (hidle : ∀ {machine : Machine}, holds machine → ends machine) {machine : Machine}
    {segments : List Segment} (hbounded : machine.bounded = segments) (hmachine : holds machine) :
    ends (machine.outputThrough value segments) := by
  fun_induction outputThrough machine value segments with
  | case1 segments machine frames above target rest hrest =>
    have hsplit : machine.frames.toList = above ++ target :: rest := by
      rw [← hrest]
      exact List.takeWhile_append_dropWhile.symm
    exact hfinish hsplit hmachine
  | case2 machine frames hnone frame htop =>
    have hframes : machine.frames.toList = [] ++ frame :: machine.frames.pop.toList :=
      congrArg Stack.toList (Stack.eq_push_of_top? htop)
    exact hfinish hframes hmachine
  | case3 machine frames hnone htop => exact hidle hmachine
  | case4 machine frames hnone saved outer noted restored ih =>
    have hnoted : noted.bounded = saved :: outer ∧ noted.frames = machine.frames := by
      simp only [noted]
      rw [note_eq]
      exact ⟨hbounded, rfl⟩
    have hleft := hleave hnoted.1 (hnote _ _ hmachine)
    rw [hnoted.2] at hleft
    exact ih rfl hleft

/-! ## Lines and inputs -/

/-- What the next line of a program does. -/
theorem advanceProgram_apply (machine : Machine) :
    advanceProgram machine =
      match machine.program with
      | .call site :: program => schedule site { machine with program }
      | .atom (.symbol name) :: program =>
        .error (.unknownProcedure name) { machine with program }
      | .procedure definition :: program =>
        .ok () {
          ({ machine with program }.note .debug fun _ => "defined " ++ definition.header) with
          lastResult := .none }
      | literal :: program => .ok () { machine with program, lastResult := literal }
      | [] =>
        match machine.bounded with
        | saved :: outer => .ok () (machine.endBounded saved outer)
        | [] => .ok () machine := by
  rw [advanceProgram, get_bind_apply]
  cases machine.program with
  | nil =>
    dsimp only
    cases machine.bounded <;> rfl
  | cons line program =>
    cases line with
    | call site => rfl
    | procedure definition => rfl
    | list handle => rfl
    | atom value => cases value <;> rfl

theorem evaluateInput_apply (frame : Frame) (machine : Machine) :
    evaluateInput frame machine =
      match frame.nextInput? with
      | some (.call site) => schedule site machine
      | some literal =>
        let value := (machine.world.store.place literal).1
        .ok () (machine.withTop { frame with arguments := frame.arguments ++ [value] }
          (machine.world.placed literal))
      | none => .ok () machine := by
  rw [evaluateInput]
  cases frame.nextInput? with
  | none => rfl
  | some input => cases input <;> rfl

/-! ## Bodies -/

/-- What the next line of a body does. -/
theorem stepBody_apply (frame : Frame) (machine : Machine) :
    stepBody frame machine =
      let next := { frame with cursor := frame.cursor + 1 }
      match frame.definition.body[frame.cursor]? with
      | some (.call site) => schedule site (machine.withTop next machine.world)
      | some (.atom (.symbol name)) =>
        .error (.unknownProcedure name) (machine.withTop next machine.world)
      | some (.procedure _) => .ok () (machine.withTop next machine.world)
      | some literal =>
        let value := (machine.world.store.place literal).1
        .ok () (machine.withTop { next with result := some value } (machine.world.placed literal))
      | none => .ok () (machine.withTop (frame.finish (frame.result.getD .nil)) machine.world) := by
  have hliteral : ∀ literal, (do
      setTop { frame with cursor := frame.cursor + 1 }
      let value ← inWorld (World.place literal)
      setTop { frame with cursor := frame.cursor + 1, result := some value } :
        Engine Unit) machine =
        .ok () (machine.withTop { frame with
          cursor := frame.cursor + 1
          result := some (machine.world.store.place literal).1 }
            (machine.world.placed literal)) := by
    intro literal
    exact setTop_withTop _ _ machine (machine.world.placed literal)
  rw [stepBody]
  cases frame.definition.body[frame.cursor]? with
  | none => rfl
  | some line =>
    cases line with
    | call site => rfl
    | procedure definition => rfl
    | list items source span => exact hliteral _
    | atom value =>
      cases value with
      | symbol name => rfl
      | number _ | boolean _ | quote _ | nil | none => exact hliteral _

/-! ## Primitives -/

def proceed (machine : Machine) (frame : Frame) :
    EStateM.Result RuntimeError World Progress → EStateM.Result RuntimeError Machine Unit
  | .error cause world => .error cause (machine.withTop frame world)
  | .ok (.done value) world => .ok () (machine.withTop (frame.finish value) world)
  | .ok (.output value) world => .ok () ((machine.withTop frame world).output value)
  | .ok .pause world => .ok () (machine.withTop (frame.finish .none) world).pause
  | .ok (.call site continuation) world =>
    schedule site (machine.withTop { frame with continuation := some continuation } world)
  | .ok (.bounded program continuation) world =>
    .ok () ((machine.withTop { frame with continuation := some continuation } world).beginBounded
      program)

theorem bindInputs_apply (params : List String) (values : List Value) (world : World) :
    bindInputs params values world = .ok () (world.bindAll params values) := by
  induction params generalizing values world with
  | nil => rfl
  | cons param params ih =>
    cases values with
    | nil => rfl
    | cons value values =>
      rw [World.bindAll, bindInputs]
      rw [bind_of_ok (show World.declare param world = .ok () _ from rfl)]
      rw [bind_of_ok (show World.make param value _ = .ok () _ from rfl), ih]
      rfl

def conclude (machine : Machine) (frame : Frame) :
    EStateM.Result RuntimeError World Value → EStateM.Result RuntimeError Machine Unit
  | .ok value world => .ok () (machine.withTop (frame.finish value) world)
  | .error cause world => .error cause (machine.withTop frame world)

end Machine

namespace Forms

variable (forms : Forms)

variable {machine : Machine}

theorem stepSpecial_apply (frame : Frame) (form : Special) (machine : Machine) :
    forms.stepSpecial frame form machine =
      machine.proceed { frame with continuation := none, result := none }
        (forms form frame.arguments frame.continuation frame.result machine.world) := by
  simp only [stepSpecial]
  rw [bind_of_ok (Machine.setTop_apply _ machine), bind_apply, Machine.inWorld_withTop]
  cases forms form frame.arguments frame.continuation frame.result machine.world with
  | error cause world => rfl
  | ok progress world =>
    cases progress with
    | done value => exact Machine.setTop_withTop _ _ machine world
    | output value => rfl
    | pause => exact bind_of_ok (Machine.setTop_withTop _ _ machine world)
    | call site continuation => exact bind_of_ok (Machine.setTop_withTop _ _ machine world)
    | bounded program continuation => exact bind_of_ok (Machine.setTop_withTop _ _ machine world)

variable [Segmentation]

/-- What a call does that has its inputs. -/
theorem invoke_apply (frame : Frame) (machine : Machine) :
    forms.invoke frame machine =
      if frame.arguments.length < frame.definition.arity then
        .error (.notEnoughInputs frame.definition.name frame.definition.arity
          frame.arguments.length) machine
      else
        let bound := { frame with bound := true }
        let ready := machine.withTop bound (machine.world.prepared frame)
        match frame.definition.kind with
        | .native action =>
          let noted := ready.note .trace fun _ => "call primitive " ++ frame.definition.name
          machine.conclude bound (World.runNative action frame.arguments noted.world)
        | .special form => forms.stepSpecial bound form ready
        | .userDefined => Machine.stepBody bound ready := by
  have hperforms : ∀ world, (match frame.definition.kind with
      | .native action => do
        modify fun machine => machine.note .trace fun _ =>
          "call primitive " ++ frame.definition.name
        let value ← Machine.inWorld (World.runNative action frame.arguments)
        Machine.setTop ({ frame with bound := true }.finish value)
      | .special form => forms.stepSpecial { frame with bound := true } form
      | .userDefined => Machine.stepBody { frame with bound := true } : Engine Unit)
        (machine.withTop { frame with bound := true } world) =
      match frame.definition.kind with
      | .native action =>
        let noted := (machine.withTop { frame with bound := true } world).note .trace fun _ =>
          "call primitive " ++ frame.definition.name
        machine.conclude { frame with bound := true }
          (World.runNative action frame.arguments noted.world)
      | .special form =>
        forms.stepSpecial { frame with bound := true } form
          (machine.withTop { frame with bound := true } world)
      | .userDefined =>
        Machine.stepBody { frame with bound := true }
          (machine.withTop { frame with bound := true } world) := by
    intro world
    cases frame.definition.kind with
    | native action =>
      dsimp only
      rw [modify_bind_apply, Machine.note_eq, bind_apply, Machine.inWorld_apply]
      dsimp only
      cases World.runNative action frame.arguments _ with
      | error cause world => rfl
      | ok value world => exact Machine.setTop_withTop _ _ machine world
    | special form => rfl
    | userDefined => rfl
  simp only [invoke]
  split
  · rfl
  · rw [bind_of_ok (Machine.setTop_apply _ machine), ← hperforms, World.prepared]
    cases frame.bound with
    | true => rfl
    | false =>
      cases frame.definition.isSpecial with
      | true => rfl
      | false => exact bind_of_ok (by rw [Machine.inWorld_apply, Machine.bindInputs_apply]; rfl)

/-! ## Whole steps -/

def step : Engine Unit := fun machine =>
  match machine.frames.top? with
  | none => Machine.advanceProgram machine
  | some frame =>
    if frame.evaluated then .ok () machine.unschedule.2
    else if frame.needsArguments then Machine.evaluateInput frame machine
    else forms.invoke frame machine

theorem tick_of_paused (hpaused : machine.paused = true) :
    forms.tick machine = .ok machine.hasWork machine := by
  rw [tick, get_bind_apply, hpaused]
  rfl

theorem tick_of_running (hpaused : machine.paused = false) :
    forms.tick machine =
      match forms.step machine with
      | .ok _ machine => .ok machine.hasWork machine
      | .error cause machine => .error cause machine := by
  have hreport : ∀ action : Engine Unit, (do
      action
      return (← get).hasWork : Engine Bool) machine =
        match action machine with
        | .ok _ machine => .ok machine.hasWork machine
        | .error cause machine => .error cause machine := by
    intro action
    rw [bind_apply]
    cases action machine <;> rfl
  rw [tick, step, get_bind_apply]
  change (if machine.paused then _ else _ : Engine Bool) machine = _
  rw [hpaused, if_neg Bool.false_ne_true]
  cases machine.frames.top? with
  | none => exact hreport _
  | some frame =>
    dsimp only
    split
    · rfl
    · split
      · exact hreport _
      · exact hreport _

/-- The answer of a step is whether there is work left. -/
theorem hasWork_of_tick {after : Machine} {more : Bool}
    (htick : forms.tick machine = .ok more after) : more = after.hasWork := by
  cases hpaused : machine.paused with
  | true =>
    rw [forms.tick_of_paused hpaused] at htick
    cases htick
    rfl
  | false =>
    rw [forms.tick_of_running hpaused] at htick
    cases hstep : forms.step machine with
    | ok value next =>
      rw [hstep] at htick
      cases htick
      rfl
    | error cause next =>
      rw [hstep] at htick
      cases htick

end Forms

namespace Machine

/-! ## The forms as they are -/

variable [Segmentation]

theorem invoke_eq : invoke = Forms.standard.invoke := rfl

def step : Engine Unit := fun machine =>
  match machine.frames.top? with
  | none => advanceProgram machine
  | some frame =>
    if frame.evaluated then .ok () machine.unschedule.2
    else if frame.needsArguments then evaluateInput frame machine
    else invoke frame machine

variable {machine : Machine}

theorem tick_of_paused (hpaused : machine.paused = true) :
    tick machine = .ok machine.hasWork machine :=
  Forms.standard.tick_of_paused hpaused

/-- A tick is a step and a look at what is left. -/
theorem tick_of_running (hpaused : machine.paused = false) :
    tick machine =
      match step machine with
      | .ok _ machine => .ok machine.hasWork machine
      | .error cause machine => .error cause machine :=
  Forms.standard.tick_of_running hpaused

theorem state_tick_of_running (hpaused : machine.paused = false) :
    (tick machine).state = (step machine).state := by
  rw [tick_of_running hpaused]
  cases step machine <;> rfl

/-- What a step keeps that finds the machine running, every step keeps. -/
theorem keeps_tick (holds : Machine → Prop) (hstep : Keeps holds step) : Keeps holds tick := by
  intro machine hmachine
  cases hpaused : machine.paused with
  | true =>
    rw [tick_of_paused hpaused]
    exact hmachine
  | false =>
    rw [state_tick_of_running hpaused]
    exact hstep machine hmachine

end Machine

end Logo
