import Logo.Proofs.Evaluator
import Logo.Proofs.Quiet

/-!
# Agreement of the machine with the evaluator

A call may start on any stack of frames. What it means that the machine, some steps later, agrees
with the evaluator about the call: the frames below are as they were and the innermost of them has
the value, or the same failure was met above them. While the call is active, the machine is the one
at its start with one more frame.
-/

namespace Logo

/-! ## Runs of steps -/

variable [Segmentation]

/-- Further steps of a running machine lead from one result to another. -/
inductive Leads : EStateM.Result RuntimeError Machine Unit →
    EStateM.Result RuntimeError Machine Unit → Prop where
  | refl (result : EStateM.Result RuntimeError Machine Unit) : Leads result result
  | step {machine : Machine} {result : EStateM.Result RuntimeError Machine Unit}
      (hpaused : machine.paused = false) (hrest : Leads machine.step result) :
      Leads (.ok () machine) result

theorem Leads.trans {first second third : EStateM.Result RuntimeError Machine Unit}
    (hfirst : Leads first second) (hsecond : Leads second third) : Leads first third := by
  induction hfirst with
  | refl => exact hsecond
  | step hpaused hrest ih => exact .step hpaused (ih hsecond)

theorem Leads.silent {first second : EStateM.Result RuntimeError Machine Unit}
    (hleads : Leads first second) (hsilent : first.state.world.Silent) :
    second.state.world.Silent := by
  induction hleads with
  | refl => exact hsilent
  | step hpaused hrest ih => exact ih (Machine.keeps_silent Machine.commutes_step _ hsilent)

namespace Machine

variable (base : Machine)

def holding (frame : Frame) (world : World) (active : NameTable Nat) (last : Value) : Machine :=
  { base with world, active, frames := base.frames.push frame, lastResult := last }

def returned (value : Value) (world : World) (active : NameTable Nat) : Machine :=
  { base.deliver value with world, active, lastResult := value }

/-- What has been reached from the start of a call agrees with what the evaluator says about the
call: the value has been handed on, or the same failure has been met above the frames that were
there. -/
def Agrees (reached : EStateM.Result RuntimeError Machine Unit) :
    EStateM.Result Interruption World Value → Prop
  | .ok value world => ∃ active, Leads reached (.ok () (base.returned value world active))
  | .error (.failed cause) world =>
    ∃ (frames : Stack Frame) (active : NameTable Nat) (last : Value),
      base.frames.toList <:+ frames.toList ∧
        Leads reached (.error cause { base with world, frames, active, lastResult := last })
  | .error .outside _ => True

omit [Segmentation] in
theorem holding_withTop (frame other : Frame) (world after : World) (active : NameTable Nat)
    (last : Value) :
    (base.holding frame world active last).withTop other after =
      base.holding other after active last := by
  rw [withTop, holding, Stack.replaceTop_push]
  rfl

omit [Segmentation] in
/-- What becomes of a special form does not depend on the frame that it had before. -/
theorem proceed_holding (frame other : Frame) (world after : World) (active : NameTable Nat)
    (last : Value) (next : Frame) (result : EStateM.Result RuntimeError World Progress) :
    (base.holding frame world active last).proceed next result =
      (base.holding other after active last).proceed next result := by
  cases result with
  | error cause world => simp only [proceed, holding_withTop]
  | ok progress world => cases progress <;> simp only [proceed, holding_withTop]

theorem step_holding {frame : Frame} (hopen : frame.evaluated = false) (world : World)
    (active : NameTable Nat) (last : Value) :
    (base.holding frame world active last).step =
      if frame.needsArguments then evaluateInput frame (base.holding frame world active last)
      else invoke frame (base.holding frame world active last) := by
  change (if frame.evaluated then _ else _) = _
  rw [hopen, if_neg Bool.false_ne_true]

omit [Segmentation] in
/-- A call that is over hands its value to the frame below. -/
theorem unschedule_holding {frame : Frame} {world : World} (hsilent : world.Silent)
    (active : NameTable Nat) (value last : Value) :
    (base.holding (frame.finish value) world active last).unschedule.2 =
      base.returned value (world.closed frame.definition)
        (discount active frame.definition.name) := by
  have hpop : { base.holding (frame.finish value) world active last with
      frames := (base.holding (frame.finish value) world active last).frames.pop } =
        { base with world, active, lastResult := last } := by
    simp only [holding, Stack.pop_push]
  change { ((({ base.holding (frame.finish value) world active last with
    frames := (base.holding (frame.finish value) world active last).frames.pop }.release
      (frame.finish value)).note _ _).deliver value) with lastResult := value } = _
  rw [hpop, release_eq, note_of_silent, deliver, returned, deliver]
  · dsimp only
    cases base.frames.top? <;> rfl
  · exact hsilent

end Machine

def Frame.gathered (call : Call) (definition : Procedure) (arguments : List Value) : Frame :=
  { Frame.new call definition with arguments }

structure Frame.Ready (frame : Frame) : Prop where
  isOpen : frame.evaluated = false
  gathered : frame.needsArguments = false
  enough : ¬frame.arguments.length < frame.definition.arity

omit [Segmentation] in
theorem Frame.Ready.receive {frame : Frame} (hready : frame.Ready) (value : Value) :
    frame.receive value = { frame with result := some value } := by
  rw [Frame.receive, hready.gathered, if_neg Bool.false_ne_true]

omit [Segmentation] in
theorem World.prepared_of_bound {frame : Frame} (hbound : frame.bound = true) (world : World) :
    world.prepared frame = world := by
  rw [prepared, hbound]
  rfl

omit [Segmentation] in
theorem World.silent_prepared {world : World} (hsilent : world.Silent) (frame : Frame) :
    (world.prepared frame).Silent := by
  rw [prepared]
  split
  · exact hsilent
  · exact (Machine.orderly_bindInputs frame.definition.params frame.arguments).silent world hsilent

structure Frame.Fresh (frame : Frame) (form : Special) : Prop where
  ready : frame.Ready
  kind : frame.definition.kind = .special form
  bound : frame.bound = true
  continuation : frame.continuation = none
  result : frame.result = none

namespace Machine

variable (base : Machine) {frame : Frame} (hready : frame.Ready)

include hready

theorem invoke_userDefined (hkind : frame.definition.kind = .userDefined) (other : Frame)
    (world : World) (active : NameTable Nat) (last : Value) :
    invoke frame (base.holding other world active last) =
      stepBody { frame with bound := true }
        (base.holding { frame with bound := true } (world.prepared frame) active last) := by
  rw [invoke_eq, Forms.invoke_apply, if_neg hready.enough, hkind]
  dsimp only
  rw [holding_withTop]
  rfl

theorem invoke_native {action : Native} (hkind : frame.definition.kind = .native action)
    (other : Frame) {world : World} (hsilent : (world.prepared frame).Silent)
    (active : NameTable Nat) (last : Value) :
    invoke frame (base.holding other world active last) =
      (base.holding other world active last).conclude { frame with bound := true }
        (World.runNative action frame.arguments (world.prepared frame)) := by
  rw [invoke_eq, Forms.invoke_apply, if_neg hready.enough, hkind]
  dsimp only
  rw [note_of_silent hsilent]
  rfl

/-- A special form is run on its inputs, with what its frame has kept for it. -/
theorem invoke_special {form : Special} (hkind : frame.definition.kind = .special form)
    (other : Frame) (world : World) (active : NameTable Nat) (last : Value) :
    invoke frame (base.holding other world active last) =
      (base.holding other world active last).proceed
        { frame with bound := true, continuation := none, result := none }
        (World.runSpecial form frame.arguments frame.continuation frame.result world) := by
  have hspecial : frame.definition.isSpecial = true := by
    rw [Procedure.isSpecial, hkind]
  rw [invoke_eq, Forms.invoke_apply, if_neg hready.enough, hkind]
  dsimp only
  rw [Forms.stepSpecial_apply, holding_withTop]
  rw [base.proceed_holding _ other _ world]
  exact congrArg _ (congrArg _ (World.prepared_of_special hspecial world))

omit hready in
/-- Without a log, the start of a call is the same as one more frame in an opened world. -/
theorem exists_enter_eq_holding {base : Machine} (hsilent : base.world.Silent) (call : Call)
    (definition : Procedure) :
    ∃ active, base.enter call definition =
      base.holding (.gathered call definition []) (base.world.opened definition) active
        base.lastResult := by
  have hkept : (base.enter call definition).silence = base.enter call definition := by
    have hquiet : base.silence.enter call definition = (base.enter call definition).silence :=
      enter_muted id base call definition
    rw [← hquiet, silence_of_silent hsilent]
  refine ⟨(base.enter call definition).active, ?_⟩
  rw [← hkept, enter_eq, holding, World.opened,
    show base.world.log = Log.new none from hsilent]
  rfl

end Machine

namespace Machine.Agrees

variable {base : Machine} {reached : EStateM.Result RuntimeError Machine Unit}
  {result : EStateM.Result Interruption World Value}

theorem of_leads {earlier : EStateM.Result RuntimeError Machine Unit}
    (hleads : Leads earlier reached)
    (hagrees : base.Agrees reached result) : base.Agrees earlier result := by
  cases result with
  | ok value world =>
    obtain ⟨active, hreached⟩ := hagrees
    exact ⟨active, hleads.trans hreached⟩
  | error interruption world =>
    cases interruption with
    | failed cause =>
      obtain ⟨frames, active, last, hsuffix, hreached⟩ := hagrees
      exact ⟨frames, active, last, hsuffix, hleads.trans hreached⟩
    | outside => trivial

theorem of_step {machine : Machine} (hpaused : machine.paused = false)
    (hagrees : base.Agrees machine.step result) : base.Agrees (.ok () machine) result :=
  hagrees.of_leads (.step hpaused (.refl _))

variable {frame : Frame} {active : NameTable Nat} {world : World} {last : Value}

/-- A frame that is not over gets its next input or does its work. -/
theorem of_open (hpaused : base.paused = false) (hopen : frame.evaluated = false)
    (hagrees : base.Agrees
      (if frame.needsArguments then evaluateInput frame (base.holding frame world active last)
        else invoke frame (base.holding frame world active last)) result) :
    base.Agrees (.ok () (base.holding frame world active last)) result := by
  rw [← step_holding base hopen] at hagrees
  exact of_step hpaused hagrees

theorem of_ready (hpaused : base.paused = false) (hready : frame.Ready)
    (hagrees : base.Agrees (invoke frame (base.holding frame world active last)) result) :
    base.Agrees (.ok () (base.holding frame world active last)) result := by
  apply of_open hpaused hready.isOpen
  rw [hready.gathered, if_neg Bool.false_ne_true]
  exact hagrees

/-- A body that has begun goes on. -/
theorem of_body (hpaused : base.paused = false) (hready : frame.Ready)
    (hkind : frame.definition.kind = .userDefined) (hbound : frame.bound = true)
    (hagrees : base.Agrees (stepBody frame (base.holding frame world active last)) result) :
    base.Agrees (.ok () (base.holding frame world active last)) result := by
  have hsame : { frame with bound := true } = frame := by
    rw [← hbound]
  apply of_ready hpaused hready
  rw [base.invoke_userDefined hready hkind, World.prepared_of_bound hbound, hsame]
  exact hagrees

/-- A special form that has waited for a call goes on with what it has kept. -/
theorem of_kept {form : Special} (hframe : frame.Fresh form) {last value : Value}
    {continuation : Continuation} (hpaused : base.paused = false)
    (hagrees : base.Agrees ((base.holding frame world active last).proceed frame
      (World.runSpecial form frame.arguments (some continuation) (some value) world)) result) :
    base.Agrees (.ok () (base.holding { frame with
      continuation := some continuation, result := some value } world active last)) result := by
  have hready : { frame with continuation := some continuation, result := some value }.Ready :=
    ⟨hframe.ready.isOpen, hframe.ready.gathered, hframe.ready.enough⟩
  have hsame : { frame with bound := true, continuation := none, result := none } = frame := by
    rw [← hframe.bound, ← hframe.continuation, ← hframe.result]
  apply of_ready hpaused hready
  rw [base.invoke_special hready hframe.kind, hsame]
  rw [base.proceed_holding _ frame _ world]
  exact hagrees

/-- A failure above one more frame is a failure above the frames below. -/
theorem failed {world after : World} {interruption : Interruption}
    (hagrees : (base.holding frame world active last).Agrees reached (.error interruption after)) :
    base.Agrees reached (.error interruption after) := by
  cases interruption with
  | failed cause =>
    obtain ⟨frames, active, last, hsuffix, hreached⟩ := hagrees
    exact ⟨frames, active, last, (List.suffix_cons _ _).trans hsuffix, hreached⟩
  | outside => trivial

/-- The call of a frame that is over ends. -/
theorem leave (hpaused : base.paused = false) (hsilent : world.Silent) (active : NameTable Nat)
    (value last : Value) :
    base.Agrees (.ok () (base.holding (frame.finish value) world active last))
      (Evaluation.leave frame.definition value world) := by
  have hstep : (base.holding (frame.finish value) world active last).step =
      .ok () (base.returned value (world.closed frame.definition)
        (discount active frame.definition.name)) := by
    rw [← base.unschedule_holding hsilent active value last]
    rfl
  refine ⟨discount active frame.definition.name, .step hpaused ?_⟩
  rw [hstep]
  exact .refl _

theorem error (frame : Frame) (world : World) (active : NameTable Nat) (last : Value)
    (cause : RuntimeError) :
    base.Agrees (.error cause (base.holding frame world active last))
      (.error (.failed cause) world) :=
  ⟨_, active, last, List.suffix_cons _ _, .refl _⟩

/-- A native gives its value at once. -/
theorem conclude {frame other : Frame} {before world : World} (hpaused : base.paused = false)
    {action : Action Value} (haction : Orderly action) (hsilent : world.Silent)
    (active : NameTable Nat) (last : Value) :
    base.Agrees ((base.holding other before active last).conclude frame (action world))
      ((Evaluation.perform action >>= Evaluation.leave frame.definition) world) := by
  have hkeeps := haction.silent world hsilent
  rw [bind_apply, Evaluation.perform]
  cases hrun : action world with
  | ok value reached =>
    rw [hrun] at hkeeps
    dsimp only
    rw [Machine.conclude, holding_withTop]
    exact leave hpaused hkeeps active value last
  | error cause reached =>
    dsimp only
    rw [Machine.conclude, holding_withTop]
    exact error frame reached active last cause

/-- A special form that comes to its end. -/
theorem done {frame other : Frame} {before world : World} (hpaused : base.paused = false)
    (hsilent : world.Silent) (active : NameTable Nat) (last value : Value) :
    base.Agrees ((base.holding other before active last).proceed frame (.ok (.done value) world))
      (Evaluation.leave frame.definition value world) := by
  rw [proceed, holding_withTop]
  exact leave hpaused hsilent active value last

theorem fails {frame other : Frame} {before : World} (world : World) (active : NameTable Nat)
    (last : Value) (cause : RuntimeError) :
    base.Agrees ((base.holding other before active last).proceed frame (.error cause world))
      (.error (.failed cause) world) := by
  rw [proceed, holding_withTop]
  exact error frame world active last cause

/-- A special form fails where an action of it fails, and goes on otherwise. -/
theorem perform {α : Type} {action : Action α} (haction : Orderly action) {frame other : Frame}
    {before world : World} {next : α → Action Progress} {after : α → Evaluation Value}
    (hsilent : world.Silent)
    (hnext : ∀ value reached, action world = .ok value reached → reached.Silent →
      base.Agrees ((base.holding other before active last).proceed frame (next value reached))
        (after value reached)) :
    base.Agrees ((base.holding other before active last).proceed frame ((action >>= next) world))
      ((Evaluation.perform action >>= after) world) := by
  have hkeeps := haction.silent world hsilent
  rw [bind_apply, bind_apply, Evaluation.perform]
  cases hrun : action world with
  | ok value reached =>
    rw [hrun] at hkeeps
    exact hnext value reached hrun hkeeps
  | error cause reached => exact fails reached active last cause

theorem unknown (base : Machine) (name : String) :
    base.Agrees (.error (.unknownProcedure name) base)
      (.error (.failed (.unknownProcedure name)) base.world) :=
  ⟨base.frames, base.active, base.lastResult, List.suffix_refl _, .refl _⟩

end Machine.Agrees

end Logo
