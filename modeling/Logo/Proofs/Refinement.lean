import Logo.Proofs.Bookkeeping
import Logo.Proofs.Simulation
import Logo.Text.Cluster

/-!
# The machine refines the evaluator

What has been shown for steps of a machine without a log holds for the ticks of every machine.
-/

namespace Logo

namespace Machine

variable [Segmentation]

def tickMany : Nat → Engine Unit
  | 0 => return
  | count + 1 => do
    let _ ← tick
    tickMany count

def tickThrough (call : Call) (count : Nat) : Engine Unit := do
  schedule call
  tickMany count

theorem commutes_tickMany (count : Nat) : Commutes silence (tickMany count) := by
  induction count with
  | zero => exact Commutes.pure ()
  | succ count ih => exact commutes_tick.bind fun _ => ih

theorem commutes_tickThrough (call : Call) (count : Nat) :
    Commutes silence (tickThrough call count) :=
  (commutes_schedule id call).bind fun _ => commutes_tickMany count

end Machine

/-- Steps that lead somewhere can be counted. -/
theorem Leads.exists_tickMany [Segmentation]
    {first second : EStateM.Result RuntimeError Machine Unit} (hleads : Leads first second) :
    ∃ count, (match first with
      | .ok _ machine => Machine.tickMany count machine
      | .error cause machine => .error cause machine) = second := by
  induction hleads with
  | refl result =>
    refine ⟨0, ?_⟩
    cases result <;> rfl
  | @step machine result hpaused hrest ih =>
    obtain ⟨count, hcount⟩ := ih
    refine ⟨count + 1, ?_⟩
    dsimp only
    rw [Machine.tickMany, bind_apply, Machine.tick_of_running hpaused, ← hcount]
    cases machine.step <;> rfl

theorem Leads.exists_tickThrough [Segmentation] {call : Call} {machine : Machine}
    {result : EStateM.Result RuntimeError Machine Unit}
    (hleads : Leads (Machine.schedule call machine) result) :
    ∃ count, Machine.tickThrough call count machine = result := by
  obtain ⟨count, hcount⟩ := hleads.exists_tickMany
  refine ⟨count, ?_⟩
  rw [Machine.tickThrough, bind_apply, ← hcount]
  cases Machine.schedule call machine <;> rfl

theorem Books.tickThrough [Segmentation] {maxDepth : Nat} {machine : Machine}
    (hbooks : Books maxDepth machine []) (call : Call) (count : Nat) :
    Books maxDepth (Machine.tickThrough call count machine).state [] := by
  have hmany : Keeps (Books maxDepth · []) (Machine.tickMany count) := by
    induction count with
    | zero => exact Keeps.pure ()
    | succ count ih => exact (Books.lasting maxDepth).tick.bind fun _ => ih
  exact Keeps.bind (fun _ hmachine => hmachine.schedule call) (fun _ => hmany) machine hbooks

namespace Machine

theorem active_deliver (machine : Machine) (value : Value) :
    (machine.deliver value).active = machine.active := by
  rw [deliver]
  split <;> rfl

section

variable [Segmentation]

/-- The machine carries out a call by steps as the evaluator says. If the call has a value, the
frames below get it and nothing else is left of the call but what it has done to the world. If it
fails, a step fails in the same way, and the frames below are still there. -/
def CarriesOut (machine : Machine) (call : Call) :
    EStateM.Result Interruption World Value → Prop
  | .ok value world => ∃ count after, tickThrough call count machine = .ok () after ∧
      after.silence =
        { machine.deliver value with world, active := after.active, lastResult := value } ∧
      ∀ name, after.active.get? name = machine.active.get? name
  | .error (.failed cause) world => ∃ count after,
      tickThrough call count machine = .error cause after ∧
      machine.frames.toList <:+ after.frames.toList ∧
      after.silence =
        { machine with
          world
          frames := after.frames
          active := after.active
          lastResult := after.lastResult }
  | .error .outside _ => True

/-- The machine refines the evaluator: on every machine that can be met and is not paused, and on
any stack of frames, every call is carried out as the evaluator says that has the same room. -/
theorem tickThrough_refines_evaluate (maxDepth : Nat) (console : Console) (log : Log)
    (operations : List Operation) (call : Call)
    (hrunning : ((Machine.new maxDepth console log).performAll operations).paused = false) :
    let machine := (Machine.new maxDepth console log).performAll operations
    machine.CarriesOut call
      (Evaluation.evaluate (maxDepth - machine.depth) call machine.world.silence) := by
  intro machine
  have hbooks : Books maxDepth machine [] := Books.performAll maxDepth console log operations
  have hroom : machine.silence.maxDepth - machine.silence.depth = maxDepth - machine.depth := by
    rw [← hbooks.maxDepth_eq]
    rfl
  have hagrees := simulated_evaluate _ call machine.silence machine.world.silent_silence hrunning
    hroom
  change Agrees _ _ (Evaluation.evaluate _ call machine.world.silence) at hagrees
  have hquiet := fun count => commutes_tickThrough call count machine
  cases hevaluate : Evaluation.evaluate (maxDepth - machine.depth) call machine.world.silence with
  | ok value world =>
    rw [hevaluate] at hagrees
    obtain ⟨active, hleads⟩ := hagrees
    obtain ⟨count, hcount⟩ := hleads.exists_tickThrough
    rw [hquiet] at hcount
    obtain ⟨after, hafter, hsilence⟩ := EStateM.Result.exists_of_mapState_ok hcount
    have hactive : after.active = active := congrArg Machine.active hsilence
    have hstate : after.silence =
        { machine.deliver value with world, active := after.active, lastResult := value } := by
      have hdeliver : machine.silence.deliver value = (machine.deliver value).silence :=
        deliver_muted id machine value
      rw [hsilence, returned, hdeliver, hactive]
      rfl
    refine ⟨count, after, hafter, hstate, fun name => ?_⟩
    have hframes : after.allFrames = (machine.deliver value).allFrames := by
      change after.silence.allFrames = _
      rw [hstate]
      rfl
    have hfinal := hbooks.tickThrough call count
    rw [hafter, EStateM.Result.state_ok] at hfinal
    calc after.active.get? name
        = countNamed (after.allFrames.map (·.definition)) name := hfinal.accounts.active name
      _ = countNamed ((machine.deliver value).allFrames.map (·.definition)) name := by
          rw [hframes]
      _ = (machine.deliver value).active.get? name :=
          ((hbooks.deliver value).accounts.active name).symm
      _ = machine.active.get? name := by rw [active_deliver]
  | error interruption world =>
    cases interruption with
    | outside => trivial
    | failed cause =>
      rw [hevaluate] at hagrees
      obtain ⟨frames, active, last, hsuffix, hleads⟩ := hagrees
      obtain ⟨count, hcount⟩ := hleads.exists_tickThrough
      rw [hquiet] at hcount
      obtain ⟨after, hafter, hsilence⟩ := EStateM.Result.exists_of_mapState_error hcount
      have hframes : after.frames = frames := congrArg Machine.frames hsilence
      have hactive : after.active = active := congrArg Machine.active hsilence
      have hlast : after.lastResult = last := congrArg Machine.lastResult hsilence
      refine ⟨count, after, hafter, ?_, ?_⟩
      · rw [hframes]
        exact hsuffix
      · rw [hframes, hactive, hlast]
        exact hsilence

end

open scoped Graphemes

/-- The machine is in a block of `f` when `f` is called once more. -/
theorem call_with_block_refines_evaluate :
    let machine := (Machine.new 10 (.new []) (.new none)).performAll
      [.read "to f :a\nrepeat 2 [print :a]\nend\nf 5", .run 9 (.list ⟨0, none⟩)]
    let call : Call := ⟨"f", [.atom (.number (.integer 7))], .nowhere⟩
    machine.paused = false ∧ machine.backtrace = ["thing", "print", "repeat", "f"] ∧
      ∃ value world, Evaluation.evaluate (10 - machine.depth) call machine.world.silence =
          .ok value world ∧
        world.console.output = "7\n7\n" ∧ machine.CarriesOut call (.ok value world) := by
  intro machine call
  have hfacts : (machine.paused = false ∧ machine.backtrace = ["thing", "print", "repeat", "f"]) ∧
      (Evaluation.evaluate (10 - machine.depth) call
        machine.world.silence).answer.toOption.isSome = true ∧
      (Evaluation.evaluate (10 - machine.depth) call
        machine.world.silence).state.console.output = "7\n7\n" := by
    decide +kernel
  obtain ⟨⟨hrunning, hframes⟩, hvalue, hprinted⟩ := hfacts
  have hcarried : machine.CarriesOut call
      (Evaluation.evaluate (10 - machine.depth) call machine.world.silence) :=
    tickThrough_refines_evaluate 10 (.new []) (.new none) _ call hrunning
  clear_value machine
  cases hevaluate : Evaluation.evaluate (10 - machine.depth) call machine.world.silence with
  | error cause world =>
    rw [hevaluate] at hvalue
    cases hvalue
  | ok value world =>
    rw [hevaluate] at hprinted hcarried
    exact ⟨hrunning, hframes, value, world, rfl, hprinted, hcarried⟩

end Machine

end Logo
