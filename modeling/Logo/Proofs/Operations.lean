import Logo.Machine.Run
import Logo.Proofs.Passes
import Logo.Proofs.Steps

/-!
# What can be done to a machine

A machine is used through a handful of operations, in any order and as often as one likes, also
after some of them have failed. What holds of a new machine and is kept by each of them holds of
every machine that can be met.
-/

namespace Logo

inductive Operation where
  | read (source : String)
  /-- A datum is put in the store, to be run later. -/
  | place (datum : Datum)
  | load (program : Value)
  | run (fuel : Nat) (program : Value)
  | resume (fuel : Nat)
  | pause
  | tick
  | schedule (call : Call)
  | unschedule
  | reset

def Operation.isDirect : Operation → Bool
  | .schedule _ | .unschedule => true
  | _ => false

namespace Machine

/-- Reading a program fails and leaves the machine as it is, or enters procedures in the table and
places the program. -/
theorem readProgramList_cases (source : String) (machine : Machine) :
    (∃ error, readProgram machine.world.environment.procedures source = .error error ∧
      readProgramList source machine = .error (.read error) machine) ∨
    ∃ program procedures,
      readProgram machine.world.environment.procedures source = .ok (program, procedures) ∧
      readProgramList source machine =
        .ok ((machine.withProcedures procedures).place (.built program)).1
          ((machine.withProcedures procedures).place (.built program)).2 := by
  rw [readProgramList, read, readSource_apply]
  cases readProgram machine.world.environment.procedures source with
  | error error => exact .inl ⟨error, rfl, rfl⟩
  | ok result => exact .inr ⟨result.1, result.2, rfl, rfl⟩

/-- Reading a program changes the world only. -/
theorem exists_readProgramList_eq (source : String) (machine : Machine) :
    ∃ world, (readProgramList source machine).state = { machine with world } := by
  obtain ⟨error, -, hread⟩ | ⟨program, procedures, -, hread⟩ := readProgramList_cases source machine
  · rw [hread]
    exact ⟨machine.world, rfl⟩
  · rw [hread]
    exact ⟨_, rfl⟩

variable [Segmentation]

/-- The machine after an operation, which may have failed. -/
def perform (machine : Machine) : Operation → Machine
  | .read source => (readProgramList source machine).state
  | .place datum => (machine.place datum).2
  | .load program => machine.load program
  | .run fuel program => (run fuel program machine).state
  | .resume fuel => (resume fuel machine).state
  | .pause => machine.pause
  | .tick => (tick machine).state
  | .schedule call => (schedule call machine).state
  | .unschedule => machine.unschedule.2
  | .reset => machine.reset

def performAll (machine : Machine) (operations : List Operation) : Machine :=
  operations.foldl perform machine

/-- What every operation keeps is kept by all of them together. -/
theorem performAll_keeps (holds : Machine → Prop) (allowed : Operation → Prop)
    (hstep : ∀ machine operation, allowed operation → holds machine →
      holds (machine.perform operation))
    {operations : List Operation} (hallowed : ∀ operation ∈ operations, allowed operation)
    {machine : Machine} (hmachine : holds machine) : holds (machine.performAll operations) := by
  induction operations generalizing machine with
  | nil => exact hmachine
  | cons operation operations ih =>
    apply ih
    · intro other hother
      exact hallowed other (List.mem_cons_of_mem operation hother)
    · exact hstep machine operation (hallowed operation List.mem_cons_self) hmachine

/-- The machine that is left when a step of a run has failed. -/
def noteError (machine : Machine) (cause : RuntimeError) : Machine :=
  machine.note .warn fun machine =>
    cause.message ++ " (in " ++ " <- ".intercalate machine.backtrace ++ ")"

end Machine

/-! ## Runs -/

namespace Forms

variable [Segmentation] {forms : Forms} {machine after : Machine} {fuel : Nat}

theorem drive_of_paused (hpaused : machine.paused = true) :
    forms.drive machine (fuel + 1) = .ok (some machine.lastResult) machine := by
  rw [drive, if_pos hpaused]

theorem drive_of_more (hpaused : machine.paused = false)
    (htick : forms.tick machine = .ok true after) :
    forms.drive machine (fuel + 1) = forms.drive after fuel := by
  simp only [drive, hpaused, Bool.false_eq_true, if_false, htick]

theorem drive_of_done (hpaused : machine.paused = false)
    (htick : forms.tick machine = .ok false after) :
    forms.drive machine (fuel + 1) = .ok (some after.lastResult) after := by
  simp only [drive, hpaused, Bool.false_eq_true, if_false, htick]

theorem drive_of_error {cause : RuntimeError} (hpaused : machine.paused = false)
    (htick : forms.tick machine = .error cause after) :
    forms.drive machine (fuel + 1) = .error cause (after.noteError cause) := by
  simp only [drive, hpaused, Bool.false_eq_true, if_false, htick, Machine.noteError]

/-- A run that comes to an end has been paused or has nothing left to do, and its value is the last
that there was. -/
theorem ended_of_drive {value : Value}
    (hdrive : forms.drive machine fuel = .ok (some value) after) :
    value = after.lastResult ∧ (after.paused = true ∨ after.hasWork = false) := by
  fun_induction drive forms machine fuel with
  | case1 machine => cases hdrive
  | case2 machine fuel hpaused =>
    cases hdrive
    exact ⟨rfl, .inl hpaused⟩
  | case3 machine fuel hrunning next htick ih => exact ih hdrive
  | case4 machine fuel hrunning next htick =>
    cases hdrive
    exact ⟨rfl, .inr (forms.hasWork_of_tick htick).symm⟩
  | case5 machine fuel hrunning cause next htick => cases hdrive

end Forms

/-! ## What runs keep -/

namespace Machine

variable {machine : Machine} {frame : Frame} {holds : Machine → Prop}

/-- The next step performs the call of the innermost frame. -/
structure Performs (machine : Machine) (frame : Frame) : Prop where
  running : machine.paused = false
  top : machine.frames.top? = some frame
  unevaluated : frame.evaluated = false
  complete : frame.needsArguments = false
  enough : frame.definition.arity ≤ frame.arguments.length

variable [Segmentation]

/-- A step that succeeds and leaves a call active has work left. -/
theorem tick_of_step {after : Machine} (hrunning : machine.paused = false)
    (hstep : step machine = .ok () after) (htop : after.frames.top? = some frame) :
    tick machine = .ok true after := by
  have hwork : after.hasWork = true := by
    rw [hasWork, Stack.eq_push_of_top? htop]
    rfl
  rw [tick_of_running hrunning, hstep]
  dsimp only
  rw [hwork]

def linesOf (machine : Machine) : Value → List Value
  | .list handle => machine.world.store.items handle
  | value => [value]

omit [Segmentation] in
theorem load_eq (machine : Machine) (program : Value) :
    machine.load program =
      { machine with program := machine.program ++ machine.linesOf program } := by
  cases program <;> rfl

/-- The machine with which the run of a program begins. -/
def started (machine : Machine) (program : Value) : Machine :=
  (if machine.hasWork then machine else { machine with lastResult := .none }).load program

/-- The machine as it goes on after a pause. -/
def lifted (machine : Machine) : Machine :=
  if machine.paused then
    { machine.note .debug fun machine => "resume at depth " ++ toString machine.depth with
      paused := false }
  else machine

omit [Segmentation] in
theorem exists_lifted_eq (machine : Machine) : ∃ log, machine.lifted =
    { machine with world := { machine.world with log }, paused := false } := by
  rw [lifted]
  split
  · rw [note_apply]
    exact ⟨_, rfl⟩
  · rename_i hrunning
    refine ⟨machine.world.log, ?_⟩
    rw [← eq_false_of_ne_true hrunning]

omit [Segmentation] in
theorem running_lifted (machine : Machine) : machine.lifted.paused = false := by
  obtain ⟨_, hlifted⟩ := machine.exists_lifted_eq
  rw [hlifted]

def ticked (machine : Machine) : Nat → List Machine
  | 0 => []
  | fuel + 1 =>
    if machine.paused then []
    else machine :: match tick machine with
      | .ok true next => next.ticked fuel
      | _ => []

def tickedBy (machine : Machine) : Operation → List Machine
  | .run fuel program => (machine.started program).ticked fuel
  | .resume fuel => machine.lifted.ticked fuel
  | .tick => if machine.paused then [] else [machine]
  | _ => []

/-- All the machines at which steps are made while operations are performed. -/
def tickedAll (machine : Machine) : List Operation → List Machine
  | [] => []
  | operation :: operations =>
    machine.tickedBy operation ++ (machine.perform operation).tickedAll operations

/-- What the steps of a run keep that it makes, and records in the log, is kept by the run. -/
theorem drive_keeps_of_ticked {fuel : Nat}
    (htick : ∀ met ∈ machine.ticked fuel, holds met → holds (tick met).state)
    (hnote : ∀ {machine}, holds machine → ∀ level message, holds (machine.note level message))
    (hmachine : holds machine) : holds (machine.drive fuel).state := by
  fun_induction Machine.drive machine fuel with
  | case1 machine => exact hmachine
  | case2 machine fuel hpaused => exact hmachine
  | case3 machine fuel hrunning next hrun ih =>
    rw [ticked, if_neg hrunning, hrun, List.forall_mem_cons] at htick
    have hnext := htick.1 hmachine
    rw [hrun] at hnext
    exact ih htick.2 hnext
  | case4 machine fuel hrunning next hrun =>
    rw [ticked, if_neg hrunning, hrun, List.forall_mem_cons] at htick
    have hnext := htick.1 hmachine
    rw [hrun] at hnext
    exact hnext
  | case5 machine fuel hrunning cause next hrun =>
    rw [ticked, if_neg hrunning, hrun, List.forall_mem_cons] at htick
    have hnext := htick.1 hmachine
    rw [hrun, EStateM.Result.state_error] at hnext
    rw [EStateM.Result.state_error]
    exact hnote hnext _ _

/-- What steps and records in the log keep is kept by a run. -/
theorem drive_keeps (htick : Keeps holds Machine.tick)
    (hnote : ∀ {machine}, holds machine → ∀ level message, holds (machine.note level message))
    (hmachine : holds machine) (fuel : Nat) : holds (machine.drive fuel).state :=
  drive_keeps_of_ticked (fun met _ => htick met) hnote hmachine

theorem mem_tickedAll_cons {met : Machine} {operation : Operation} {operations : List Operation} :
    met ∈ machine.tickedAll (operation :: operations) ↔
      met ∈ machine.tickedBy operation ∨
        met ∈ (machine.perform operation).tickedAll operations :=
  List.mem_append

end Machine

variable [Segmentation]

/-- What is kept by steps and by all that happens between them: records in the log, lines that are
put in, pauses. -/
structure Lasting (holds : Machine → Prop) : Prop where
  tick : Keeps holds Machine.tick
  note : ∀ {machine}, holds machine → ∀ level message, holds (machine.note level message)
  set : ∀ {machine}, holds machine → ∀ program lastResult paused,
    holds { machine with program, lastResult, paused }

namespace Lasting

variable {holds : Machine → Prop} (hlasting : Lasting holds) {machine : Machine}
  (hmachine : holds machine)

include hlasting hmachine

theorem drive (fuel : Nat) : holds (machine.drive fuel).state :=
  Machine.drive_keeps hlasting.tick hlasting.note hmachine fuel

theorem load (program : Value) : holds (machine.load program) :=
  hlasting.set hmachine _ _ _

theorem run (fuel : Nat) (program : Value) : holds (Machine.run fuel program machine).state := by
  apply hlasting.drive
  apply hlasting.load
  split
  · exact hmachine
  · exact hlasting.set hmachine _ _ _

theorem pause : holds machine.pause := by
  rw [Machine.pause]
  split
  · exact hlasting.set hmachine _ _ _
  · exact hlasting.set (hlasting.note hmachine _ _) _ _ _

theorem resume (fuel : Nat) : holds (Machine.resume fuel machine).state := by
  apply hlasting.drive
  split
  · exact hlasting.set (hlasting.note hmachine _ _) _ _ _
  · exact hmachine

end Lasting

end Logo
