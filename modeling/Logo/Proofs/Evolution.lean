import Logo.Proofs.AlikeTurns
import Logo.Proofs.Operations

/-!
# What a step changes

A step of the machine starts at most one call or ends some, and then the innermost of the calls that
are left takes in a value or goes on with its work. The procedure of a call that starts is in the
table, and procedures are entered only by reading texts and by giving second names. What holds of
the frames and procedures of all machines that can be met follows from this.
-/

namespace Logo

/-! ## What forms ask for -/

/-- Only three forms end the procedure around them or stop the machine. -/
def Progress.Fits (form : Special) : Progress → Prop
  | .output _ => form = .output ∨ form = .stop
  | .pause => form = .pause
  | .done _ | .call _ _ | .bounded _ _ => True

namespace World

variable {continuation : Option Continuation} {finished : Option Value} {form : Special}

theorem fits_advance (keep : Block → Continuation) (block : Block) :
    Yields (Progress.Fits form) (do
      match ← stepBlock block finished with
      | .calls site block => return Progress.call site (keep block)
      | .ends value => return Progress.done value) := by
  refine Yields.bind fun reached => ?_
  cases reached <;> exact Yields.pure trivial

theorem fits_runBlock (handle : ListHandle) :
    Yields (Progress.Fits form) (runBlock handle continuation finished) := by
  fun_cases runBlock handle continuation finished with
  | case1 _ block => exact fits_advance _ block
  | case2 => exact Yields.bind (fits_advance _)

theorem fits_runRounds (handle : ListHandle) (block : Block) (finished : Option Value)
    (remaining : Nat) :
    Yields (Progress.Fits form) (runRounds handle block finished remaining) := by
  induction remaining generalizing block finished with
  | zero => exact fits_advance _ block
  | succ remaining ih =>
    refine Yields.bind fun reached => ?_
    cases reached with
    | calls site rest => exact Yields.pure trivial
    | ends value => exact Yields.bind fun next => ih next none

theorem fits_repeatBlock (count list : Value) :
    Yields (Progress.Fits form) (repeatBlock count list continuation finished) := by
  rw [repeatBlock]
  refine Yields.bind fun handle => ?_
  split
  · exact fits_runRounds _ _ _ _
  · refine Yields.bind fun number => ?_
    split
    · exact Yields.pure trivial
    · exact Yields.bind fun block => fits_runRounds _ block _ _

theorem fits_runList (input : Value) :
    Yields (Progress.Fits form) (runList input continuation finished) := by
  have hnamed : ∀ name, Yields (Progress.Fits form) (do
      if (← get).environment.procedures.contains name then
        return Progress.bounded [.call ⟨name, [], .nowhere⟩] .running
      else return Progress.done input : Action Progress) := by
    intro name
    refine Yields.bind fun world => ?_
    split <;> exact Yields.pure trivial
  fun_cases runList input continuation finished with
  | case1 | case5 => exact Yields.pure trivial
  | case2 => exact Yields.bind fun read => Yields.bind fun program => Yields.pure trivial
  | case3 | case4 => exact hnamed _

theorem fits_nextIteration (mode : Iteration) (template : ListHandle) (word : Bool)
    (results pending : List Value) :
    Yields (Progress.Fits form) (nextIteration mode template word results pending) := by
  cases pending with
  | nil => exact Yields.bind fun value => Yields.pure trivial
  | cons current pending =>
    exact Yields.bind fun world => Yields.bind fun read => Yields.bind fun program =>
      Yields.pure trivial

variable [Segmentation]

theorem fits_iterate (mode : Iteration) (template values : Value) :
    Yields (Progress.Fits form) (iterate mode template values continuation finished) := by
  rw [iterate]
  refine Yields.bind fun handle => ?_
  split
  · cases mode with
    | map => exact fits_nextIteration _ _ _ _ _
    | filter =>
      refine Yields.bind fun truth => ?_
      cases truth <;> exact fits_nextIteration _ _ _ _ _
    | find =>
      refine Yields.bind fun truth => ?_
      cases truth with
      | true => exact Yields.pure trivial
      | false => exact fits_nextIteration _ _ _ _ _
  · exact Yields.bind fun found => fits_nextIteration _ _ _ _ _

/-- A form leaves a continuation of its own kind. -/
theorem fits_runSpecial (form : Special) (inputs : List Value) :
    Yields (Progress.Fits form) (runSpecial form inputs continuation finished) := by
  cases form with
  | ifThen =>
    refine Yields.bind fun truth => ?_
    cases truth with
    | true => exact Yields.bind fits_runBlock
    | false => exact Yields.pure trivial
  | ifElse => exact Yields.bind fun truth => Yields.bind fits_runBlock
  | repeatBlock => exact fits_repeatBlock _ _
  | run => exact fits_runList _
  | iterate mode => exact fits_iterate _ _ _
  | output => exact Yields.pure (.inl rfl)
  | stop => exact Yields.pure (.inr rfl)
  | pause => exact Yields.pure rfl
  | thing =>
    refine Yields.bind fun name => Yields.bind fun world => ?_
    split
    · exact Yields.pure trivial
    · exact Yields.throw _
  | declare | make => exact Yields.bind fun name => Yields.bind fun _ => Yields.pure trivial
  | declareMake =>
    exact Yields.bind fun name => Yields.bind fun _ => Yields.bind fun _ => Yields.pure trivial

theorem yields_ne_pause (hpause : form ≠ .pause) (inputs : List Value) :
    Yields (· ≠ .pause) (runSpecial form inputs continuation finished) :=
  (fits_runSpecial form inputs).mono fun _ hfits hsame => hpause (by rwa [hsame] at hfits)

theorem yields_ne_output (houtput : form ≠ .output) (hstop : form ≠ .stop) (inputs : List Value) :
    Yields (fun progress => ∀ value, progress ≠ .output value)
      (runSpecial form inputs continuation finished) :=
  (fits_runSpecial form inputs).mono fun _ hfits value hsame =>
    not_or.mpr ⟨houtput, hstop⟩ (by rwa [hsame] at hfits)

end World

/-! ## Frames over time -/

namespace Frame

/-- The call has not gone on with its work, but a value may have been handed to it, or it may have
been ended. -/
structure Resumes (frame later : Frame) : Prop where
  call : later.call = frame.call
  definition : later.definition = frame.definition
  arguments : frame.arguments <+: later.arguments
  bound : later.bound = frame.bound
  cursor : later.cursor = frame.cursor
  continuation : later.continuation = frame.continuation

/-- The same call later on. While it waits for inputs, its work has not begun. -/
structure Continues (frame later : Frame) : Prop where
  call : later.call = frame.call
  definition : later.definition = frame.definition
  arguments : frame.arguments <+: later.arguments
  waits : frame.needsArguments = true → later.bound = frame.bound ∧ later.cursor = frame.cursor

variable {frame middle later : Frame}

theorem Resumes.refl (frame : Frame) : frame.Resumes frame :=
  ⟨rfl, rfl, List.prefix_refl _, rfl, rfl, rfl⟩

theorem Resumes.receive (frame : Frame) (value : Value) : frame.Resumes (frame.receive value) := by
  rw [Frame.receive]
  split
  · exact ⟨rfl, rfl, List.prefix_append _ _, rfl, rfl, rfl⟩
  · exact ⟨rfl, rfl, List.prefix_refl _, rfl, rfl, rfl⟩

theorem Resumes.finish (frame : Frame) (value : Value) : frame.Resumes (frame.finish value) :=
  ⟨rfl, rfl, List.prefix_refl _, rfl, rfl, rfl⟩

theorem Continues.refl (frame : Frame) : frame.Continues frame :=
  ⟨rfl, rfl, List.prefix_refl _, fun _ => ⟨rfl, rfl⟩⟩

theorem Continues.resume (hcontinues : frame.Continues middle) (hresumes : middle.Resumes later) :
    frame.Continues later where
  call := hresumes.call.trans hcontinues.call
  definition := hresumes.definition.trans hcontinues.definition
  arguments := hcontinues.arguments.trans hresumes.arguments
  waits hneeds := by
    rw [hresumes.bound, hresumes.cursor]
    exact hcontinues.waits hneeds

/-- A call that has all its inputs goes on with its work. -/
theorem Continues.of_started (hneeds : frame.needsArguments = false)
    (hcall : later.call = frame.call) (hdefinition : later.definition = frame.definition)
    (harguments : later.arguments = frame.arguments) : frame.Continues later where
  call := hcall
  definition := hdefinition
  arguments := harguments ▸ List.prefix_refl _
  waits hwaits := by
    rw [hneeds] at hwaits
    exact absurd hwaits Bool.false_ne_true

theorem Resumes.continues (hresumes : frame.Resumes later) : frame.Continues later :=
  (Continues.refl frame).resume hresumes

end Frame

/-- All frames are the same but for the first one, if there is one. -/
inductive FirstChanges (change : Frame → Frame → Prop) : List Frame → List Frame → Prop where
  | none : FirstChanges change [] []
  | some {frame later : Frame} (hchange : change frame later) (rest : List Frame) :
      FirstChanges change (frame :: rest) (later :: rest)

/-- The active calls after a step, which may have started a call of a procedure of the table. -/
inductive Reframed (procedures : Procedures) : List Frame → List Frame → Prop where
  | ends (given : List Frame) {frames later : List Frame}
      (hfirst : FirstChanges Frame.Resumes frames later) : Reframed procedures (given ++ frames) later
  | stays {frames later : List Frame} (hfirst : FirstChanges Frame.Continues frames later) :
      Reframed procedures frames later
  | starts {call : Call} {definition : Procedure} {frames later : List Frame}
      (hfound : procedures.find? call.name = some definition)
      (hfirst : FirstChanges Frame.Continues frames later) :
      Reframed procedures frames (.new call definition :: later)

namespace FirstChanges

variable {change : Frame → Frame → Prop} {frames middle later : List Frame}

theorem refl (hrefl : ∀ frame, change frame frame) (frames : List Frame) :
    FirstChanges change frames frames := by
  cases frames with
  | nil => exact .none
  | cons frame rest => exact .some (hrefl frame) rest

theorem replaceTop {frames : Stack Frame} {frame next : Frame} (htop : frames.top? = .some frame)
    (hchange : change frame next) (rest : List Frame) :
    FirstChanges change (frames.toList ++ rest) ((frames.replaceTop next).toList ++ rest) := by
  rw [Stack.eq_push_of_top? htop, Stack.replaceTop_push]
  exact .some hchange _

/-- Where a call has gone on with its work and frames have then been given up, the innermost of the
frames that are left has only been handed a value, unless it is that call itself. -/
theorem reframed_ends (hfirst : FirstChanges Frame.Continues frames middle) {given : List Frame}
    {rest : List Frame} (hmiddle : middle = given ++ rest)
    (hlater : FirstChanges Frame.Resumes rest later) (procedures : Procedures) :
    Reframed procedures frames later := by
  cases hfirst with
  | none =>
    obtain ⟨rfl, rfl⟩ := List.nil_eq_append_iff.mp hmiddle
    cases hlater
    exact .stays .none
  | @some frame next hchange below =>
    cases given with
    | nil =>
      subst hmiddle
      cases hlater with
      | some hresumes => exact .stays (.some (hchange.resume hresumes) below)
    | cons first given =>
      cases hmiddle
      exact .ends (frame :: given) hlater

/-- What holds of every frame still does if the change of the first one keeps it. -/
theorem forall_mem {holds : Frame → Prop} (hfirst : FirstChanges change frames later)
    (hkeeps : ∀ {frame later}, change frame later → holds frame → holds later)
    (hframes : ∀ frame ∈ frames, holds frame) : ∀ frame ∈ later, holds frame := by
  cases hfirst with
  | none => exact hframes
  | some hchange rest =>
    rw [List.forall_mem_cons] at hframes ⊢
    exact ⟨hkeeps hchange hframes.1, hframes.2⟩

end FirstChanges

/-- What holds of new frames and is kept by calls that go on holds of every frame after a step. -/
theorem Reframed.forall_mem {procedures : Procedures} {frames later : List Frame}
    {holds : Frame → Prop} (hreframed : Reframed procedures frames later)
    (hnew : ∀ call definition, holds (.new call definition))
    (hkeeps : ∀ {frame later : Frame}, frame.Continues later → holds frame → holds later)
    (hframes : ∀ frame ∈ frames, holds frame) : ∀ frame ∈ later, holds frame := by
  cases hreframed with
  | ends given hfirst =>
    apply hfirst.forall_mem fun hresumes => hkeeps hresumes.continues
    exact fun frame hmem => hframes frame (List.mem_append_right given hmem)
  | stays hfirst => exact hfirst.forall_mem hkeeps hframes
  | starts hfound hfirst =>
    exact List.forall_mem_cons.mpr ⟨hnew _ _, hfirst.forall_mem hkeeps hframes⟩

namespace Machine

/-- The machine after a step, or after a part of one. -/
structure Evolves (machine later : Machine) : Prop where
  frames : Reframed later.world.environment.procedures machine.allFrames later.allFrames
  table : machine.world.environment.procedures.Becomes later.world.environment.procedures

/-- The machine with nothing changed but the work of the innermost call. -/
structure Advances (machine later : Machine) : Prop where
  frames : FirstChanges Frame.Continues machine.allFrames later.allFrames
  table : machine.world.environment.procedures.Becomes later.world.environment.procedures

variable {machine middle later : Machine} {frame next : Frame}

theorem Advances.refl (machine : Machine) : machine.Advances machine :=
  ⟨.refl Frame.Continues.refl _, .refl⟩

theorem Advances.evolves (hadvances : machine.Advances later) : machine.Evolves later :=
  ⟨.stays hadvances.frames, hadvances.table⟩

theorem Advances.withTop (htop : machine.frames.top? = some frame)
    (hcontinues : frame.Continues next) {world : World}
    (htable : machine.world.environment.procedures.Becomes world.environment.procedures) :
    machine.Advances (machine.withTop next world) :=
  ⟨.replaceTop htop hcontinues _, htable⟩

theorem Advances.schedule (hadvances : machine.Advances middle) (call : Call) :
    machine.Evolves (schedule call middle).state := by
  rw [schedule_apply]
  cases hfound : middle.world.environment.procedures.find? call.name with
  | none => exact hadvances.evolves
  | some definition =>
    dsimp only
    split
    · exact hadvances.evolves
    · rw [EStateM.Result.state_ok, enter_eq]
      cases definition.isSpecial <;> exact ⟨.starts hfound hadvances.frames, hadvances.table⟩

theorem Advances.beginBounded (hadvances : machine.Advances later) (lines : List Value) :
    machine.Evolves (later.beginBounded lines) := by
  rw [Machine.beginBounded, note_eq]
  exact ⟨.stays hadvances.frames, hadvances.table⟩

theorem Advances.pause (hadvances : machine.Advances later) : machine.Evolves later.pause := by
  rw [Machine.pause, note_eq]
  split <;> exact ⟨.stays hadvances.frames, hadvances.table⟩

/-! ## Calls end -/

theorem procedures_abandon (machine : Machine) (frames : List Frame) (rest : Stack Frame) :
    (machine.abandon frames rest).world.environment.procedures =
      machine.world.environment.procedures := by
  let holds : Machine → Prop := fun later =>
    later.world.environment.procedures = machine.world.environment.procedures
  have hkeeps : holds (machine.abandon frames rest) := by
    apply abandon_keeps
    · intro start frame hstart
      rw [release_eq, note_eq]
      dsimp only [holds]
      split <;> exact hstart
    · rfl
  exact hkeeps

theorem resumes_received (frames : Stack Frame) (value : Value) (rest : List Frame) :
    FirstChanges Frame.Resumes (frames.toList ++ rest)
      ((received frames value).toList ++ rest) := by
  rw [received]
  split
  · rename_i parent htop
    exact .replaceTop htop (.receive parent value) rest
  · exact .refl Frame.Resumes.refl _

theorem resumes_answered (saved : Segment) (value : Value) (rest : List Frame) :
    FirstChanges Frame.Resumes (saved.frames.toList ++ rest)
      ((answered saved value).toList ++ rest) := by
  rw [answered]
  split
  · rename_i parent htop
    exact .replaceTop htop ⟨rfl, rfl, List.prefix_refl _, rfl, rfl, rfl⟩ rest
  · exact .refl Frame.Resumes.refl _

theorem evolves_unschedule (htop : machine.frames.top? = some frame) :
    machine.Evolves machine.unschedule.2 := by
  rw [unschedule_eq htop, note_eq, release_eq]
  refine ⟨?_, ?_⟩
  · rw [allFrames, Stack.eq_push_of_top? htop]
    exact .ends [frame] (resumes_received _ _ _)
  · dsimp only
    split <;> exact .refl

theorem evolves_endBounded {saved : Segment} {outer : List Segment}
    (htop : machine.frames.top? = none) (hbounded : machine.bounded = saved :: outer) :
    machine.Evolves (machine.endBounded saved outer) := by
  rw [endBounded_eq, note_eq]
  refine ⟨?_, .refl⟩
  rw [allFrames, hbounded, Stack.eq_empty_of_top? htop]
  exact .ends [] (resumes_answered _ _ _)

theorem toList_drop_takeWhile {frames : Stack Frame} {keep : Frame → Bool} {target : Frame}
    {rest : List Frame} (hrest : frames.toList.dropWhile keep = target :: rest) :
    (frames.drop (frames.toList.takeWhile keep).length).toList = target :: rest := by
  have hsplit : frames.toList.takeWhile keep ++ target :: rest = frames.toList := by
    rw [← hrest]
    exact List.takeWhile_append_dropWhile
  calc (frames.drop (frames.toList.takeWhile keep).length).toList
      = (frames.toList.takeWhile keep ++ target :: rest).drop
          (frames.toList.takeWhile keep).length := by rw [hsplit, Stack.toList_drop]
    _ = target :: rest := List.drop_left

/-- The machine with frames given up from the innermost on. -/
structure Lowers (machine later : Machine) : Prop where
  frames : ∃ given rest, machine.allFrames = given ++ rest ∧
    FirstChanges Frame.Resumes rest later.allFrames
  table : later.world.environment.procedures = machine.world.environment.procedures

/-- An output ends calls and starts none. -/
theorem lowers_outputThrough (machine : Machine) (value : Value) {segments : List Segment}
    (hbounded : machine.bounded = segments) :
    machine.Lowers (machine.outputThrough value segments) := by
  refine outputThrough_keeps
    (fun later => (∃ given, machine.allFrames = given ++ later.allFrames) ∧
      later.world.environment.procedures = machine.world.environment.procedures)
    machine.Lowers ?_ ?_ ?_ ?_ hbounded ⟨⟨[], rfl⟩, rfl⟩
  · intro later level message hlater
    rw [note_eq]
    exact hlater
  · rintro later saved outer hbounded ⟨⟨given, hframes⟩, htable⟩
    have hprocedures := later.procedures_abandon later.frames.toList .empty
    obtain ⟨world, active, habandon⟩ := later.exists_abandon_eq later.frames.toList .empty
    rw [habandon] at hprocedures ⊢
    refine ⟨⟨given ++ later.frames.toList, ?_⟩, hprocedures.trans htable⟩
    rw [hframes, allFrames, hbounded, List.append_assoc]
    rfl
  · rintro later above target rest hsplit ⟨⟨given, hframes⟩, htable⟩
    have hprocedures := later.procedures_abandon above
      ((later.frames.drop above.length).replaceTop (target.finish value))
    obtain ⟨world, active, habandon⟩ := later.exists_abandon_eq above
      ((later.frames.drop above.length).replaceTop (target.finish value))
    rw [habandon] at hprocedures ⊢
    refine ⟨⟨given ++ above, (later.frames.drop above.length).toList ++
      later.bounded.flatMap (·.frames.toList), ?_, ?_⟩, hprocedures.trans htable⟩
    · rw [hframes, allFrames, Stack.toList_drop_of_append hsplit, hsplit]
      simp
    · exact .replaceTop (Stack.top?_drop_of_append hsplit) (.finish target value) _
  · rintro later ⟨⟨given, hframes⟩, htable⟩
    exact ⟨⟨given, _, hframes, .refl Frame.Resumes.refl _⟩, htable⟩

theorem Advances.lower (hadvances : machine.Advances middle) (hlowers : middle.Lowers later) :
    machine.Evolves later := by
  obtain ⟨⟨given, rest, hsplit, hfirst⟩, htable⟩ := hlowers
  exact ⟨hadvances.frames.reframed_ends hsplit hfirst _, htable ▸ hadvances.table⟩

/-! ## Steps -/

/-- A program that goes on starts a call, or ends a run. -/
theorem evolves_advanceProgram (htop : machine.frames.top? = none) :
    machine.Evolves (advanceProgram machine).state := by
  rw [advanceProgram_apply]
  cases machine.program with
  | nil =>
    dsimp only
    split
    · rename_i saved outer hbounded
      exact evolves_endBounded htop hbounded
    · exact (Advances.refl machine).evolves
  | cons line program =>
    have hnext : ∀ later : Machine, later.allFrames = machine.allFrames →
        later.world.environment.procedures = machine.world.environment.procedures →
        machine.Advances later := by
      intro later hframes htable
      refine ⟨?_, htable ▸ .refl⟩
      rw [hframes]
      exact .refl Frame.Continues.refl _
    cases line with
    | call site => exact (hnext { machine with program } rfl rfl).schedule site
    | procedure definition =>
      dsimp only
      rw [EStateM.Result.state_ok, note_eq]
      exact Advances.evolves (hnext _ rfl rfl)
    | list handle => exact Advances.evolves (hnext _ rfl rfl)
    | atom value => cases value <;> exact Advances.evolves (hnext _ rfl rfl)

theorem evolves_make (htop : machine.frames.top? = some frame) {turn : Turn}
    (hframe : frame.Continues turn.frame)
    (htable : machine.world.environment.procedures.Becomes turn.world.environment.procedures) :
    machine.Evolves (machine.make turn).state := by
  have hnext := Advances.withTop htop hframe htable
  rw [make]
  cases turn.move with
  | stay | fail _ => exact hnext.evolves
  | call site => exact hnext.schedule site
  | output value => exact hnext.lower (lowers_outputThrough _ value rfl)
  | pause => exact hnext.pause
  | bounded lines => exact hnext.beginBounded lines

theorem continues_proceed (hneeds : frame.needsArguments = false)
    (result : EStateM.Result RuntimeError World Progress) :
    frame.Continues
      ({ frame with bound := true, continuation := none, result := none }.proceed result).frame := by
  cases result with
  | error cause world => exact .of_started hneeds rfl rfl rfl
  | ok progress world => cases progress <;> exact .of_started hneeds rfl rfl rfl

variable [Segmentation]

/-- A turn keeps the call, its definition and the inputs gathered. -/
theorem continues_turn (forms : Forms) (frame : Frame) (world : World) :
    frame.Continues (forms.turn frame world).frame := by
  rw [Forms.turn]
  split
  · rw [Frame.takeInput]
    split
    · exact .refl frame
    · exact ⟨rfl, rfl, List.prefix_append _ _, fun _ => ⟨rfl, rfl⟩⟩
    · exact .refl frame
  · rename_i hneeds
    have hneeds := eq_false_of_ne_true hneeds
    split
    · exact .refl frame
    · cases hkind : frame.definition.kind with
      | native action =>
        dsimp only
        cases World.runNative action frame.arguments _ <;> exact .of_started hneeds rfl rfl rfl
      | special form => exact continues_proceed hneeds _
      | userDefined =>
        dsimp only
        rw [Frame.takeLine]
        dsimp only
        split <;> exact .of_started hneeds rfl rfl rfl

theorem evolves_step (machine : Machine) : machine.Evolves (step machine).state := by
  obtain ⟨htop, hstep⟩ | ⟨frame, htop, ⟨-, hstep⟩ | ⟨-, hstep⟩⟩ := machine.step_cases
  · rw [hstep]
    exact evolves_advanceProgram htop
  · rw [hstep]
    exact evolves_unschedule htop
  · rw [hstep]
    apply evolves_make htop (continues_turn Forms.standard frame machine.world)
    exact Forms.keeps_turn World.orderly_runSpecial
      (Environment.stable_becomes machine.world.environment.procedures) .refl frame

/-- What every step does to the calls and the procedures of the machine. -/
theorem evolves_tick (machine : Machine) : machine.Evolves (tick machine).state := by
  cases hpaused : machine.paused with
  | true =>
    rw [tick_of_paused hpaused]
    exact (Advances.refl machine).evolves
  | false =>
    rw [state_tick_of_running hpaused]
    exact machine.evolves_step

/-- What holds of new frames and is kept by calls that go on holds of every frame of every machine
that can be met. -/
theorem frames_performAll {holds : Frame → Prop}
    (hnew : ∀ call definition, holds (.new call definition))
    (hkeeps : ∀ {frame later : Frame}, frame.Continues later → holds frame → holds later)
    (maxDepth : Nat) (console : Console) (log : Log) (operations : List Operation) :
    ∀ frame ∈ ((Machine.new maxDepth console log).performAll operations).allFrames,
      holds frame := by
  have hevolves : ∀ {machine later : Machine}, machine.Evolves later →
      (∀ frame ∈ machine.allFrames, holds frame) → ∀ frame ∈ later.allFrames, holds frame :=
    fun hevolves => hevolves.frames.forall_mem hnew hkeeps
  have hlasting : Lasting fun machine => ∀ frame ∈ machine.allFrames, holds frame :=
    { tick := fun machine => hevolves machine.evolves_tick
      note := fun {machine} hmachine level message => by
        rw [note_eq]
        exact hmachine
      set := fun hmachine _ _ _ => hmachine }
  apply performAll_keeps (fun machine => ∀ frame ∈ machine.allFrames, holds frame) fun _ => True
  · intro machine operation _ hmachine
    cases operation with
    | read source =>
      obtain ⟨world, hread⟩ := exists_readProgramList_eq source machine
      rw [perform, hread]
      exact hmachine
    | place datum => exact hmachine
    | load program => exact hlasting.load hmachine program
    | run fuel program => exact hlasting.run hmachine fuel program
    | resume fuel => exact hlasting.resume hmachine fuel
    | pause => exact hevolves (Advances.refl machine).pause hmachine
    | tick => exact hlasting.tick machine hmachine
    | schedule call => exact hevolves ((Advances.refl machine).schedule call) hmachine
    | unschedule =>
      cases htop : machine.frames.top? with
      | none =>
        rw [perform, unschedule, htop]
        exact hmachine
      | some frame => exact hevolves (evolves_unschedule htop) hmachine
    | reset => exact List.forall_mem_nil _
  · exact fun operation _ => trivial
  · exact List.forall_mem_nil _

end Machine

end Logo
