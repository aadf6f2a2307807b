import Logo.Proofs.Bookkeeping
import Logo.Proofs.Unwinding
import Logo.Text.Cluster

/-!
# What an output leaves

An output ends the innermost user-defined procedure, in whatever blocks, templates and bounded runs
it stands. Exactly that is left of the machine which lies outside: calls, lines and runs as they
were, the scopes of these calls with all their variables, and counts that fit them. In the next step
the value goes to whatever has waited for the procedure.
-/

namespace Logo

theorem Procedure.isSpecial_of_userDefined {procedure : Procedure}
    (huser : procedure.isUserDefined = true) : procedure.isSpecial = false := by
  rw [isUserDefined] at huser
  rw [isSpecial]
  cases hkind : procedure.kind with
  | userDefined => rfl
  | native action => rfl
  | special form =>
    rw [hkind] at huser
    cases huser

namespace Ground

def receive (ground : Ground) (value : Value) : Ground :=
  match ground.frames with
  | [] => ground
  | caller :: below => { ground with frames := caller.receive value :: below }

namespace Unwinds

variable {ground rest : Ground} {passed : List Frame} {target : Frame}

section

variable (hunwinds : ground.Unwinds passed target rest)

include hunwinds

/-- Nothing is skipped on the way out. -/
theorem allFrames_eq : ground.allFrames = passed ++ target :: rest.allFrames := by
  induction hunwinds with
  | here _ _ => simp only [allFrames, List.append_assoc, List.cons_append]
  | @outward frames passed _ saved bounded _ _ _ _ ih =>
    simp only [allFrames, List.flatMap_cons] at ih ⊢
    rw [ih, List.append_assoc]

theorem passed_primitive : ∀ frame ∈ passed, frame.definition.isUserDefined = false := by
  induction hunwinds with
  | here habove _ => exact habove
  | outward hframes _ ih => exact List.forall_mem_append.mpr ⟨hframes, ih⟩

theorem target_userDefined : target.definition.isUserDefined = true := by
  induction hunwinds with
  | here _ huser => exact huser
  | outward _ _ ih => exact ih

/-- The calls up to the innermost one of a user-defined procedure, and those from there on. -/
theorem takeWhile_dropWhile_eq :
    ground.allFrames.takeWhile (!·.definition.isUserDefined) = passed ∧
      ground.allFrames.dropWhile (!·.definition.isUserDefined) = target :: rest.allFrames := by
  have hpassed : ∀ frame ∈ passed, (!frame.definition.isUserDefined) = true := by
    intro frame hmem
    rw [hunwinds.passed_primitive frame hmem]
    rfl
  have htarget : ¬(!target.definition.isUserDefined) = true := by
    rw [hunwinds.target_userDefined]
    exact Bool.false_ne_true
  rw [hunwinds.allFrames_eq, List.takeWhile_append_of_pos hpassed,
    List.dropWhile_append_of_pos hpassed, List.takeWhile_cons, if_neg htarget,
    List.dropWhile_cons, if_neg htarget, List.append_nil]
  exact ⟨rfl, rfl⟩

end

/-- What the innermost call has been doing plays no role if it is of a primitive. -/
theorem exchange {frame next : Frame} {below : List Frame} {program : List Value}
    {bounded : List Segment}
    (hunwinds : Unwinds ⟨frame :: below, program, bounded⟩ passed target rest)
    (hprimitive : frame.definition.isUserDefined = false)
    (hdefinition : next.definition = frame.definition) :
    ∃ others, passed = frame :: others ∧
      Unwinds ⟨next :: below, program, bounded⟩ (next :: others) target rest := by
  have hnext : next.definition.isUserDefined = false := by rw [hdefinition, hprimitive]
  generalize hground : (⟨frame :: below, program, bounded⟩ : Ground) = ground at hunwinds
  cases hunwinds with
  | here habove huser =>
    obtain ⟨hframes, rfl, rfl⟩ := Ground.mk.inj hground
    cases passed with
    | nil =>
      cases hframes
      rw [huser] at hprimitive
      cases hprimitive
    | cons first above =>
      cases hframes
      exact ⟨above, rfl, @here (next :: above) target rest
        (List.forall_mem_cons.mpr ⟨hnext, (List.forall_mem_cons.mp habove).2⟩) huser⟩
  | outward hframes hbelow =>
    cases hground
    exact ⟨_, rfl, outward
      (List.forall_mem_cons.mpr ⟨hnext, (List.forall_mem_cons.mp hframes).2⟩) hbelow⟩

end Unwinds

end Ground

/-- Of the open scopes those are closed that belong to the calls given up. -/
theorem Environment.forsake_eq (environment : Environment) (frames : List Frame) :
    environment.forsake frames =
      { environment with
        inner := environment.inner.drop (frames.countP (!·.definition.isSpecial)) } := by
  induction frames generalizing environment with
  | nil => rfl
  | cons frame frames ih =>
    rw [forsake, List.foldl_cons]
    refine (ih _).trans ?_
    cases hspecial : frame.definition.isSpecial with
    | true => simp [hspecial]
    | false => simp [hspecial, Environment.pop, Nat.add_comm]

namespace Machine

section

theorem ground_received (machine : Machine) (frames : List Frame) (value : Value) :
    Machine.ground { machine with frames := received (.ofList frames) value } =
      Ground.receive ⟨frames, machine.program, machine.bounded⟩ value := by
  cases frames <;> rfl

variable [Segmentation]

/-- The form of the innermost call reports that the procedure around it is over with a value. -/
structure EndsProcedure (machine : Machine) (frame : Frame) (value : Value) : Prop where
  performs : machine.Performs frame
  output : ∃ form world, frame.definition.kind = .special form ∧
    World.runSpecial form frame.arguments frame.continuation frame.result machine.world =
      .ok (.output value) world

/-- What is left of a machine when calls have been given up: calls and lines as given, the scopes of
these calls as they were, and counts of these calls. Nothing else has changed but the log, the
result that came last and what the calls themselves have been handed. -/
structure ReducedTo (machine : Machine) (ground : Ground) (later : Machine) : Prop where
  ground_eq : later.ground = ground
  scopes : later.world.environment.inner <:+ machine.world.environment.inner
  owners : later.world.environment.inner.map (·.name) =
    (ground.allFrames.filter (!·.definition.isSpecial)).map (·.definition.name)
  world : later.world =
    { machine.world with
      environment := { machine.world.environment with inner := later.world.environment.inner }
      log := later.world.log }
  suspended : later.suspended = (ground.bounded.map (·.frames.size)).sum
  active : ∀ name, later.active.get? name = countNamed (ground.allFrames.map (·.definition)) name
  depth : later.depth = ground.height
  settings : later.paused = machine.paused ∧ later.maxDepth = machine.maxDepth

variable {machine later : Machine} {frame target : Frame} {passed : List Frame} {rest : Ground}
  {value : Value}

omit [Segmentation] in
/-- Where the books agree, the counts are those of the calls that are left. -/
theorem reducedTo_of_books {maxDepth : Nat} (hbooks : Books maxDepth later [])
    (hscopes : later.world.environment.inner <:+ machine.world.environment.inner)
    (hworld : later.world =
      { machine.world with
        environment := { machine.world.environment with inner := later.world.environment.inner }
        log := later.world.log })
    (hsettings : later.paused = machine.paused ∧ later.maxDepth = machine.maxDepth) :
    machine.ReducedTo later.ground later where
  ground_eq := rfl
  scopes := hscopes
  owners := hbooks.scopeNames_eq.1
  world := hworld
  suspended := hbooks.suspended
  active := hbooks.accounts.active
  depth := hbooks.length_allFrames.symm
  settings := hsettings

/-- Only `output` and `stop` report the end of a procedure. -/
theorem EndsProcedure.outputs (hends : machine.EndsProcedure frame value) :
    machine.Outputs frame ∧ frame.given = value := by
  obtain ⟨⟨hrunning, htop, hopen, hcomplete, henough⟩, form, world, hkind, hrun⟩ := hends
  have houtput : frame.isOutput = true := by
    rw [Frame.isOutput, hkind]
    obtain rfl | rfl : form = .output ∨ form = .stop :=
      World.fits_runSpecial form _ _ _ _ hrun
    · rfl
    · rfl
  refine ⟨⟨hrunning, htop, hopen, hcomplete, henough, houtput⟩, ?_⟩
  have hsame := (runSpecial_of_output hkind houtput machine.world).symm.trans hrun
  cases hsame
  rfl

/-- The step that performs the output. -/
theorem EndsProcedure.step_eq (hends : machine.EndsProcedure frame value)
    (hunwinds : machine.ground.Unwinds passed target rest) :
    ∃ later, step machine = .ok () later ∧ machine.Unwound value passed target rest later := by
  obtain ⟨houtputs, rfl⟩ := hends.outputs
  obtain ⟨form, hkind⟩ := houtputs.exists_special
  have hprimitive : frame.definition.isUserDefined = false := by
    rw [Procedure.isUserDefined, hkind]
  obtain ⟨next, hdefinition, hstep⟩ := houtputs.exists_step_eq
  have hframes : machine.ground = ⟨frame :: machine.frames.pop.toList, machine.program,
      machine.bounded⟩ := by
    rw [ground, Stack.eq_push_of_top? houtputs.top]
    rfl
  rw [hframes] at hunwinds
  obtain ⟨others, rfl, hexchanged⟩ := hunwinds.exchange hprimitive hdefinition
  have hground : (machine.withTop next machine.world).ground =
      ⟨next :: machine.frames.pop.toList, machine.program, machine.bounded⟩ := by
    rw [ground, withTop, Stack.eq_push_of_top? houtputs.top, Stack.replaceTop_push]
    rfl
  rw [← hground] at hexchanged
  obtain ⟨log, active, suspended, houtput⟩ := output_of_unwinds hexchanged frame.given
  refine ⟨_, hstep, log, active, suspended, ?_⟩
  have hforsake : machine.world.environment.forsake (next :: others) =
      machine.world.environment.forsake (frame :: others) := by
    simp only [Environment.forsake_eq, List.countP_cons, hdefinition]
  rw [houtput, ← hforsake]
  rfl

/-- The step behind the one that performs the output. -/
theorem step_of_finished {below : List Frame}
    (hframes : later.frames = .ofList (target.finish value :: below))
    (huser : target.definition.isUserDefined = true) :
    ∃ log active, step later = .ok ()
      { later with
        world := { later.world with environment := later.world.environment.pop, log }
        frames := received (.ofList below) value
        lastResult := value
        active } := by
  have htop : later.frames.top? = some (target.finish value) := by
    rw [hframes]
    rfl
  have hpop : later.frames.pop = .ofList below := by
    rw [hframes]
    rfl
  have hspecial : (target.finish value).definition.isSpecial = false :=
    Procedure.isSpecial_of_userDefined huser
  have hstep : step later = .ok () later.unschedule.2 := by
    rw [step, htop]
    rfl
  rw [hstep, unschedule_eq htop, release_eq, note_apply, hspecial, hpop]
  exact ⟨_, _, rfl⟩

/-- The first of the two steps: what is left with the procedure that is over. -/
theorem EndsProcedure.exists_after {maxDepth : Nat} (hbooks : Books maxDepth machine [])
    (hends : machine.EndsProcedure frame value)
    (hunwinds : machine.ground.Unwinds passed target rest) :
    ∃ after, tick machine = .ok true after ∧ Books maxDepth after [] ∧
      machine.ReducedTo (rest.push [target.finish value]) after := by
  obtain ⟨_, hstep, log, active, suspended, rfl⟩ := hends.step_eq hunwinds
  have hafter := hbooks.step
  rw [hstep, Environment.forsake_eq] at hafter
  rw [Environment.forsake_eq] at hstep
  exact ⟨_, tick_of_step hends.performs.running hstep rfl, hafter,
    reducedTo_of_books hafter (List.drop_suffix _ _) rfl ⟨rfl, rfl⟩⟩

/-- The second one: what is left when the value has been handed on. -/
theorem ReducedTo.exists_final {maxDepth : Nat} (hbooks : Books maxDepth later [])
    (hreduced : machine.ReducedTo (rest.push [target.finish value]) later)
    (hrunning : machine.paused = false) (huser : target.definition.isUserDefined = true) :
    ∃ final, tick later = .ok final.hasWork final ∧
      machine.ReducedTo (rest.receive value) final ∧ final.lastResult = value := by
  obtain ⟨hlist, hprogram, hbounded⟩ := Ground.mk.inj hreduced.ground_eq
  have hframes : later.frames = .ofList (target.finish value :: rest.frames) := Stack.ext hlist
  obtain ⟨log, active, hstep⟩ := step_of_finished hframes huser
  have hfinal := hbooks.step
  rw [hstep] at hfinal
  have htick := tick_of_running (hreduced.settings.1.trans hrunning)
  rw [hstep] at htick
  have hground : rest.receive value =
      Ground.receive ⟨rest.frames, later.program, later.bounded⟩ value := by
    rw [hprogram, hbounded]
  refine ⟨_, htick, ?_, rfl⟩
  rw [hground, ← later.ground_received]
  refine reducedTo_of_books hfinal ?_ ?_ hreduced.settings
  · exact (List.tail_suffix _).trans hreduced.scopes
  · rw [hreduced.world]
    rfl

/-- On every machine that can be met, when a special form reports that the procedure around it is
over, the innermost call of a user-defined procedure is over with the value, in its own run and with
the lines of that run. The calls and runs outside it are as they were, and so are their scopes with
all variables; no other scope is open, and all counts are those of these calls. The next step hands
the value on. Then nothing is left in the machine of that call, nor of the blocks, templates and
bounded runs inside it, so that no further line of them can run. -/
theorem output_leaves_calls_outside (maxDepth : Nat) (console : Console) (log : Log)
    (operations : List Operation) :
    let machine := (Machine.new maxDepth console log).performAll operations
    ∀ frame value, machine.EndsProcedure frame value →
      (∃ other ∈ machine.allFrames, other.definition.isUserDefined = true) →
      ∃ passed target rest, machine.ground.Unwinds passed target rest ∧
        ∃ after final, tick machine = .ok true after ∧
          machine.ReducedTo (rest.push [target.finish value]) after ∧
          tick after = .ok final.hasWork final ∧
          machine.ReducedTo (rest.receive value) final ∧ final.lastResult = value := by
  intro machine frame value hends hexists
  have hbooks : Books maxDepth machine [] := Books.performAll maxDepth console log operations
  obtain ⟨passed, target, rest, hunwinds⟩ := @Ground.exists_unwinds machine.ground hexists
  obtain ⟨after, htick, hafter, hreduced⟩ := hends.exists_after hbooks hunwinds
  obtain ⟨final, hnext, hfinal, hresult⟩ :=
    hreduced.exists_final hafter hends.performs.running hunwinds.target_userDefined
  exact ⟨passed, target, rest, hunwinds, after, final, htick, hreduced, hnext, hfinal, hresult⟩

end

open scoped Graphemes

/-- The `output` stands in a template, in a bounded run, in a block, in the body of `g`. -/
theorem output_leaves_template_run_and_block :
    let machine := (Machine.new 10 (.new []) (.new none)).performAll
      [.read "to g\nif true [run [map [output ?] [5 6]]]\nprint 9\nend\nprint g",
        .run 15 (.list ⟨0, none⟩)]
    ∃ frame value, machine.EndsProcedure frame value ∧ (machine.view value).source = "5" ∧
      ∃ passed target rest, machine.ground.Unwinds passed target rest ∧
        passed.map (·.definition.name) = ["output", "map", "run", "if"] ∧
        (target :: rest.allFrames).map (·.definition.name) = ["g", "print"] ∧
        ∃ after final, tick machine = .ok true after ∧
          machine.ReducedTo (rest.push [target.finish value]) after ∧
          tick after = .ok final.hasWork final ∧
          machine.ReducedTo (rest.receive value) final ∧ final.lastResult = value := by
  intro machine
  have hmachine : (machine.paused = false ∧ (machine.frames.top?.any fun frame =>
      !frame.evaluated && !frame.needsArguments && frame.isOutput &&
        decide (frame.definition.arity ≤ frame.arguments.length) &&
        (machine.view frame.given).source == "5") = true) ∧
      (machine.allFrames.takeWhile (!·.definition.isUserDefined)).map (·.definition.name) =
        ["output", "map", "run", "if"] ∧
      (machine.allFrames.dropWhile (!·.definition.isUserDefined)).map (·.definition.name) =
        ["g", "print"] ∧
      machine.allFrames.any (·.definition.isUserDefined) = true := by
    decide +kernel
  obtain ⟨⟨hrunning, hframe⟩, hinside, houtside, huser⟩ := hmachine
  obtain ⟨frame, htop, hframe⟩ := (Option.any_eq_true ..).mp hframe
  simp only [Bool.and_eq_true, Bool.not_eq_true', decide_eq_true_eq, beq_iff_eq] at hframe
  obtain ⟨⟨⟨⟨hopen, hcomplete⟩, houtput⟩, henough⟩, hgiven⟩ := hframe
  have houtputs : machine.Outputs frame := ⟨hrunning, htop, hopen, hcomplete, henough, houtput⟩
  obtain ⟨form, hkind⟩ := houtputs.exists_special
  have hends : machine.EndsProcedure frame frame.given :=
    ⟨⟨hrunning, htop, hopen, hcomplete, henough⟩, form, machine.world, hkind,
      runSpecial_of_output hkind houtput machine.world⟩
  obtain ⟨passed, target, rest, hunwinds, hafter⟩ :=
    output_leaves_calls_outside 10 (.new []) (.new none) _ frame frame.given hends
      (List.any_eq_true.mp huser)
  obtain ⟨hpassed, hbelow⟩ := hunwinds.takeWhile_dropWhile_eq
  refine ⟨frame, frame.given, hends, hgiven, passed, target, rest, hunwinds, ?_, ?_, hafter⟩
  · rw [← hpassed]
    exact hinside
  · rw [← hbelow]
    exact houtside

end Machine

end Logo
