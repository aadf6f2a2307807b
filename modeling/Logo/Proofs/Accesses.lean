import Logo.Proofs.Bookkeeping
import Logo.Proofs.Evolution
import Logo.Proofs.Positions
import Logo.Text.Cluster

/-!
# Nothing is out of range

The machine takes inputs by position, takes one off the count of a procedure when a call of it ends,
and takes the frames that come back from a bounded run off the count of those put aside. Positions
that do not exist would read as empty values, and nothing can be taken off zero. Here a machine
keeps a record of all that, and of the positions that its iterations have come to. Everything in the
record is in range, after any operations and whether or not they have failed.
-/

namespace Logo

variable {before after : List (Option IterationState)} {sweeps : List (Option Sweep)}
  {frame : Frame} {frames later : List Frame}

def Frame.iteration? (frame : Frame) : Option IterationState :=
  match frame.definition.kind, frame.continuation with
  | .special (.iterate _), some (.iterating state) => some state
  | _, _ => none

namespace Machine

/-! ## What a step reads and counts down -/

def releaseAccesses (machine : Machine) (frame : Frame) : List Access :=
  (machine.active.get? frame.definition.name).toList.map (.subtract 1)

def abandonAccesses (machine : Machine) : List Frame → List Access
  | [] => []
  | frame :: frames =>
    machine.releaseAccesses frame ++
      ((machine.note .trace fun _ => "abandon " ++ frame.definition.name).release
        frame).abandonAccesses frames

/-- The frames that an output passes are released, and those that come back from bounded runs are
not put aside any more. -/
def outputAccesses (machine : Machine) (segments : List Segment) : List Access :=
  let frames := machine.frames.toList
  match frames.dropWhile (!·.definition.isUserDefined) with
  | _ :: _ =>
    let above := frames.takeWhile (!·.definition.isUserDefined)
    { machine with frames := machine.frames.drop above.length }.abandonAccesses above
  | [] =>
    match segments with
    | [] => []
    | saved :: outer =>
      let machine := machine.note .debug fun _ =>
        "output leaves a bounded run, restoring " ++ toString saved.frames.size ++ " frames"
      let left := machine.abandon frames .empty
      { machine with frames := .empty }.abandonAccesses frames ++
        .subtract saved.frames.size left.suspended ::
          (left.restore saved outer).outputAccesses outer

variable [Segmentation]

/-- What is read and counted down when the call of the innermost frame is performed. `kept` is the
iteration of this call. -/
def invokeAccesses (machine : Machine) (frame : Frame) (kept : Option Sweep) : List Access :=
  match frame.definition.kind with
  | .native action => Access.reads action.positions frame.arguments
  | .special form =>
    Access.reads form.positions frame.arguments ++ kept.toList.map Sweep.access ++
      match World.runSpecial form frame.arguments frame.continuation frame.result machine.world with
      | .ok (.output _) world =>
        (machine.withTop { frame with bound := true, continuation := none, result := none }
          world).outputAccesses machine.bounded
      | _ => []
  | .userDefined => []

def stepAccesses (machine : Machine) (kept : Option Sweep) : List Access :=
  match machine.frames.top? with
  | none =>
    match machine.program, machine.bounded with
    | [], saved :: _ => [.subtract saved.frames.size machine.suspended]
    | _, _ => []
  | some frame =>
    if frame.evaluated then { machine with frames := machine.frames.pop }.releaseAccesses frame
    else if frame.needsArguments then []
    else if frame.arguments.length < frame.definition.arity then []
    else machine.invokeAccesses frame kept

/-- The iterations of the active calls when the innermost one has gone on with its work. -/
def sweepsOn (machine : Machine) (sweeps : List (Option Sweep)) : List (Option Sweep) :=
  match machine.frames.top?, sweeps with
  | some frame, kept :: others =>
    if frame.evaluated || frame.needsArguments ||
        decide (frame.arguments.length < frame.definition.arity) then sweeps
    else
      match frame.definition.kind with
      | .special (.iterate mode) =>
        SweepStep.kept? (World.sweep mode (frame.arguments.getD 0 .nil)
          (frame.arguments.getD 1 .nil) kept frame.result machine.world) :: others
      | _ => sweeps
  | _, _ => sweeps

end Machine

/-- The iterations of so many active calls: a call that has started has none, and the calls that are
over have taken theirs with them. -/
def carried (sweeps : List (Option Sweep)) (calls : Nat) : List (Option Sweep) :=
  if sweeps.length < calls then none :: sweeps else sweeps.drop (sweeps.length - calls)

/-- A machine with the iterations of its active calls, the innermost first, and with all that it has
read and counted down. -/
structure Traced where
  machine : Machine
  sweeps : List (Option Sweep)
  accesses : List Access

namespace Traced

def new (maxDepth : Nat) (console : Console) (log : Log) : Traced where
  machine := .new maxDepth console log
  sweeps := []
  accesses := []

variable [Segmentation]

def tick (traced : Traced) : Traced :=
  if traced.machine.paused then traced
  else
    let machine := (Machine.tick traced.machine).state
    { machine
      sweeps := carried (traced.machine.sweepsOn traced.sweeps) machine.allFrames.length
      accesses := traced.machine.stepAccesses traced.sweeps.head?.join ++ traced.accesses }

def drive (traced : Traced) : Nat → Traced
  | 0 => traced
  | fuel + 1 =>
    if traced.machine.paused then traced
    else
      match Machine.tick traced.machine with
      | .ok true _ => traced.tick.drive fuel
      | .ok false _ => traced.tick
      | .error cause _ =>
        let traced := traced.tick
        { traced with machine := traced.machine.noteError cause }

def perform (traced : Traced) : Operation → Traced
  | .run fuel program => { traced with machine := traced.machine.started program }.drive fuel
  | .resume fuel => { traced with machine := traced.machine.lifted }.drive fuel
  | .tick => traced.tick
  | .schedule call =>
    let machine := traced.machine.perform (.schedule call)
    { traced with machine, sweeps := carried traced.sweeps machine.allFrames.length }
  | .unschedule =>
    let machine := traced.machine.perform .unschedule
    let accesses := traced.machine.frames.top?.toList.flatMap
      { traced.machine with frames := traced.machine.frames.pop }.releaseAccesses
    { machine
      sweeps := carried traced.sweeps machine.allFrames.length
      accesses := accesses ++ traced.accesses }
  | .reset => { traced with machine := traced.machine.reset, sweeps := [] }
  | operation => { traced with machine := traced.machine.perform operation }

def performAll (traced : Traced) (operations : List Operation) : Traced :=
  operations.foldl perform traced

end Traced

namespace Machine

variable {maxDepth : Nat} {machine : Machine} {frame : Frame} {loose : List Frame}

/-! ## Counters -/

theorem inRange_releaseAccesses (hbooks : Books maxDepth machine loose) (frame : Frame) :
    ∀ access ∈ machine.releaseAccesses frame, access.InRange := by
  intro access hmem
  rw [releaseAccesses, hbooks.accounts.active, countNamed] at hmem
  split at hmem
  · cases hmem
  · obtain rfl := List.mem_singleton.mp hmem
    exact Nat.succ_le_succ (Nat.zero_le _)

theorem inRange_abandonAccesses {frames : List Frame} (hbooks : Books maxDepth machine frames) :
    ∀ access ∈ machine.abandonAccesses frames, access.InRange := by
  induction frames generalizing machine with
  | nil => exact List.forall_mem_nil _
  | cons frame frames ih =>
    exact List.forall_mem_append.mpr
      ⟨inRange_releaseAccesses hbooks frame, ih (hbooks.note _ _).release⟩

/-- The frames that a bounded run has put aside are among those that are counted. -/
theorem inRange_restore (hbooks : Books maxDepth machine loose) {saved : Segment}
    {outer : List Segment} (hbounded : machine.bounded = saved :: outer) :
    (Access.subtract saved.frames.size machine.suspended).InRange := by
  have hsuspended := hbooks.suspended
  rw [hbounded, List.map_cons, List.sum_cons] at hsuspended
  rw [Access.InRange, hsuspended]
  exact Nat.le_add_right _ _

/-- An output reads and subtracts within bounds. -/
theorem inRange_outputAccesses {segments : List Segment} (hbooks : Books maxDepth machine [])
    (hbounded : machine.bounded = segments) :
    ∀ access ∈ machine.outputAccesses segments, access.InRange := by
  fun_induction outputAccesses machine segments with
  | case1 segments machine frames target rest hrest above =>
    have hdrop := hbooks.drop above.length
    have htake : machine.frames.toList.take above.length = above := by
      have hsplit : above ++ frames.dropWhile (!·.definition.isUserDefined) = frames :=
        List.takeWhile_append_dropWhile
      calc machine.frames.toList.take above.length
          = (above ++ frames.dropWhile (!·.definition.isUserDefined)).take above.length := by
            rw [hsplit]
        _ = above := List.take_left
    rw [htake] at hdrop
    exact inRange_abandonAccesses hdrop
  | case2 machine frames hnone => exact List.forall_mem_nil _
  | case3 machine frames hnone saved outer noted left ih =>
    have hnoted : Books maxDepth noted [] := hbooks.note _ _
    have hframes : noted.frames = machine.frames := by
      simp only [noted]
      rw [note_eq]
    have hopen : noted.bounded = saved :: outer := by
      simp only [noted]
      rw [note_eq]
      exact hbounded
    have hempty : noted.frames.drop frames.length = .empty := by
      rw [hframes]
      exact Stack.ext List.drop_length
    have hdrop := hnoted.drop frames.length
    rw [hempty, hframes, List.take_length] at hdrop
    obtain ⟨world, active, habandon⟩ := noted.exists_abandon_eq frames .empty
    have hleft : Books maxDepth left [] := hdrop.abandon
    have hrest : left.bounded = saved :: outer := by
      simp only [left]
      rw [habandon]
      exact hopen
    refine List.forall_mem_append.mpr ⟨inRange_abandonAccesses hdrop,
      List.forall_mem_cons.mpr ⟨inRange_restore hleft hrest, ih (hleft.restore ?_ hrest) rfl⟩⟩
    simp only [left]
    rw [habandon]

variable [Segmentation] {kept : Option Sweep}

theorem inRange_invokeAccesses (hbooks : Books maxDepth machine [])
    (htop : machine.frames.top? = some frame) (hnames : frame.definition.namesPositions = true)
    (henough : frame.definition.arity ≤ frame.arguments.length)
    (hkept : ∀ sweep ∈ kept, sweep.access.InRange) :
    ∀ access ∈ machine.invokeAccesses frame kept, access.InRange := by
  rw [Procedure.namesPositions] at hnames
  rw [invokeAccesses]
  cases hkind : frame.definition.kind with
  | native action =>
    rw [hkind, decide_eq_true_eq] at hnames
    exact Access.inRange_reads (Nat.le_trans hnames henough)
  | special form =>
    rw [hkind, decide_eq_true_eq] at hnames
    refine List.forall_mem_append.mpr ⟨List.forall_mem_append.mpr
      ⟨Access.inRange_reads (Nat.le_trans hnames henough), ?_⟩, ?_⟩
    · intro access hmem
      obtain ⟨sweep, hsweep, rfl⟩ := List.mem_map.mp hmem
      exact hkept sweep (Option.mem_toList.mp hsweep)
    · have hacted := hbooks.action (World.orderly_runSpecial form frame.arguments
        frame.continuation frame.result)
      split
      · rename_i value world hrun
        rw [hrun] at hacted
        exact inRange_outputAccesses (hacted.replaceTop htop rfl) rfl
      · exact List.forall_mem_nil _
  | userDefined => exact List.forall_mem_nil _

/-- Every position that a step uses is in range. -/
theorem inRange_stepAccesses (hbooks : Books maxDepth machine [])
    (hnames : ∀ frame ∈ machine.allFrames, frame.definition.namesPositions = true)
    (hkept : ∀ sweep ∈ kept, sweep.access.InRange) :
    ∀ access ∈ machine.stepAccesses kept, access.InRange := by
  rw [stepAccesses]
  split
  · split
    · rename_i hbounded
      exact List.forall_mem_singleton.mpr (inRange_restore hbooks hbounded)
    · exact List.forall_mem_nil _
  · rename_i frame htop
    have hmem : frame ∈ machine.allFrames := by
      rw [allFrames, Stack.eq_push_of_top? htop]
      exact List.mem_cons_self
    split
    · exact inRange_releaseAccesses (hbooks.pop htop) frame
    · split
      · exact List.forall_mem_nil _
      · split
        · exact List.forall_mem_nil _
        · rename_i henough
          exact inRange_invokeAccesses hbooks htop (hnames frame hmem) (Nat.not_lt.mp henough) hkept

/-! ## Iterations of the active calls -/

def iterations (machine : Machine) : List (Option IterationState) :=
  machine.allFrames.map Frame.iteration?

end Machine

/-- The iterations of the active calls after a step in which none has gone on: a call may have
started, or some may have ended. -/
inductive Carries : List (Option IterationState) → List (Option IterationState) → Prop where
  | same (iterations : List (Option IterationState)) : Carries iterations iterations
  | starts (iterations : List (Option IterationState)) : Carries iterations (none :: iterations)
  | ends (given iterations : List (Option IterationState)) :
      Carries (given ++ iterations) iterations

theorem Carries.of_eq (hsame : after = before) : Carries before after :=
  hsame ▸ .same before

/-- Sweeps are carried along with the iterations that they belong to. -/
theorem Carries.map_carried (hcarries : Carries before after)
    (hsweeps : sweeps.map (Option.map Sweep.state) = before) :
    (carried sweeps after.length).map (Option.map Sweep.state) = after := by
  have hlength : sweeps.length = before.length := by rw [← hsweeps, List.length_map]
  rw [carried, hlength]
  cases hcarries with
  | same =>
    rw [if_neg (Nat.lt_irrefl _), Nat.sub_self, List.drop_zero]
    exact hsweeps
  | starts =>
    rw [if_pos (by rw [List.length_cons]; omega), List.map_cons, hsweeps]
    rfl
  | ends given =>
    rw [if_neg (by rw [List.length_append]; omega), List.length_append, Nat.add_sub_cancel,
      List.map_drop, hsweeps, List.drop_left]

theorem mem_of_mem_carried {sweeps : List (Option Sweep)} {calls : Nat} {sweep : Sweep}
    (hmem : some sweep ∈ carried sweeps calls) : some sweep ∈ sweeps := by
  rw [carried] at hmem
  split at hmem
  · exact List.mem_of_ne_of_mem (Option.some_ne_none sweep) hmem
  · exact List.mem_of_mem_drop hmem

theorem Frame.Resumes.iteration?_eq {later : Frame} (hresumes : frame.Resumes later) :
    later.iteration? = frame.iteration? := by
  rw [Frame.iteration?, Frame.iteration?, hresumes.definition, hresumes.continuation]

theorem FirstChanges.map_iteration? (hfirst : FirstChanges Frame.Resumes frames later) :
    later.map Frame.iteration? = frames.map Frame.iteration? := by
  cases hfirst with
  | none => rfl
  | some hresumes rest => rw [List.map_cons, List.map_cons, hresumes.iteration?_eq]

theorem Frame.iteration?_of_none (hnone : frame.continuation = none) : frame.iteration? = none := by
  rw [Frame.iteration?, hnone]
  split
  · rename_i hkept
    cases hkept
  · rfl

/-- Only a template form has an iteration. -/
theorem Frame.iteration?_eq_none {frame : Frame}
    (hplain : ∀ mode, frame.definition.kind ≠ .special (.iterate mode)) :
    frame.iteration? = none := by
  rw [Frame.iteration?]
  split
  · exact absurd ‹_› (hplain _)
  · rfl

def Frame.ToIterate (frame : Frame) : Prop :=
  ∃ mode, frame.definition.kind = .special (.iterate mode) ∧ frame.needsArguments = false ∧
    frame.definition.arity ≤ frame.arguments.length

theorem Frame.iteration?_turn [Segmentation] (hidle : ¬frame.ToIterate) (world : World) :
    (Forms.standard.turn frame world).frame.iteration? = frame.iteration? := by
  by_cases hready : frame.needsArguments = false ∧ frame.definition.arity ≤ frame.arguments.length
  · have hplain : ∀ mode, frame.definition.kind ≠ .special (.iterate mode) :=
      fun mode hkind => hidle ⟨mode, hkind, hready⟩
    rw [iteration?_eq_none hplain]
    apply iteration?_eq_none
    rwa [(Forms.standard.turn_of frame world).definition]
  · rw [Forms.turn]
    split
    · rw [takeInput]
      split <;> rfl
    · rename_i hneeds
      split
      · rfl
      · exact absurd ⟨eq_false_of_ne_true hneeds, Nat.le_of_not_lt ‹_›⟩ hready

namespace Machine

variable {machine middle : Machine} {frame next : Frame}

section

variable (htop : machine.frames.top? = some frame)

include htop

theorem iterations_withTop (next : Frame) (world : World) :
    (machine.withTop next world).iterations = next.iteration? :: machine.iterations.tail := by
  simp only [iterations, allFrames, withTop]
  rw [Stack.eq_push_of_top? htop, Stack.replaceTop_push]
  rfl

theorem iterations_eq_cons : machine.iterations = frame.iteration? :: machine.iterations.tail := by
  simp only [iterations, allFrames]
  rw [Stack.eq_push_of_top? htop]
  rfl

theorem iterations_withTop_of_eq (hsame : next.iteration? = frame.iteration?) (world : World) :
    (machine.withTop next world).iterations = machine.iterations := by
  rw [iterations_withTop htop, hsame, ← iterations_eq_cons htop]

end

theorem carries_schedule (hsame : middle.iterations = machine.iterations) (call : Call) :
    Carries machine.iterations (schedule call middle).state.iterations := by
  rw [← hsame, schedule_apply]
  split
  · exact .same _
  · rename_i definition _
    split
    · exact .same _
    · have hnew : (Frame.new call definition).iteration? = none := Frame.iteration?_of_none rfl
      rw [EStateM.Result.state_ok, enter_eq]
      simp only [iterations, allFrames, Stack.toList_push, List.cons_append, List.map_cons, hnew]
      exact .starts _

theorem carries_unschedule (machine : Machine) :
    Carries machine.iterations machine.unschedule.2.iterations := by
  cases htop : machine.frames.top? with
  | none =>
    rw [unschedule, htop]
    exact .same _
  | some frame =>
    have hrest := (resumes_received machine.frames.pop (frame.result.getD .nil)
      (machine.bounded.flatMap (·.frames.toList))).map_iteration?
    have hbefore : machine.iterations = [frame.iteration?] ++ (machine.frames.pop.toList ++
        machine.bounded.flatMap (·.frames.toList)).map Frame.iteration? := by
      rw [iterations, allFrames, Stack.eq_push_of_top? htop]
      rfl
    rw [hbefore, ← hrest, unschedule_eq htop, note_eq, release_eq]
    exact .ends _ _

theorem carries_output (hsame : middle.iterations = machine.iterations) (value : Value) :
    Carries machine.iterations (middle.output value).iterations := by
  obtain ⟨given, rest, hsplit, hfirst⟩ := (middle.lowers_outputThrough value rfl).frames
  rw [← hsame, Machine.output, iterations, iterations, hsplit, hfirst.map_iteration?,
    List.map_append]
  exact .ends _ _

theorem carries_advanceProgram (htop : machine.frames.top? = none) :
    Carries machine.iterations (advanceProgram machine).state.iterations := by
  rw [advanceProgram_apply]
  split
  · rename_i site program _
    exact @carries_schedule machine { machine with program } rfl site
  · exact .same _
  · rw [EStateM.Result.state_ok, note_eq]
    exact .same _
  · exact .same _
  · split
    · rename_i saved outer hbounded
      have hsaved := (resumes_answered saved machine.lastResult
        (outer.flatMap (·.frames.toList))).map_iteration?
      rw [EStateM.Result.state_ok, endBounded_eq, note_eq]
      simp only [iterations, allFrames]
      rw [hsaved, hbounded, Stack.eq_empty_of_top? htop]
      exact .same _
    · exact .same _

/-- A turn that leaves the iteration of its call as it is. -/
theorem carries_make (htop : machine.frames.top? = some frame) {turn : Turn}
    (hsame : turn.frame.iteration? = frame.iteration?) :
    Carries machine.iterations (machine.make turn).state.iterations := by
  have hnext := iterations_withTop_of_eq htop hsame turn.world
  rw [make]
  cases turn.move with
  | stay => exact .of_eq hnext
  | fail cause => exact .of_eq hnext
  | call site => exact carries_schedule hnext site
  | output value => exact carries_output hnext value
  | pause =>
    dsimp only
    rw [EStateM.Result.state_ok, Machine.pause, note_eq]
    split <;> exact .of_eq hnext
  | bounded program =>
    dsimp only
    rw [EStateM.Result.state_ok, beginBounded, note_eq]
    exact .of_eq hnext

section Template

variable {mode : Iteration} {kept : Option Sweep}
  (hkind : frame.definition.kind = .special (.iterate mode))
  (hkept : kept.map Sweep.state = frame.iteration?)

include hkind hkept

variable [Segmentation]

/-- The call of a template form goes on as the iteration that it keeps. -/
theorem runSpecial_eq_sweep :
    World.runSpecial (.iterate mode) frame.arguments frame.continuation frame.result =
      SweepStep.progress <$> World.sweep mode (frame.arguments.getD 0 .nil)
        (frame.arguments.getD 1 .nil) kept frame.result := by
  rw [← World.iterate_eq_sweep]
  rw [Frame.iteration?, hkind] at hkept
  cases hcontinuation : frame.continuation with
  | none =>
    rw [hcontinuation] at hkept
    rw [Option.map_eq_none_iff.mp hkept]
    rfl
  | some continuation =>
    rw [hcontinuation] at hkept
    cases continuation with
    | iterating state =>
      obtain ⟨sweep, rfl, rfl⟩ := Option.map_eq_some_iff.mp hkept
      rfl
    | block _ | repeating _ _ | running =>
      rw [Option.map_eq_none_iff.mp hkept]
      rfl

/-- A template form goes on to the sweep that comes next. -/
theorem iterations_make_template (htop : machine.frames.top? = some frame)
    (hcomplete : frame.needsArguments = false)
    (henough : frame.definition.arity ≤ frame.arguments.length) :
    (machine.make (Forms.standard.turn frame machine.world)).state.iterations =
      (SweepStep.kept? (World.sweep mode (frame.arguments.getD 0 .nil)
        (frame.arguments.getD 1 .nil) kept frame.result machine.world)).map Sweep.state ::
          machine.iterations.tail := by
  rw [Forms.standard.turn_of_special hcomplete henough hkind]
  change (machine.make (Frame.proceed _ (World.runSpecial (.iterate mode) frame.arguments
    frame.continuation frame.result machine.world))).state.iterations = _
  rw [runSpecial_eq_sweep hkind hkept, map_apply]
  cases World.sweep mode (frame.arguments.getD 0 .nil) (frame.arguments.getD 1 .nil) kept
    frame.result machine.world with
  | error cause world =>
    refine (iterations_withTop htop _ world).trans ?_
    rw [Frame.iteration?_of_none rfl]
    rfl
  | ok step world =>
    cases step with
    | done value =>
      refine (iterations_withTop htop _ world).trans ?_
      rw [Frame.iteration?_of_none rfl]
      rfl
    | runs program sweep =>
      simp only [SweepStep.progress, Frame.proceed, make, EStateM.Result.state_ok]
      rw [beginBounded, note_eq]
      refine (iterations_withTop htop _ world).trans ?_
      rw [Frame.iteration?, hkind]
      rfl

end Template

/-! ## Steps -/

variable [Segmentation] {sweeps : List (Option Sweep)}

/-- A call that has fewer inputs than its procedure has names for is not performed. -/
theorem tick_of_few (hrunning : machine.paused = false) (htop : machine.frames.top? = some frame)
    (hopen : frame.evaluated = false) (hcomplete : frame.needsArguments = false)
    (hfew : frame.arguments.length < frame.definition.arity) :
    tick machine = .error (.notEnoughInputs frame.definition.name frame.definition.arity
      frame.arguments.length) machine := by
  have hstep : step machine = invoke frame machine := by
    simp only [step, htop, hopen, hcomplete, Bool.false_eq_true, if_false]
  rw [tick_of_running hrunning, hstep, invoke_eq, Forms.invoke_apply, if_pos hfew]

theorem sweepsOn_eq_self (htop : machine.frames.top? = some frame) (hidle : ¬frame.ToIterate) :
    machine.sweepsOn sweeps = sweeps := by
  unfold sweepsOn
  rw [htop]
  split
  · rename_i other _ _ hother
    cases hother
    split
    · rfl
    · rename_i hready
      simp only [Bool.or_eq_true, decide_eq_true_eq, not_or, Bool.not_eq_true, Nat.not_lt] at hready
      split
      · exact absurd ⟨_, ‹_›, hready.1.2, hready.2⟩ hidle
      · rfl
  · rfl

/-- The iterations after a step are those of the calls that are active then. -/
theorem carries_sweepsOn (hsweeps : sweeps.map (Option.map Sweep.state) = machine.iterations) :
    Carries ((machine.sweepsOn sweeps).map (Option.map Sweep.state))
      (step machine).state.iterations := by
  obtain ⟨htop, hstep⟩ | ⟨frame, htop, hstep⟩ := machine.step_cases
  · have hsame : machine.sweepsOn sweeps = sweeps := by simp only [sweepsOn, htop]
    rw [hsame, hsweeps, hstep]
    exact carries_advanceProgram htop
  · have hfirst := hsweeps
    rw [iterations_eq_cons htop] at hfirst
    obtain ⟨kept, others, rfl, hkept, hothers⟩ := List.map_eq_cons_iff.mp hfirst
    obtain ⟨hover, hstep⟩ | ⟨hopen, hstep⟩ := hstep
    · have hsame : machine.sweepsOn (kept :: others) = kept :: others := by
        simp only [sweepsOn, htop, hover, Bool.true_or, if_true]
      rw [hsame, hsweeps, hstep]
      exact machine.carries_unschedule
    · rw [hstep]
      by_cases hiterates : frame.ToIterate
      · obtain ⟨mode, hkind, hcomplete, henough⟩ := hiterates
        rw [iterations_make_template hkind hkept htop hcomplete henough, ← hothers]
        simp only [sweepsOn, htop, hopen, hcomplete, hkind, Nat.not_lt.mpr henough, Bool.or_self,
          decide_false, Bool.false_eq_true, if_false]
        exact .same _
      · rw [sweepsOn_eq_self htop hiterates, hsweeps]
        exact carries_make htop (Frame.iteration?_turn hiterates _)

/-- The iterations after a step are at positions of their values. -/
theorem inRange_sweepsOn (hplaces : ∀ sweep, some sweep ∈ sweeps → sweep.access.InRange) :
    ∀ sweep, some sweep ∈ machine.sweepsOn sweeps → sweep.access.InRange := by
  unfold sweepsOn
  split
  · split
    · exact hplaces
    · split
      · intro sweep hmem
        obtain hfirst | hmem := List.mem_cons.mp hmem
        · exact World.inRange_of_kept? _ _ _ _ _ _ sweep hfirst.symm
        · exact hplaces sweep (List.mem_cons_of_mem _ hmem)
      · exact hplaces
  · exact hplaces

end Machine

/-- Reading a program enters procedures in the table and leaves the active calls alone. -/
theorem Machine.becomes_readProgramList (machine : Machine) (source : String) :
    machine.world.environment.procedures.Becomes
        (readProgramList source machine).state.world.environment.procedures ∧
      (readProgramList source machine).state.allFrames = machine.allFrames := by
  obtain ⟨error, -, hread⟩ | ⟨program, procedures, hprogram, hread⟩ :=
    readProgramList_cases source machine
  · rw [hread]
    exact ⟨.refl, rfl⟩
  · rw [hread]
    exact ⟨.read .refl hprogram, rfl⟩

theorem Machine.becomes_schedule (call : Call) (machine : Machine) :
    machine.world.environment.procedures.Becomes
      (schedule call machine).state.world.environment.procedures := by
  rw [schedule_apply]
  split
  · exact .refl
  · split
    · exact .refl
    · rw [EStateM.Result.state_ok, enter_eq]
      dsimp only
      split <;> exact .refl

theorem Reframed.forall_definition {procedures : Procedures}
    {holds : Procedure → Prop} (hreframed : Reframed procedures frames later)
    (htable : procedures.All holds) (hframes : ∀ frame ∈ frames, holds frame.definition) :
    ∀ frame ∈ later, holds frame.definition := by
  have hcontinues : ∀ {frame later : Frame}, frame.Continues later → holds frame.definition →
      holds later.definition :=
    fun hcontinues hframe => hcontinues.definition ▸ hframe
  cases hreframed with
  | ends given hfirst =>
    apply hfirst.forall_mem fun hresumes => hcontinues hresumes.continues
    exact fun frame hmem => hframes frame (List.mem_append_right given hmem)
  | stays hfirst => exact hfirst.forall_mem hcontinues hframes
  | starts hfound hfirst =>
    exact List.forall_mem_cons.mpr
      ⟨htable _ _ hfound, hfirst.forall_mem hcontinues hframes⟩

/-! ## Operations -/

/-- What is in the record is in range, and what the machine keeps will not lead out of it. -/
structure Traced.Sound (maxDepth : Nat) (traced : Traced) : Prop where
  books : Books maxDepth traced.machine []
  table : traced.machine.world.environment.procedures.All fun procedure =>
    procedure.namesPositions = true
  frames : ∀ frame ∈ traced.machine.allFrames, frame.definition.namesPositions = true
  sweeps : traced.sweeps.map (Option.map Sweep.state) = traced.machine.iterations
  places : ∀ sweep, some sweep ∈ traced.sweeps → sweep.access.InRange
  accesses : ∀ access ∈ traced.accesses, access.InRange

namespace Traced

variable [Segmentation] {maxDepth : Nat} {traced : Traced}

theorem machine_tick (traced : Traced) :
    traced.tick.machine = (Machine.tick traced.machine).state := by
  rw [tick]
  split
  · rename_i hpaused
    rw [Machine.tick_of_paused hpaused]
    rfl
  · rfl

theorem machine_drive (traced : Traced) (fuel : Nat) :
    (traced.drive fuel).machine = (traced.machine.drive fuel).state := by
  fun_induction drive traced fuel with
  | case1 traced => rfl
  | case2 traced fuel hpaused =>
    rw [Machine.drive, if_pos hpaused]
    rfl
  | case3 traced fuel hrunning next htick ih =>
    rw [ih, machine_tick, Machine.drive, if_neg hrunning, htick]
    rfl
  | case4 traced fuel hrunning next htick =>
    rw [machine_tick, Machine.drive, if_neg hrunning, htick]
    rfl
  | case5 traced fuel hrunning cause next htick after =>
    simp only [after]
    rw [machine_tick, Machine.drive, if_neg hrunning, htick]
    rfl

/-- The record changes nothing. -/
theorem machine_perform (traced : Traced) (operation : Operation) :
    (traced.perform operation).machine = traced.machine.perform operation := by
  cases operation with
  | run fuel program => exact machine_drive _ fuel
  | resume fuel => exact machine_drive _ fuel
  | tick => exact traced.machine_tick
  | read _ | place _ | load _ | pause | schedule _ | unschedule | reset => rfl

theorem machine_performAll (traced : Traced) (operations : List Operation) :
    (traced.performAll operations).machine = traced.machine.performAll operations := by
  induction operations generalizing traced with
  | nil => rfl
  | cons operation operations ih =>
    refine (ih (traced.perform operation)).trans ?_
    rw [machine_perform]
    rfl

namespace Sound

section

variable (hsound : Sound maxDepth traced)

variable {later : Machine}

include hsound

omit [Segmentation] in
theorem congr {later : Machine} (hbooks : Books maxDepth later [])
    (htable : traced.machine.world.environment.procedures.Becomes
      later.world.environment.procedures) (hframes : later.allFrames = traced.machine.allFrames) :
    Sound maxDepth { traced with machine := later } where
  books := hbooks
  table := hsound.table.becomes (fun _ _ _ _ => rfl) htable
  frames := hframes ▸ hsound.frames
  sweeps := by
    rw [hsound.sweeps, Machine.iterations, Machine.iterations, hframes]
  places := hsound.places
  accesses := hsound.accesses

omit [Segmentation] in
theorem note (level : LogLevel) (message : Machine → String) :
    Sound maxDepth { traced with machine := traced.machine.note level message } := by
  refine hsound.congr (hsound.books.note level message) ?_ ?_
  · rw [Machine.note_eq]
    exact .refl
  · rw [Machine.note_eq]
    rfl

omit [Segmentation] in
/-- The iterations are those of the active calls after a change in which none goes on. -/
theorem carry {later : Machine} {sweeps : List (Option Sweep)}
    {accesses : List Access} (hbooks : Books maxDepth later [])
    (htable : traced.machine.world.environment.procedures.Becomes
      later.world.environment.procedures)
    (hframes : Reframed later.world.environment.procedures traced.machine.allFrames
      later.allFrames) (hcarries : Carries (sweeps.map (Option.map Sweep.state)) later.iterations)
    (hplaces : ∀ sweep, some sweep ∈ sweeps → sweep.access.InRange)
    (haccesses : ∀ access ∈ accesses, access.InRange) :
    Sound maxDepth {
      machine := later
      sweeps := carried sweeps later.allFrames.length
      accesses := accesses ++ traced.accesses } where
  books := hbooks
  table := hsound.table.becomes (fun _ _ _ _ => rfl) htable
  frames := hframes.forall_definition
    (hsound.table.becomes (fun _ _ _ _ => rfl) htable) hsound.frames
  sweeps := by
    have hcarried := hcarries.map_carried rfl
    rwa [Machine.iterations, List.length_map] at hcarried
  places sweep hmem := hplaces sweep (mem_of_mem_carried hmem)
  accesses := List.forall_mem_append.mpr ⟨haccesses, hsound.accesses⟩

theorem tick : Sound maxDepth traced.tick := by
  rw [Traced.tick]
  split
  · exact hsound
  · rename_i hrunning
    have hevolves := traced.machine.evolves_tick
    have hkept : ∀ sweep ∈ traced.sweeps.head?.join, sweep.access.InRange := by
      intro sweep hmem
      exact hsound.places sweep (List.mem_of_mem_head? (Option.join_eq_some_iff.mp hmem))
    refine hsound.carry ((Books.lasting maxDepth).tick _ hsound.books) hevolves.table
      hevolves.frames ?_ (Machine.inRange_sweepsOn hsound.places)
      (Machine.inRange_stepAccesses hsound.books hsound.frames hkept)
    rw [Machine.state_tick_of_running ((Bool.not_eq_true _).mp hrunning)]
    exact Machine.carries_sweepsOn hsound.sweeps

theorem drive (fuel : Nat) : Sound maxDepth (traced.drive fuel) := by
  fun_induction Traced.drive traced fuel with
  | case1 traced => exact hsound
  | case2 traced fuel hpaused => exact hsound
  | case3 traced fuel hrunning next htick ih => exact ih hsound.tick
  | case4 traced fuel hrunning next htick => exact hsound.tick
  | case5 traced fuel hrunning cause next htick after => exact hsound.tick.note _ _

/-- Whatever is done to a traced machine keeps its trace sound. -/
theorem perform (operation : Operation) : Sound maxDepth (traced.perform operation) := by
  have hbooks := hsound.books
  have hlater := hbooks.perform operation
  cases operation with
  | read source =>
    obtain ⟨htable, hframes⟩ := traced.machine.becomes_readProgramList source
    exact hsound.congr hlater htable hframes
  | place datum => exact hsound.congr hlater .refl rfl
  | load program =>
    refine hsound.congr hlater ?_ ?_
    · rw [Machine.perform, Machine.load_eq]
      exact .refl
    · rw [Machine.perform, Machine.load_eq]
      rfl
  | run fuel program =>
    have hstarted : Sound maxDepth { traced with machine := traced.machine.started program } := by
      rw [Machine.started, Machine.load_eq]
      split
      · exact hsound.congr (hbooks.set _ _ _) .refl rfl
      · exact hsound.congr (hbooks.set _ _ _) .refl rfl
    exact hstarted.drive fuel
  | resume fuel =>
    have hlifted : Sound maxDepth { traced with machine := traced.machine.lifted } := by
      rw [Machine.lifted]
      split
      · have hnoted := hsound.note .debug fun machine =>
          "resume at depth " ++ toString machine.depth
        exact hnoted.congr (hnoted.books.set _ _ _) .refl rfl
      · exact hsound
    exact hlifted.drive fuel
  | pause =>
    refine hsound.congr hlater ?_ ?_
    · rw [Machine.perform, Machine.pause, Machine.note_eq]
      split <;> exact .refl
    · rw [Machine.perform, Machine.pause, Machine.note_eq]
      split <;> rfl
  | tick => exact hsound.tick
  | schedule call =>
    have hcarries := @Machine.carries_schedule traced.machine traced.machine rfl call
    rw [← hsound.sweeps] at hcarries
    exact hsound.carry hlater (Machine.becomes_schedule call traced.machine)
      ((Machine.Advances.refl traced.machine).schedule call).frames hcarries hsound.places
      (List.forall_mem_nil _)
  | unschedule =>
    have hcarries := traced.machine.carries_unschedule
    rw [← hsound.sweeps] at hcarries
    have hevolves : traced.machine.Evolves traced.machine.unschedule.2 := by
      cases htop : traced.machine.frames.top? with
      | none =>
        rw [Machine.unschedule, htop]
        exact (Machine.Advances.refl traced.machine).evolves
      | some frame => exact Machine.evolves_unschedule htop
    refine hsound.carry hlater hevolves.table hevolves.frames hcarries hsound.places ?_
    intro access hmem
    obtain ⟨frame, hframe, hmem⟩ := List.mem_flatMap.mp hmem
    exact Machine.inRange_releaseAccesses (hbooks.pop (Option.mem_toList.mp hframe)) frame access
      hmem
  | reset =>
    exact ⟨hlater, hsound.table, List.forall_mem_nil _, rfl,
      fun _ hmem => absurd hmem List.not_mem_nil, hsound.accesses⟩

end

omit [Segmentation] in
theorem new (maxDepth : Nat) (console : Console) (log : Log) :
    Sound maxDepth (.new maxDepth console log) where
  books := Books.new maxDepth console log
  table := all_standard_namesPositions
  frames := List.forall_mem_nil _
  sweeps := rfl
  places _ hmem := absurd hmem List.not_mem_nil
  accesses := List.forall_mem_nil _

theorem performAll (hsound : Sound maxDepth traced) (operations : List Operation) :
    Sound maxDepth (traced.performAll operations) := by
  induction operations generalizing traced with
  | nil => exact hsound
  | cons operation operations ih => exact ih (hsound.perform operation)

end Sound

end Traced

section

variable [Segmentation]

/-- Whatever is done to a machine, every input that a primitive takes by position is there, every
iteration goes on at a position of its values, and nothing is taken off the count of a procedure or
of the frames put aside that is not on it. The record in which this is kept changes nothing: the
machine is the same, and the iterations that its calls keep are those that the positions tell. A
call that has fewer inputs than its procedure has names for is not performed. A primitive that has
the inputs it takes by position looks at no others, unless it goes through all of them. And the
bracket depth does not fall below zero in any text. -/
theorem Machine.every_access_is_in_range (maxDepth : Nat) (console : Console) (log : Log)
    (operations : List Operation) :
    let traced := (Traced.new maxDepth console log).performAll operations
    (∀ access ∈ traced.accesses, access.InRange) ∧
    traced.machine = (Machine.new maxDepth console log).performAll operations ∧
    traced.machine.allFrames.map Frame.iteration? =
      traced.sweeps.map (Option.map Sweep.state) ∧
    (∀ frame, traced.machine.paused = false → traced.machine.frames.top? = some frame →
      frame.evaluated = false → frame.needsArguments = false →
      frame.arguments.length < frame.definition.arity →
      tick traced.machine = .error (.notEnoughInputs frame.definition.name frame.definition.arity
        frame.arguments.length) traced.machine) ∧
    (∀ action inputs, action.takesAll = false → action.positions ≤ inputs.length →
      ∀ more, World.runNative action (inputs ++ more) = World.runNative action inputs) ∧
    (∀ form inputs, form.positions ≤ inputs.length → ∀ more continuation finished,
      World.runSpecial form (inputs ++ more) continuation finished =
        World.runSpecial form inputs continuation finished) ∧
    ∀ source : String, ∀ access ∈ scanAccesses 0 source.toList, access.InRange := by
  intro traced
  have hsound : Traced.Sound maxDepth traced :=
    (Traced.Sound.new maxDepth console log).performAll operations
  refine ⟨hsound.accesses, Traced.machine_performAll _ operations, hsound.sweeps.symm, ?_,
    fun _ _ hsome hinputs more => World.runNative_append hsome hinputs more,
    fun _ _ hinputs more => World.runSpecial_append hinputs more,
    fun source => inRange_scanAccesses 0 source.toList⟩
  intro frame hrunning htop hopen hcomplete hfew
  exact tick_of_few hrunning htop hopen hcomplete hfew

end

open scoped Graphemes

/-- The template of `map` goes on from the first of three characters to the second and the third,
for which an `output` leaves the template and the procedure around it. -/
theorem Machine.accesses_of_output_in_template :
    let traced := (Traced.new 10 (.new []) (.new none)).performAll
      [.read "to f\nmap [if equal? ? \"c [output ?]] \"abc\nend\nprint f",
        .run 42 (.list ⟨0, none⟩)]
    traced.machine.world.console.output = "c\n" ∧
      ∀ access ∈ [Access.read 1 3, .read 0 1, .subtract 3 3, .subtract 1 1],
        access ∈ traced.accesses ∧ access.InRange := by
  intro traced
  have htraced : traced.machine.world.console.output = "c\n" ∧
      ∀ access ∈ [Access.read 1 3, .read 0 1, .subtract 3 3, .subtract 1 1],
        access ∈ traced.accesses := by
    decide +kernel
  refine ⟨htraced.1, fun access hmem => ⟨htraced.2 access hmem, ?_⟩⟩
  exact (every_access_is_in_range 10 (.new []) (.new none) _).1 access (htraced.2 access hmem)

end Logo
