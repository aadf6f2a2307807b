import Logo.Proofs.Uncounted
import Logo.Text.Cluster
import Mathlib.Data.List.Infix

/-!
# Bounded runs are isolated

A bounded run puts the frames and lines of the machine aside and works on its own. Nothing that it
does reaches what has been put aside, until it is exhausted and its value is handed out or an output
leaves it. And what it does is the same whatever has been put aside.
-/

namespace Logo

def Frame.awaiting (frame : Frame) (continuation : Continuation) : Frame :=
  { frame with bound := true, result := none, continuation := some continuation }

def Operation.isStep : Operation → Bool
  | .tick | .pause | .resume 0 => true
  | _ => false

namespace Machine

variable {machine : Machine}

/-! ## What a step does with the segments -/

theorem bounded_schedule (call : Call) (machine : Machine) :
    (schedule call machine).state.bounded = machine.bounded := by
  rw [schedule_apply]
  split
  · rfl
  · split
    · rfl
    · rw [enter_eq]
      rfl

theorem bounded_unschedule (machine : Machine) :
    machine.unschedule.2.bounded = machine.bounded := by
  cases htop : machine.frames.top? with
  | none => simp only [unschedule, htop]
  | some frame =>
    rw [unschedule_eq htop, note_apply, release_eq]

theorem bounded_abandon (machine : Machine) (frames : List Frame) (rest : Stack Frame) :
    (machine.abandon frames rest).bounded = machine.bounded := by
  obtain ⟨world, active, habandon⟩ := machine.exists_abandon_eq frames rest
  rw [habandon]

theorem bounded_outputThrough (value : Value) {segments : List Segment}
    (hbounded : machine.bounded = segments) :
    (machine.outputThrough value segments).bounded <:+ segments := by
  induction segments generalizing machine with
  | nil =>
    simp only [outputThrough]
    split
    · rw [bounded_abandon, hbounded]
    · split <;> exact hbounded ▸ List.suffix_rfl
  | cons saved outer ih =>
    cases htarget : machine.frames.toList.dropWhile (!·.definition.isUserDefined) with
    | cons target below =>
      rw [outputThrough_of_target htarget, bounded_abandon, hbounded]
    | nil =>
      rw [outputThrough_of_nil htarget]
      exact (ih rfl).trans (List.suffix_cons saved outer)

theorem bounded_advanceProgram (machine : Machine) :
    (advanceProgram machine).state.bounded <:+ machine.bounded := by
  rw [advanceProgram_apply]
  split
  · rw [bounded_schedule]
  · exact List.suffix_rfl
  · rw [note_apply]
    exact List.suffix_rfl
  · exact List.suffix_rfl
  · split
    · rename_i saved outer hbounded
      rw [endBounded_eq, hbounded]
      exact List.suffix_cons saved outer
    · exact List.suffix_rfl

theorem bounded_make {turn : Turn} (hplain : turn.move.IsPlain) :
    (machine.make turn).state.bounded = machine.bounded := by
  rw [make]
  cases hmove : turn.move with
  | stay => rfl
  | fail cause => rfl
  | call site => exact bounded_schedule site _
  | output _ | pause | bounded _ =>
    rw [hmove] at hplain
    exact hplain.elim

/-- A form that is being performed starts a bounded run or puts nothing aside. -/
theorem bounded_proceed (machine : Machine) (frame : Frame)
    (result : EStateM.Result RuntimeError World Progress) :
    (machine.proceed frame result).state.bounded <:+ machine.bounded ∨
      ∃ lines continuation world, machine.proceed frame result =
        .ok () ((machine.withTop { frame with continuation := some continuation }
          world).beginBounded lines) := by
  cases result with
  | error cause world => exact .inl List.suffix_rfl
  | ok progress world =>
    cases progress with
    | done value => exact .inl List.suffix_rfl
    | output value => exact .inl (bounded_outputThrough value rfl)
    | pause =>
      left
      simp only [proceed, EStateM.Result.state_ok, pause, note_apply]
      split <;> exact List.suffix_rfl
    | call site continuation =>
      left
      rw [proceed, bounded_schedule]
      exact List.suffix_rfl
    | bounded lines continuation => exact .inr ⟨lines, continuation, world, rfl⟩

/-- A step of the machine has started a bounded run: the frame of a special form waits for it. -/
structure Begins (machine started : Machine) (frame : Frame) (continuation : Continuation)
    (lines : List Value) : Prop where
  top : machine.frames.top? = some frame
  special : frame.definition.isSpecial = true
  unevaluated : frame.evaluated = false
  started_eq : ∃ world,
    started = (machine.withTop (frame.awaiting continuation) world).beginBounded lines

section

variable [Segmentation]

/-- A step begins one bounded run, or it may end some. -/
theorem bounded_step (machine : Machine) :
    (step machine).state.bounded <:+ machine.bounded ∨
      ∃ started frame continuation lines, step machine = .ok () started ∧
        machine.Begins started frame continuation lines := by
  obtain ⟨-, hstep⟩ | ⟨frame, htop, ⟨-, hstep⟩ | ⟨hopen, hstep⟩⟩ := machine.step_cases
  · rw [hstep]
    exact .inl (bounded_advanceProgram machine)
  · left
    rw [hstep, EStateM.Result.state_ok, bounded_unschedule]
  · rw [hstep]
    obtain hplain | ⟨form, hkind, -, -, hturn⟩ := Forms.standard.turn_cases frame machine.world
    · left
      rw [bounded_make hplain]
    · rw [hturn, ← proceed_eq]
      refine (bounded_proceed _ _ _).imp_right ?_
      rintro ⟨lines, continuation, world, hproceed⟩
      refine ⟨_, frame, continuation, lines, hproceed, htop, ?_, hopen, world, rfl⟩
      rw [Procedure.isSpecial, hkind]

variable {started : Machine} {saved : Segment}

/-- A bounded run begins with a form that asks for it. -/
theorem begins_of_tick {more : Bool} (htick : tick machine = .ok more started)
    (hbounded : started.bounded = saved :: machine.bounded) :
    machine.paused = false ∧ ∃ frame continuation lines,
      machine.Begins started frame continuation lines := by
  cases hpaused : machine.paused with
  | true =>
    rw [tick_of_paused hpaused] at htick
    cases htick
    simp at hbounded
  | false =>
    refine ⟨rfl, ?_⟩
    rw [tick_of_running hpaused] at htick
    obtain hsuffix | ⟨next, frame, continuation, lines, hstep, hbegins⟩ := bounded_step machine
    · cases hstep : step machine with
      | error cause after =>
        rw [hstep] at htick
        cases htick
      | ok value after =>
        rw [hstep] at htick hsuffix
        cases htick
        have hlength := hsuffix.length_le
        rw [EStateM.Result.state_ok, hbounded, List.length_cons] at hlength
        omega
    · rw [hstep] at htick
      cases htick
      exact ⟨frame, continuation, lines, hbegins⟩

namespace Begins

variable {started : Machine} {frame : Frame} {continuation : Continuation} {lines : List Value}
  (hbegins : machine.Begins started frame continuation lines)

include hbegins

omit [Segmentation] in
/-- The machine that has started a bounded run, apart from its world and its counts. -/
theorem started_fields :
    started.frames = .empty ∧ started.program = lines ∧
      started.bounded =
        ⟨machine.frames.replaceTop (frame.awaiting continuation), machine.program⟩ ::
          machine.bounded ∧
      started.lastResult = .nil ∧ started.paused = machine.paused := by
  obtain ⟨world, rfl⟩ := hbegins.started_eq
  rw [beginBounded, note_apply]
  exact ⟨rfl, rfl, rfl, rfl, rfl⟩

end Begins

/-! ## Inside and outside -/

/-- The machine without its outermost segments, of which there are `count`. -/
def inside (count : Nat) (machine : Machine) : Machine :=
  { machine with bounded := machine.bounded.take (machine.bounded.length - count) }

variable {base inner : List Segment}

omit [Segmentation] in
theorem beyond_inside (hbounded : machine.bounded = inner ++ base) :
    (machine.inside base.length).beyond [] base = machine := by
  have htake : machine.bounded.take (machine.bounded.length - base.length) = inner := by
    simp [hbounded]
  simp only [inside, htake, beyond, queueBehind_nil, Segment.extendLast_nil, ← hbounded]

omit [Segmentation] in
theorem inside_beyond (base : List Segment) (machine : Machine) :
    (machine.beyond [] base).inside base.length = machine := by
  simp [inside, beyond, queueBehind_nil, Segment.extendLast_nil]

variable {outer : List Segment}

/-- A bounded run that is exhausted hands its last value to the frame that waits for it. -/
theorem tick_of_exhausted (hframes : machine.frames.toList = []) (hprogram : machine.program = [])
    (hbounded : machine.bounded = saved :: outer) (hrunning : machine.paused = false) :
    tick machine =
      .ok (machine.endBounded saved outer).hasWork (machine.endBounded saved outer) := by
  have htop : machine.frames.top? = none := List.head?_eq_none_iff.mpr hframes
  have hstep : step machine = .ok () (machine.endBounded saved outer) := by
    simp only [step, htop, advanceProgram_apply, hprogram, hbounded]
  rw [tick_of_running hrunning, hstep]

/-! ## One operation -/

omit [Segmentation] in
theorem bounded_pause (machine : Machine) : machine.pause.bounded = machine.bounded := by
  rw [pause, note_apply]
  split <;> rfl

omit [Segmentation] in
theorem bounded_lifted (machine : Machine) : machine.lifted.bounded = machine.bounded := by
  rw [lifted, note_apply]
  split <;> rfl

variable {operation : Operation}

/-- Segments outside of a run that is still open have not changed. -/
theorem suffix_perform (hstep : operation.isStep = true) (hsuffix : base <:+ machine.bounded)
    (hopen : base.length ≤ (machine.perform operation).bounded.length) :
    base <:+ (machine.perform operation).bounded := by
  cases operation with
  | tick =>
    rw [perform] at hopen ⊢
    cases hpaused : machine.paused with
    | true =>
      rw [tick_of_paused hpaused]
      exact hsuffix
    | false =>
      rw [state_tick_of_running hpaused] at hopen ⊢
      obtain hless | ⟨next, frame, continuation, lines, hrun, hbegins⟩ := bounded_step machine
      · exact List.suffix_of_suffix_length_le hsuffix hless hopen
      · rw [hrun, EStateM.Result.state_ok, hbegins.started_fields.2.2.1]
        exact hsuffix.trans (List.suffix_cons _ _)
  | pause =>
    rw [perform, bounded_pause]
    exact hsuffix
  | resume fuel =>
    cases fuel with
    | zero =>
      change base <:+ machine.lifted.bounded
      rw [bounded_lifted]
      exact hsuffix
    | succ fuel => cases hstep
  | _ => cases hstep

/-- What is done inside is the same whatever lies outside, unless the run has come to its end. -/
theorem perform_beyond (base : List Segment) (hstep : operation.isStep = true)
    (hinside : ¬machine.Escapes)
    (hwork : operation = .tick → machine.paused = false → machine.hasWork = true) :
    (machine.beyond [] base).perform operation = (machine.perform operation).beyond [] base := by
  cases operation with
  | tick =>
    rw [perform, perform]
    cases hpaused : machine.paused with
    | true =>
      rw [tick_of_paused hpaused,
        tick_of_paused (show (machine.beyond [] base).paused = true from hpaused)]
      rfl
    | false =>
      rw [tick_beyond [] (hwork rfl hpaused) hpaused (.inr hinside)]
      cases tick machine <;> rfl
  | pause => exact pause_beyond [] base machine
  | resume fuel =>
    cases fuel with
    | zero => exact lifted_beyond [] base machine
    | succ fuel => cases hstep
  | _ => cases hstep

/-- A run that stays open still has work. -/
theorem hasWork_of_open (hrunning : machine.paused = false) (hbase : base ≠ [])
    (hopen : base.length ≤ ((machine.beyond [] base).perform .tick).bounded.length) :
    machine.hasWork = true := by
  by_contra hidle
  obtain ⟨saved, outer, rfl⟩ := List.exists_cons_of_ne_nil hbase
  have hidle := Bool.eq_false_iff.mpr hidle
  let drained := { machine with program := [], bounded := saved :: outer }
  have hends : tick drained =
      .ok (drained.endBounded saved outer).hasWork (drained.endBounded saved outer) :=
    tick_of_exhausted (hasWork_eq_false_iff.mp hidle).1 rfl rfl hrunning
  rw [perform, beyond_of_idle [] hidle, hends, EStateM.Result.state_ok, endBounded_eq,
    List.length_cons] at hopen
  dsimp only at hopen
  omega

/-! ## Two runs -/

omit [Segmentation] in
theorem escapes_plain {machine : Machine} : machine.plain.Escapes ↔ machine.Escapes := by
  constructor
  · rintro ⟨⟨frame, houtputs⟩, hnone⟩
    exact ⟨⟨frame, { houtputs with }⟩, hnone⟩
  · rintro ⟨⟨frame, houtputs⟩, hnone⟩
    exact ⟨⟨frame, { houtputs with }⟩, hnone⟩

variable {first second : Machine}

omit [Segmentation] in
theorem Alike.escapes_iff (halike : first.Alike second) : first.Escapes ↔ second.Escapes := by
  rw [← escapes_plain, halike, escapes_plain]

theorem Alike.tick (halike : first.Alike second) :
    (Machine.tick first).mapState plain = (Machine.tick second).mapState plain := by
  have hsame : first.paused = second.paused := halike.same Machine.paused
  cases hpaused : first.paused with
  | true =>
    rw [tick_of_paused hpaused, tick_of_paused (hsame ▸ hpaused)]
    exact congrArg (fun machine : Machine => EStateM.Result.ok machine.hasWork machine) halike
  | false =>
    have hstep := halike.step
    rw [tick_of_running hpaused, tick_of_running (hsame ▸ hpaused)]
    cases hfirst : Machine.step first with
    | ok value next =>
      rw [hfirst] at hstep
      obtain ⟨other, hother, hnext⟩ := EStateM.Result.exists_of_mapState_ok hstep.symm
      rw [hother]
      exact congrArg (fun machine : Machine => EStateM.Result.ok machine.hasWork machine)
        hnext.symm
    | error cause next =>
      rw [hfirst] at hstep
      obtain ⟨other, hother, hnext⟩ := EStateM.Result.exists_of_mapState_error hstep.symm
      rw [hother]
      exact congrArg (EStateM.Result.error cause) hnext.symm

theorem Alike.perform (halike : first.Alike second) (hstep : operation.isStep = true) :
    (first.perform operation).Alike (second.perform operation) := by
  cases operation with
  | tick =>
    have hstate := congrArg EStateM.Result.state halike.tick
    rw [Machine.perform, Machine.perform]
    cases hfirst : Machine.tick first <;> cases hsecond : Machine.tick second <;>
      rw [hfirst, hsecond] at hstate <;> exact hstate
  | pause => exact halike.pause
  | resume fuel =>
    cases fuel with
    | zero => exact halike.lifted
    | succ fuel => cases hstep
  | _ => cases hstep

def StaysOpen (count : Nat) : Machine → List Operation → Prop
  | _, [] => True
  | machine, operation :: operations =>
    count ≤ (machine.perform operation).bounded.length ∧
      StaysOpen count (machine.perform operation) operations

instance decidableStaysOpen (count : Nat) :
    (machine : Machine) → (operations : List Operation) →
      Decidable (machine.StaysOpen count operations)
  | _, [] => .isTrue trivial
  | machine, operation :: operations =>
    have : Decidable ((machine.perform operation).StaysOpen count operations) :=
      decidableStaysOpen count _ operations
    inferInstanceAs (Decidable (_ ∧ _))

/-- No output that is performed among the operations leaves the run inside of `count` segments. -/
def KeepsInside (count : Nat) : Machine → List Operation → Prop
  | _, [] => True
  | machine, operation :: operations =>
    ¬(machine.inside count).Escapes ∧ KeepsInside count (machine.perform operation) operations

variable {operations : List Operation}

theorem suffix_performAll (hsteps : ∀ operation ∈ operations, operation.isStep = true)
    (hsuffix : base <:+ machine.bounded) (hopen : machine.StaysOpen base.length operations) :
    base <:+ (machine.performAll operations).bounded := by
  induction operations generalizing machine with
  | nil => exact hsuffix
  | cons operation operations ih =>
    exact ih (fun other hmem => hsteps other (List.mem_cons_of_mem operation hmem))
      (suffix_perform (hsteps operation List.mem_cons_self) hsuffix hopen.1) hopen.2

/-- Two runs that are alike inside stay so, whatever lies outside. -/
theorem alike_performAll (other : List Segment) (hbase : base ≠ [])
    (hsteps : ∀ operation ∈ operations, operation.isStep = true) (halike : first.Alike second)
    (hopen : (first.beyond [] base).StaysOpen base.length operations)
    (hinside : (first.beyond [] base).KeepsInside base.length operations) :
    ∃ later otherLater : Machine, later.Alike otherLater ∧
      (first.beyond [] base).performAll operations = later.beyond [] base ∧
      (second.beyond [] other).performAll operations = otherLater.beyond [] other ∧
      (second.beyond [] other).StaysOpen other.length operations := by
  induction operations generalizing first second with
  | nil => exact ⟨first, second, halike, rfl, rfl, trivial⟩
  | cons operation operations ih =>
    have hstep := hsteps operation List.mem_cons_self
    have hescapes := inside_beyond base first ▸ hinside.1
    have hwork : operation = .tick → first.paused = false → first.hasWork = true := by
      rintro rfl hrunning
      exact hasWork_of_open hrunning hbase hopen.1
    have hotherWork : operation = .tick → second.paused = false → second.hasWork = true := by
      have hpaused : first.paused = second.paused := halike.same Machine.paused
      have hsame : first.hasWork = second.hasWork := halike.same Machine.hasWork
      rwa [← hpaused, ← hsame]
    have hfirst := perform_beyond base hstep hescapes hwork
    have hsecond := perform_beyond other hstep (halike.escapes_iff.not.mp hescapes)
      hotherWork
    rw [StaysOpen, hfirst] at hopen
    rw [KeepsInside, hfirst] at hinside
    obtain ⟨later, otherLater, hlater, heq, hotherEq, hotherOpen⟩ := ih
      (fun other hmem => hsteps other (List.mem_cons_of_mem operation hmem))
      (halike.perform hstep) hopen.2 hinside.2
    refine ⟨later, otherLater, hlater, ?_, ?_, ?_⟩
    · rw [← heq, ← hfirst]
      rfl
    · rw [← hotherEq, ← hsecond]
      rfl
    · rw [StaysOpen, hsecond]
      exact ⟨by simp [beyond], hotherOpen⟩

omit [Segmentation] in
theorem hasWork_beyond_of_ne_nil (hbase : base ≠ []) (machine : Machine) :
    (machine.beyond [] base).hasWork = true := by
  simp [hasWork, beyond, hbase]

/-- What waits outside does not change the answer of a tick. -/
theorem answer_tick_beyond {other : List Segment} (hbase : base ≠ []) (hother : other ≠ [])
    (halike : first.Alike second) (hescapes : ¬first.Escapes)
    (hwork : first.paused = false → first.hasWork = true) :
    (tick (first.beyond [] base)).answer = (tick (second.beyond [] other)).answer := by
  have hsame : first.paused = second.paused := halike.same Machine.paused
  cases hpaused : first.paused with
  | true =>
    rw [tick_of_paused (show (first.beyond [] base).paused = true from hpaused),
      tick_of_paused (show (second.beyond [] other).paused = true from hsame ▸ hpaused),
      hasWork_beyond_of_ne_nil hbase, hasWork_beyond_of_ne_nil hother]
    rfl
  | false =>
    have hotherWork : second.hasWork = true := by
      rw [← hwork hpaused]
      exact (halike.same Machine.hasWork).symm
    rw [tick_beyond [] (hwork hpaused) hpaused (.inr hescapes), tick_beyond [] hotherWork
      (hsame ▸ hpaused) (.inr (halike.escapes_iff.not.mp hescapes))]
    have hticks := halike.tick
    cases hfirst : tick first with
    | ok more next =>
      rw [hfirst] at hticks
      obtain ⟨after, hsecond, -⟩ := EStateM.Result.exists_of_mapState_ok hticks.symm
      rw [hsecond]
      simp only [hasWork_beyond_of_ne_nil hbase, hasWork_beyond_of_ne_nil hother,
        EStateM.Result.answer]
    | error cause next =>
      rw [hfirst] at hticks
      obtain ⟨after, hsecond, -⟩ := EStateM.Result.exists_of_mapState_error hticks.symm
      rw [hsecond]
      rfl

/-! ## The end of a run -/

variable {frames : Stack Frame} {frame : Frame}

omit [Segmentation] in
theorem answered_replaceTop (htop : frames.top? = some frame) (waiting : Frame)
    (program : List Value) (result : Value) :
    answered ⟨frames.replaceTop waiting, program⟩ result =
      frames.replaceTop { waiting with result := some result } := by
  simp only [answered, Stack.top?_replaceTop htop, Stack.replaceTop_replaceTop]

/-- The frame that has waited for a bounded run gets its value. -/
theorem tick_of_exhausted_of_waiting {waiting : Frame} {program : List Value}
    (htop : frames.top? = some frame) (hframes : machine.frames = .empty)
    (hprogram : machine.program = [])
    (hbounded : machine.bounded = ⟨frames.replaceTop waiting, program⟩ :: outer)
    (hrunning : machine.paused = false) :
    ∃ after, tick machine = .ok true after ∧
      after.frames = frames.replaceTop { waiting with result := some machine.lastResult } ∧
      after.program = program ∧ after.bounded = outer := by
  have hends := tick_of_exhausted (by rw [hframes]; rfl) hprogram hbounded hrunning
  have hwork : (machine.endBounded ⟨frames.replaceTop waiting, program⟩ outer).hasWork = true := by
    rw [endBounded_eq, answered_replaceTop htop, Stack.eq_push_of_top? htop, Stack.replaceTop_push]
    rfl
  rw [hwork] at hends
  refine ⟨_, hends, ?_⟩
  rw [endBounded_eq, answered_replaceTop htop]
  exact ⟨rfl, rfl, rfl⟩

omit [Segmentation] in
/-- A run in which nothing is left to do is exhausted. -/
theorem exhausted_of_idle (hsuffix : base <:+ machine.bounded)
    (hidle : (machine.inside base.length).hasWork = false) :
    machine.frames = .empty ∧ machine.program = [] ∧ machine.bounded = base := by
  obtain ⟨inner, hinner⟩ := hsuffix
  obtain ⟨hframes, hprogram, hbounded⟩ := hasWork_eq_false_iff.mp hidle
  refine ⟨Stack.ext hframes, hprogram, ?_⟩
  rw [← beyond_inside hinner.symm, beyond, hbounded]
  rfl

/-- A run is left when it is exhausted or by an output. -/
theorem exhausted_of_closed (hsuffix : base <:+ machine.bounded)
    (hclosed : (machine.perform .tick).bounded.length < base.length) :
    (machine.inside base.length).Escapes ∨
      machine.frames = .empty ∧ machine.program = [] ∧ machine.bounded = base := by
  by_cases hescapes : (machine.inside base.length).Escapes
  · exact .inl hescapes
  · refine .inr (exhausted_of_idle hsuffix ?_)
    obtain ⟨inner, hinner⟩ := hsuffix
    by_contra hwork
    rw [← beyond_inside hinner.symm,
      perform_beyond base rfl hescapes fun _ _ => eq_true_of_ne_false hwork, beyond,
      List.length_append] at hclosed
    omega

omit [Segmentation] in
theorem Begins.alike {other otherStarted : Machine} {otherFrame : Frame}
    {continuation otherContinuation : Continuation} {lines otherLines : List Value}
    (hbegins : machine.Begins started frame continuation lines)
    (hother : other.Begins otherStarted otherFrame otherContinuation otherLines)
    (hpaused : machine.paused = other.paused) (hprogram : started.program = otherStarted.program)
    (hworld : started.world.silence = otherStarted.world.silence)
    (hdepth : started.depth = otherStarted.depth)
    (hmaxDepth : started.maxDepth = otherStarted.maxDepth) :
    (started.inside started.bounded.length).Alike
      (otherStarted.inside otherStarted.bounded.length) := by
  obtain ⟨hframes, -, -, hresult, hstill⟩ := hbegins.started_fields
  obtain ⟨hotherFrames, -, -, hotherResult, hotherStill⟩ := hother.started_fields
  have hsuspended : started.suspended = otherStarted.suspended := by
    simpa [depth, hframes, hotherFrames] using hdepth
  simp only [Alike, plain, inside, silence, Nat.sub_self, List.take_zero, hframes, hotherFrames,
    hresult, hotherResult, hstill, hotherStill, hpaused, hprogram, hworld, hmaxDepth, hsuspended]

/-- As long as a bounded run is open, whatever it does leaves all that has been put aside as it is.
When it is exhausted, the frames and lines put aside are there again, and the frame that has waited
holds the last value of the run, which is nil before any line has been run. The run is not left in
any other way than this, unless an output leaves it. Without such an output, two bounded runs of the
same lines in the same world and at the same depth take the same steps, whatever has been put
aside. -/
theorem bounded_run_is_isolated {machine started : Machine} {saved : Segment} {more : Bool}
    (htick : tick machine = .ok more started)
    (hbegun : started.bounded = saved :: machine.bounded) :
    ∃ frame continuation,
      (machine.frames.top? = some frame ∧ frame.definition.isSpecial = true ∧
        frame.evaluated = false ∧
        saved = ⟨machine.frames.replaceTop (frame.awaiting continuation), machine.program⟩ ∧
        started.frames = .empty ∧ started.lastResult = .nil) ∧
      ∀ operations : List Operation, (∀ operation ∈ operations, operation.isStep = true) →
        started.StaysOpen started.bounded.length operations →
        let later := started.performAll operations
        started.bounded <:+ later.bounded ∧
        (later.frames = .empty → later.program = [] → later.bounded = started.bounded →
          later.paused = false → ∃ after, tick later = .ok true after ∧
            after.frames = machine.frames.replaceTop
              { frame.awaiting continuation with result := some later.lastResult } ∧
            after.program = machine.program ∧ after.bounded = machine.bounded) ∧
        ((later.perform .tick).bounded.length < started.bounded.length →
          (later.inside started.bounded.length).Escapes ∨
            later.frames = .empty ∧ later.program = [] ∧ later.bounded = started.bounded) ∧
        ∀ {other otherStarted : Machine} {otherSaved : Segment} {otherMore : Bool},
          tick other = .ok otherMore otherStarted →
          otherStarted.bounded = otherSaved :: other.bounded →
          started.program = otherStarted.program →
          started.world.silence = otherStarted.world.silence →
          started.depth = otherStarted.depth → started.maxDepth = otherStarted.maxDepth →
          started.KeepsInside started.bounded.length operations →
          let otherLater := otherStarted.performAll operations
          otherStarted.StaysOpen otherStarted.bounded.length operations ∧
          (later.inside started.bounded.length).Alike
            (otherLater.inside otherStarted.bounded.length) ∧
          (later.StaysOpen started.bounded.length [.tick] →
            ¬(later.inside started.bounded.length).Escapes →
            (tick later).answer = (tick otherLater).answer) := by
  obtain ⟨hrunning, frame, continuation, lines, hbegins⟩ := begins_of_tick htick hbegun
  obtain ⟨hframes, -, hbounded, hresult, hstill⟩ := hbegins.started_fields
  have hsaved : saved = ⟨machine.frames.replaceTop (frame.awaiting continuation),
      machine.program⟩ := (List.cons.inj (hbegun.symm.trans hbounded)).1
  refine ⟨frame, continuation, ⟨hbegins.top, hbegins.special, hbegins.unevaluated, hsaved, hframes,
    hresult⟩, fun operations hsteps hopen => ?_⟩
  intro later
  have hsuffix : started.bounded <:+ later.bounded :=
    suffix_performAll hsteps List.suffix_rfl hopen
  refine ⟨hsuffix, ?_, exhausted_of_closed hsuffix, ?_⟩
  · intro hlaterFrames hlaterProgram hlaterBounded hlaterRunning
    exact tick_of_exhausted_of_waiting hbegins.top hlaterFrames hlaterProgram
      (hlaterBounded.trans hbounded) hlaterRunning
  · intro other otherStarted otherSaved otherMore hotherTick hotherBegun hprogram hworld hdepth
      hmaxDepth hinside otherLater
    obtain ⟨hotherRunning, otherFrame, otherContinuation, otherLines, hother⟩ :=
      begins_of_tick hotherTick hotherBegun
    have halike := hbegins.alike hother (hrunning.trans hotherRunning.symm) hprogram hworld hdepth
      hmaxDepth
    have hbase : started.bounded ≠ [] := by simp [hbounded]
    have hotherBase : otherStarted.bounded ≠ [] := by simp [hotherBegun]
    have hstart := beyond_inside (List.nil_append started.bounded).symm
    have hotherStart := beyond_inside (List.nil_append otherStarted.bounded).symm
    have hrun := alike_performAll otherStarted.bounded hbase hsteps halike
      (by rw [hstart]; exact hopen) (by rw [hstart]; exact hinside)
    rw [hstart, hotherStart] at hrun
    obtain ⟨core, otherCore, hcore, hlater, hotherLater, hotherOpen⟩ := hrun
    have hsame : later = core.beyond [] started.bounded := hlater
    have hotherSame : otherLater = otherCore.beyond [] otherStarted.bounded := hotherLater
    rw [hsame, hotherSame, inside_beyond, inside_beyond]
    refine ⟨hotherOpen, hcore, fun hnext hescapes => ?_⟩
    exact answer_tick_beyond hbase hotherBase hcore hescapes fun hrunning =>
      hasWork_of_open hrunning hbase hnext.1

end

open scoped Graphemes

theorem readword_in_bounded_run :
    let machine := { Machine.new 9 (.new ["hello"]) (.new none) with
      program := [.call ⟨"make", [.quote "x", .call ⟨"run", [.quote "readword"], .nowhere⟩],
        .nowhere⟩] }.performAll [.tick, .tick, .tick, .tick]
    let other := machine.beyond [.nil] [⟨machine.frames, [.nil]⟩]
    let started := (tick machine).state
    let otherStarted := (tick other).state
    let later := started.performAll [.tick, .tick, .tick]
    (tick machine = .ok true started ∧ started.bounded.length = 1 ∧ later.bounded.length = 1) ∧
    started.bounded <:+ later.bounded ∧
    (∃ (frame : Frame) (continuation : Continuation) (after : Machine),
      tick later = .ok true after ∧ after.frames = machine.frames.replaceTop
        { frame.awaiting continuation with result := some later.lastResult }) ∧
    (later.inside 1).Alike ((otherStarted.performAll [.tick, .tick, .tick]).inside 2) := by
  intro machine other started otherStarted later
  have hfacts : ((tick machine).answer.toOption = some true ∧
      machine.paused = false ∧ machine.frames.top?.any (·.isOutput) = false) ∧
      machine.bounded.length = 0 ∧ started.bounded.length = 1 ∧
      (1 ≤ (started.perform .tick).bounded.length ∧
        1 ≤ ((started.perform .tick).perform .tick).bounded.length ∧ later.bounded.length = 1) ∧
      (started.frames.top?.any (·.isOutput) = false ∧
        (started.perform .tick).frames.top?.any (·.isOutput) = false ∧
        ((started.perform .tick).perform .tick).frames.top?.any (·.isOutput) = false) ∧
      later.frames.toList.length = 0 ∧ later.program.length = 0 ∧ later.paused = false := by
    decide +kernel
  clear_value machine
  obtain ⟨⟨hok, hrunning, htop⟩, hnone, hone, ⟨hfirst, hsecond, hthird⟩, hcalm, hdone⟩ := hfacts
  have htick : tick machine = .ok true started := by
    change tick machine = .ok true (tick machine).state
    cases hresult : tick machine with
    | ok more next =>
      rw [hresult] at hok
      cases hok
      rfl
    | error cause next =>
      rw [hresult] at hok
      cases hok
  have hnone := List.length_eq_zero_iff.mp hnone
  obtain ⟨saved, hsaved⟩ := List.length_eq_one_iff.mp hone
  have hbegun : started.bounded = saved :: machine.bounded := by rw [hsaved, hnone]
  have hwork : machine.hasWork = true := by
    apply hasWork_of_tick_ne
    rw [htick]
    simp
  let outside := started.beyond [.nil] [⟨machine.frames, [.nil]⟩]
  have hotherTick : tick other = .ok outside.hasWork outside := by
    rw [tick_beyond [.nil] hwork hrunning (.inr (not_escapes_of_top? htop)), htick]
  have hotherStarted : otherStarted = outside := by
    change (tick other).state = _
    rw [hotherTick, EStateM.Result.state_ok]
  have hotherBegun : outside.bounded =
      { saved with program := saved.program ++ [.nil] } :: other.bounded := by
    simp [outside, other, beyond, hsaved, hnone, Segment.extendLast, queueBehind]
  have hprogram : started.program = outside.program := by
    simp [outside, beyond, hsaved, queueBehind]
  obtain ⟨frame, continuation, -, hruns⟩ := bounded_run_is_isolated htick hbegun
  obtain ⟨hsuffix, hends, -, htwo⟩ := hruns [.tick, .tick, .tick] (by decide)
    (by rw [hone]; exact ⟨hfirst, hsecond, hthird.ge, trivial⟩)
  have hlater : later.bounded = started.bounded :=
    (hsuffix.eq_of_length (hone.trans hthird.symm)).symm
  obtain ⟨after, hafter, hframes, -⟩ := hends (Stack.ext (List.length_eq_zero_iff.mp hdone.1))
    (List.length_eq_zero_iff.mp hdone.2.1) hlater hdone.2.2
  obtain ⟨-, halike, -⟩ := htwo hotherTick hotherBegun hprogram rfl rfl rfl
    ⟨not_escapes_of_top? hcalm.1, not_escapes_of_top? hcalm.2.1, not_escapes_of_top? hcalm.2.2,
      trivial⟩
  have hlength : outside.bounded.length = 2 := by
    simp [hotherBegun, other, beyond, hnone, Segment.extendLast]
  rw [hone, hlength, ← hotherStarted] at halike
  exact ⟨⟨htick, hone, hthird⟩, hsuffix, ⟨frame, continuation, after, hafter, hframes⟩, halike⟩

end Machine

end Logo
