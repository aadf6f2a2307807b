import Logo.Proofs.AlikeTurns
import Logo.Proofs.Operations
import Mathlib.Data.List.TakeWhile

/-!
# Machines in a guise

Some parts of a machine have no influence on its steps: the log, the counts of active calls, the
mark of a pause, what lies outside of the run, and, where no call is started, the bound on active
frames. A guise says how such parts have been changed. What a machine does in a guise is said here
once, for all guises.
-/

namespace Logo

/-- Worlds that differ in their logs. -/
theorem World.exists_log_eq {first second : World} (hsame : first.silence = second.silence) :
    ∃ log, second = { first with log } := by
  refine ⟨second.log, ?_⟩
  obtain ⟨_, _, _, _, _, _⟩ := first
  obtain ⟨_, _, _, _, _, _⟩ := second
  simp only [World.silence, World.mk.injEq, and_true] at hsame
  simp [hsame]

/-! ## What may be changed -/

variable [Segmentation]

/-- How a world has been changed by a guise, of which only the log may be another, and how the
counts of active calls, which are used in the log only. -/
structure Disguise where
  world : World → World → Prop
  active : NameTable Nat → NameTable Nat → Prop
  silence {first second : World} : world first second → first.silence = second.silence
  note {first second : World} : world first second → ∀ level message,
    world { first with log := first.log.noted level message }
      { second with log := second.log.noted level message }
  environment {first second : World} : world first second → ∀ change : Environment → Environment,
    world { first with environment := change first.environment }
      { second with environment := change second.environment }
  enter {first second : Machine} : world first.world second.world →
    active first.active second.active → first.depth = second.depth → ∀ definition : Procedure,
      world { first.world with log := first.entryLog definition }
        { second.world with log := second.entryLog definition }
  turn {first second : World} : world first second → ∀ {forms : Forms},
    (∀ form inputs continuation finished, Orderly (forms form inputs continuation finished)) →
      ∀ frame, ∃ after, forms.turn frame second = { forms.turn frame first with world := after } ∧
        world (forms.turn frame first).world after
  count {first second : NameTable Nat} : active first second → ∀ name,
    active (first.insert name ((first.get? name).getD 0 + 1))
      (second.insert name ((second.get? name).getD 0 + 1))
  discount {first second : NameTable Nat} : active first second → ∀ name,
    active (Machine.discount first name) (Machine.discount second name)

/-- How the parts of a machine have been changed. The lines of a run may hang on the segments around
it, but only those of the outermost one may be others. -/
structure Guise extends Disguise where
  paused : Bool → Bool
  maxDepth : Nat → Nat
  program : List Segment → List Value → List Value
  bounded : List Segment → List Segment
  program_inside (saved : Segment) (outer : List Segment) (lines : List Value) :
    program (saved :: outer) lines = lines
  program_cons (outer : List Segment) (line : Value) (lines : List Value) :
    program outer (line :: lines) = line :: program outer lines
  bounded_cons (saved : Segment) (outer : List Segment) :
    bounded (saved :: outer) = ⟨saved.frames, program outer saved.program⟩ :: bounded outer

namespace Disguise

def same : Disguise where
  world first second := second = first
  active first second := second = first
  silence hsame := by rw [hsame]
  note hsame level message := by rw [hsame]
  environment hsame change := by rw [hsame]
  enter hworld hactive hdepth definition := by
    rw [Machine.entryLog, Machine.entryLog, hworld, hactive, hdepth]
  turn hsame forms _ frame := ⟨_, by rw [hsame], rfl⟩
  count hsame name := by rw [hsame]
  discount hsame name := by rw [hsame]

end Disguise

namespace Disguise

def silent : Disguise where
  world first second := second = first.silence
  active first second := second = first
  silence hsilent := by
    rw [hsilent]
    rfl
  note hsilent level message := by
    rw [hsilent]
    rfl
  environment hsilent change := by
    rw [hsilent]
    rfl
  enter hworld _ _ definition := by
    have hlog : ∀ machine : Machine, machine.world.log = .new none →
        machine.entryLog definition = .new none := by
      intro machine hlog
      rw [Machine.entryLog, hlog]
      split <;> rfl
    rw [hlog _ (congrArg World.log hworld), hworld]
    rfl
  turn {first second} hsilent forms horderly frame := by
    have hworlds : (Comparison.silent (fun _ => True) True).worlds () first second :=
      ⟨_, hsilent, trivial, fun _ => rfl⟩
    obtain ⟨_, hturn, log, rfl, -, hlog⟩ :=
      Forms.exists_turn_eq horderly Environment.stable_true hworlds frame
    refine ⟨_, hturn, ?_⟩
    rw [hlog trivial]
    rfl
  count hsame name := by rw [hsame]
  discount hsame name := by rw [hsame]

def uncounted : Disguise where
  world first second := first.silence = second.silence
  active _ _ := True
  silence := id
  note hsame level message := hsame
  environment {first second} hsame change := by
    obtain ⟨log, rfl⟩ := World.exists_log_eq hsame
    rfl
  enter hworld _ _ definition := hworld
  turn {first second} hsame forms horderly frame := by
    obtain ⟨log, hlog⟩ := World.exists_log_eq hsame
    have hworlds : (Comparison.silent (fun _ => True) False).worlds () first second :=
      ⟨log, hlog, trivial, False.elim⟩
    obtain ⟨_, hturn, _, rfl, -⟩ :=
      Forms.exists_turn_eq horderly Environment.stable_true hworlds frame
    exact ⟨_, hturn, rfl⟩
  count _ _ := trivial
  discount _ _ := trivial

end Disguise

/-- The guise in which nothing but the log and the counts have been changed. -/
def Disguise.plain (disguise : Disguise) : Guise where
  toDisguise := disguise
  paused paused := paused
  maxDepth maxDepth := maxDepth
  program _ lines := lines
  bounded segments := segments
  program_inside _ _ _ := rfl
  program_cons _ _ _ := rfl
  bounded_cons _ _ := rfl

namespace Machine

/-! ## Where an output ends -/

omit [Segmentation] in
theorem outputThrough_of_target {machine : Machine} {target : Frame} {below : List Frame}
    (htarget : machine.frames.toList.dropWhile (!·.definition.isUserDefined) = target :: below)
    (value : Value) (segments : List Segment) :
    machine.outputThrough value segments =
      let above := machine.frames.toList.takeWhile (!·.definition.isUserDefined)
      machine.abandon above
        ((machine.frames.drop above.length).replaceTop (target.finish value)) := by
  cases segments <;> simp only [outputThrough, htarget]

omit [Segmentation] in
/-- Without a procedure that could end, an output leaves the bounded run. -/
theorem outputThrough_of_nil {machine : Machine}
    (htarget : machine.frames.toList.dropWhile (!·.definition.isUserDefined) = [])
    (value : Value) (saved : Segment) (outer : List Segment) :
    machine.outputThrough value (saved :: outer) =
      (((machine.note .debug fun _ => "output leaves a bounded run, restoring " ++
        toString saved.frames.size ++ " frames").abandon machine.frames.toList .empty).restore saved
          outer).outputThrough value outer := by
  simp only [outputThrough, htarget]

end Machine

/-! ## Machines -/

/-- The second machine is the first one in the guise. -/
inductive Guise.Wears (guise : Guise) (machine : Machine) : Machine → Prop where
  | intro {log : Log} {active : NameTable Nat}
      (hworld : guise.world machine.world { machine.world with log })
      (hactive : guise.active machine.active active) :
      Wears guise machine
        { machine with
          world := { machine.world with log }
          active
          paused := guise.paused machine.paused
          maxDepth := guise.maxDepth machine.maxDepth
          program := guise.program machine.bounded machine.program
          bounded := guise.bounded machine.bounded }

/-- Both steps have failed for the same reason, or neither has. -/
inductive Guise.Agree (guise : Guise) :
    EStateM.Result RuntimeError Machine Unit → EStateM.Result RuntimeError Machine Unit →
      Prop where
  | ok {first second : Machine} (hwears : guise.Wears first second) :
      Agree guise (.ok () first) (.ok () second)
  | error {first second : Machine} (cause : RuntimeError) (hwears : guise.Wears first second) :
      Agree guise (.error cause first) (.error cause second)

namespace Guise

variable {guise : Guise} {first second : Machine}

theorem Agree.eq_mapState {change : Machine → Machine}
    (hchange : ∀ first second, guise.Wears first second → second = change first)
    {result other : EStateM.Result RuntimeError Machine Unit} (hagree : guise.Agree result other) :
    other = result.mapState change := by
  cases hagree with
  | ok hwears => exact congrArg (EStateM.Result.ok ()) (hchange _ _ hwears)
  | error cause hwears => exact congrArg (EStateM.Result.error cause) (hchange _ _ hwears)

namespace Wears

variable (hwears : guise.Wears first second)

include hwears

theorem frames_eq : second.frames = first.frames := by
  cases hwears
  rfl

theorem world : guise.world first.world second.world := by
  cases hwears
  assumption

theorem active : guise.active first.active second.active := by
  cases hwears
  assumption

theorem depth_eq : first.depth = second.depth := by
  cases hwears
  rfl

theorem bounded_eq : second.bounded = guise.bounded first.bounded := by
  cases hwears
  rfl

theorem setFrames (frames : Stack Frame) :
    guise.Wears { first with frames } { second with frames } := by
  obtain ⟨hworld, hactive⟩ := hwears
  exact .intro hworld hactive

theorem withTop (frame : Frame) {world other : World} (hother : guise.world world other) :
    guise.Wears (first.withTop frame world) (second.withTop frame other) := by
  obtain ⟨-, hactive⟩ := hwears
  obtain ⟨log, rfl⟩ := World.exists_log_eq (guise.silence hother)
  exact .intro hother hactive

theorem setPaused {paused : Bool} (hpaused : guise.paused paused = paused) :
    guise.Wears { first with paused } { second with paused } := by
  obtain ⟨hworld, hactive⟩ := hwears
  have hset : guise.Wears { first with paused } _ := .intro hworld hactive
  rw [hpaused] at hset
  exact hset

theorem note (level : LogLevel) {message : Machine → String}
    (hmessage : message first = message second) :
    guise.Wears (first.note level message) (second.note level message) := by
  rw [Machine.note_apply, Machine.note_apply, hmessage]
  obtain ⟨hworld, hactive⟩ := hwears
  exact .intro (guise.note hworld level _) hactive

/-! ### Frames -/

theorem enter (call : Call) (definition : Procedure) :
    guise.Wears (first.enter call definition) (second.enter call definition) := by
  have hentry := guise.enter hwears.world hwears.active hwears.depth_eq definition
  rw [Machine.enter_eq, Machine.enter_eq]
  obtain ⟨-, hactive⟩ := hwears
  exact .intro (guise.environment hentry fun environment =>
    if definition.isSpecial then environment else environment.push (.new definition.name))
    (guise.count hactive definition.name)

theorem release (frame : Frame) : guise.Wears (first.release frame) (second.release frame) := by
  obtain ⟨hworld, hactive⟩ := hwears
  rw [Machine.release_eq, Machine.release_eq]
  exact .intro (guise.environment hworld fun environment =>
    if frame.definition.isSpecial then environment else environment.pop)
    (guise.discount hactive frame.definition.name)

theorem unschedule : guise.Wears first.unschedule.2 second.unschedule.2 := by
  have hframes := hwears.frames_eq
  cases htop : first.frames.top? with
  | none =>
    rw [Machine.unschedule, Machine.unschedule, hframes, htop]
    exact hwears
  | some frame =>
    rw [Machine.unschedule_eq htop, Machine.unschedule_eq (hframes ▸ htop), Machine.note_apply,
      Machine.note_apply, Machine.release_eq, Machine.release_eq]
    obtain ⟨hworld, hactive⟩ := hwears
    exact .intro (guise.note (guise.environment hworld fun environment =>
      if frame.definition.isSpecial then environment else environment.pop) .trace _)
      (guise.discount hactive frame.definition.name)

theorem abandon (frames : List Frame) (rest : Stack Frame) :
    guise.Wears (first.abandon frames rest) (second.abandon frames rest) := by
  have hrest := hwears.setFrames rest
  rw [Machine.abandon, Machine.abandon]
  generalize { first with frames := rest } = start at hrest
  generalize { second with frames := rest } = other at hrest
  induction frames generalizing start other with
  | nil => exact hrest
  | cons frame frames ih => exact ih _ _ ((hrest.note .trace rfl).release frame)

/-! ### Bounded runs and output -/

theorem beginBounded (program : List Value) :
    guise.Wears (first.beginBounded program) (second.beginBounded program) := by
  obtain ⟨hworld, hactive⟩ := hwears
  have hbegins : ∀ message, guise.Wears
      { first with
        world := { first.world with log := first.world.log.noted .debug message }
        frames := .empty
        program
        bounded := ⟨first.frames, first.program⟩ :: first.bounded
        suspended := first.suspended + first.frames.size
        lastResult := .nil } _ :=
    fun message => .intro (guise.note hworld .debug message) hactive
  simp only [guise.program_inside, guise.bounded_cons] at hbegins
  rw [Machine.beginBounded, Machine.beginBounded, Machine.note_apply, Machine.note_apply]
  exact hbegins _

theorem restore (saved : Segment) (outer : List Segment) :
    guise.Wears (first.restore saved outer)
      (second.restore ⟨saved.frames, guise.program outer saved.program⟩ (guise.bounded outer)) := by
  obtain ⟨hworld, hactive⟩ := hwears
  exact .intro hworld hactive

theorem endBounded (saved : Segment) (outer : List Segment) :
    guise.Wears (first.endBounded saved outer)
      (second.endBounded ⟨saved.frames, guise.program outer saved.program⟩
        (guise.bounded outer)) := by
  obtain ⟨hworld, hactive⟩ := hwears
  rw [Machine.endBounded_eq, Machine.endBounded_eq, Machine.note_apply, Machine.note_apply]
  exact .intro (guise.note hworld .debug _) hactive

theorem outputThrough_of_target {target : Frame} {below : List Frame}
    (htarget : first.frames.toList.dropWhile (!·.definition.isUserDefined) = target :: below)
    (value : Value) (segments others : List Segment) :
    guise.Wears (first.outputThrough value segments) (second.outputThrough value others) := by
  rw [Machine.outputThrough_of_target htarget, Machine.outputThrough_of_target
    (hwears.frames_eq ▸ htarget), hwears.frames_eq]
  exact hwears.abandon _ _

/-- An output that ends a procedure of the run, or finds nothing outside, does the same. -/
theorem outputThrough (value : Value) {segments : List Segment}
    (hinside : guise.bounded [] = [] ∨
      ∃ frame ∈ first.frames.toList ++ segments.flatMap (·.frames.toList),
        frame.definition.isUserDefined = true) :
    guise.Wears (first.outputThrough value segments)
      (second.outputThrough value (guise.bounded segments)) := by
  induction segments generalizing first second with
  | nil =>
    cases htarget : first.frames.toList.dropWhile (!·.definition.isUserDefined) with
    | cons target below => exact hwears.outputThrough_of_target htarget value _ _
    | nil =>
      have hnone : guise.bounded [] = [] := by
        apply hinside.resolve_right
        simpa using List.dropWhile_eq_nil_iff.mp htarget
      simp only [Machine.outputThrough, hnone, hwears.frames_eq, htarget]
      cases first.frames.top? with
      | none => exact hwears
      | some frame => exact hwears.setFrames _
  | cons saved outer ih =>
    cases htarget : first.frames.toList.dropWhile (!·.definition.isUserDefined) with
    | cons target below => exact hwears.outputThrough_of_target htarget value _ _
    | nil =>
      rw [guise.bounded_cons, Machine.outputThrough_of_nil htarget,
        Machine.outputThrough_of_nil (hwears.frames_eq ▸ htarget), hwears.frames_eq]
      apply ih (((hwears.note .debug rfl).abandon _ _).restore saved outer)
      apply hinside.imp_right
      rintro ⟨frame, hmem, huser⟩
      refine ⟨frame, ?_, huser⟩
      have hpassed := List.dropWhile_eq_nil_iff.mp htarget frame
      simp only [huser, Bool.not_true, Bool.false_eq_true, imp_false] at hpassed
      change frame ∈ saved.frames.toList ++ _
      simpa only [List.flatMap_cons, List.mem_append, hpassed, false_or] using hmem

theorem output (value : Value)
    (hinside : guise.bounded [] = [] ∨
      ∃ frame ∈ first.allFrames, frame.definition.isUserDefined = true) :
    guise.Wears (first.output value) (second.output value) := by
  rw [Machine.output, Machine.output, hwears.bounded_eq]
  exact hwears.outputThrough value hinside

/-! ### Pauses -/

theorem pause (hpaused : guise.paused = id) : guise.Wears first.pause second.pause := by
  have hsame : second.paused = first.paused := by
    cases hwears
    exact congrFun hpaused _
  rw [Machine.pause, Machine.pause, hsame]
  apply setPaused _ (congrFun hpaused true)
  split
  · exact hwears
  · exact hwears.note .debug (by rw [hwears.depth_eq])

theorem lifted (hpaused : guise.paused = id) : guise.Wears first.lifted second.lifted := by
  have hsame : second.paused = first.paused := by
    cases hwears
    exact congrFun hpaused _
  rw [Machine.lifted, Machine.lifted, hsame]
  split
  · exact (hwears.note .debug (by rw [hwears.depth_eq])).setPaused (congrFun hpaused false)
  · exact hwears

/-! ### Steps -/

/-- Both machines start the call, or neither does. -/
theorem schedule (hbound : guise.maxDepth = id) (call : Call) :
    guise.Agree (Machine.schedule call first) (Machine.schedule call second) := by
  have henvironment : second.world.environment = first.world.environment := by
    cases hwears
    rfl
  have hmaxDepth : second.maxDepth = first.maxDepth := by
    cases hwears
    exact congrFun hbound _
  rw [Machine.schedule_apply, Machine.schedule_apply, henvironment, hmaxDepth, ← hwears.depth_eq]
  cases first.world.environment.procedures.find? call.name with
  | none => exact .error _ hwears
  | some definition =>
    dsimp only
    split
    · exact .error _ hwears
    · exact .ok (hwears.enter call definition)

/-- Where there is work, or nothing outside, the next line is the same. -/
theorem advanceProgram (hbound : guise.maxDepth = id)
    (hwork : first.program ≠ [] ∨ first.bounded ≠ [] ∨
      guise.program [] [] = [] ∧ guise.bounded [] = []) :
    guise.Agree (Machine.advanceProgram first) (Machine.advanceProgram second) := by
  obtain ⟨hworld, hactive⟩ := hwears
  rw [Machine.advanceProgram_apply, Machine.advanceProgram_apply]
  dsimp only
  cases hlines : first.program with
  | nil =>
    cases hsegments : first.bounded with
    | nil =>
      obtain ⟨hprogram, hbounded⟩ : guise.program [] [] = [] ∧ guise.bounded [] = [] := by
        simpa [hlines, hsegments] using hwork
      have hidle : guise.Wears first _ := .intro hworld hactive
      rw [hlines, hsegments, hprogram, hbounded] at hidle
      rw [hprogram, hbounded]
      exact .ok hidle
    | cons saved outer =>
      have hends := (Wears.intro hworld hactive).endBounded saved outer
      rw [hlines, hsegments, guise.program_inside, guise.bounded_cons] at hends
      rw [guise.program_inside, guise.bounded_cons]
      exact .ok hends
  | cons line program =>
    rw [guise.program_cons]
    cases line with
    | call site =>
      have hnext : guise.Wears { first with program } _ := .intro hworld hactive
      exact hnext.schedule hbound site
    | procedure definition =>
      dsimp only
      rw [Machine.note_apply, Machine.note_apply]
      exact .ok (.intro (guise.note hworld .debug _) hactive)
    | list handle => exact .ok (.intro hworld hactive)
    | atom value =>
      cases value with
      | symbol name => exact .error _ (.intro hworld hactive)
      | number _ | boolean _ | quote _ | nil | none => exact .ok (.intro hworld hactive)

/-- Both machines do what the turn asks for. -/
theorem make (hbound : guise.maxDepth = id) {turn : Turn} {after : World}
    (hafter : guise.world turn.world after) (hpause : turn.move = .pause → guise.paused = id)
    (hinside : ∀ value, turn.move = .output value → guise.bounded [] = [] ∨
      ∃ frame ∈ (first.withTop turn.frame turn.world).allFrames,
        frame.definition.isUserDefined = true) :
    guise.Agree (first.make turn) (second.make { turn with world := after }) := by
  have hnext := hwears.withTop turn.frame hafter
  rw [Machine.make, Machine.make]
  dsimp only
  cases hmove : turn.move with
  | stay => exact .ok hnext
  | fail cause => exact .error cause hnext
  | call site => exact hnext.schedule hbound site
  | output value => exact .ok (hnext.output value (hinside value hmove))
  | pause => exact .ok (hnext.pause (hpause hmove))
  | bounded program => exact .ok (hnext.beginBounded program)

/-- The machine takes the same step in the guise. -/
theorem step {forms : Forms}
    (horderly : ∀ form inputs continuation finished,
      Orderly (forms form inputs continuation finished))
    (hbound : guise.maxDepth = id)
    (hpause : ∀ frame, (forms.turn frame first.world).move = .pause → guise.paused = id)
    (hinside : ∀ frame value, first.frames.top? = some frame → frame.evaluated = false →
      (forms.turn frame first.world).move = .output value → guise.bounded [] = [] ∨
        ∃ active ∈ (first.withTop (forms.turn frame first.world).frame
          (forms.turn frame first.world).world).allFrames, active.definition.isUserDefined = true)
    (hwork : first.hasWork = true ∨ guise.program [] [] = [] ∧ guise.bounded [] = []) :
    guise.Agree (forms.step first) (forms.step second) := by
  cases htop : first.frames.top? with
  | none =>
    rw [Forms.step, Forms.step, hwears.frames_eq, htop]
    apply hwears.advanceProgram hbound
    rw [Machine.hasWork, Stack.eq_empty_of_top? htop] at hwork
    simpa [Stack.isEmpty, Stack.empty, or_assoc] using hwork
  | some frame =>
    cases hevaluated : frame.evaluated with
    | true =>
      rw [Forms.step, Forms.step, hwears.frames_eq, htop]
      dsimp only
      rw [hevaluated]
      exact .ok hwears.unschedule
    | false =>
      obtain ⟨after, hturn, hafter⟩ := guise.turn hwears.world horderly frame
      rw [forms.step_of_open htop hevaluated,
        forms.step_of_open (hwears.frames_eq ▸ htop) hevaluated, hturn]
      exact hwears.make hbound hafter (hpause frame) (hinside frame · htop hevaluated)

end Wears

end Guise

end Logo
