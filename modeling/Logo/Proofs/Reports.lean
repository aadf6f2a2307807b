import Logo.Proofs.AlikeWorlds
import Logo.Proofs.Outside
import Logo.Proofs.Scoping

/-!
# What can be seen of a call

A call is evaluated by steps until it is over, or until an output has ended a procedure around it,
or until a step fails. Each pause on the way is lifted. A report says what can be seen of all this:
at every pause and at the end. Two calls have the same reports if nobody who looks at variables,
procedures, the console and the turtle can tell them apart.
-/

namespace Logo

/-- What can be seen of a world. -/
structure Sight where
  /-- The names of the scopes, the innermost first and the global one last, and what their variables
  hold. A variable that is only declared holds nothing. -/
  scopes : List (String × (String → Option (Option Datum)))
  procedures : Procedures
  console : Console
  turtle : Turtle

/-- How the evaluation of a call ends. -/
inductive Ending where
  /-- A call is over with a value. The depth tells which: that of the call that was evaluated, or
  less if an output has ended a procedure around it. -/
  | over (depth : Nat) (value : Datum)
  | failed (cause : RuntimeError)

structure Report where
  /-- The depth and the world at each pause. -/
  pauses : List (Nat × Sight)
  ending : Ending
  sight : Sight

/-! ## Worlds -/

namespace World

def showBinding (world : World) : Binding → Option Datum
  | .declared => none
  | .assigned value => some (world.view value)

def showScope (world : World) (scope : Scope) : String × (String → Option (Option Datum)) :=
  (scope.name, fun key => (scope.members.get? key).map world.showBinding)

def sight (world : World) : Sight where
  scopes := world.environment.scopes.map world.showScope
  procedures := world.environment.procedures
  console := world.console
  turtle := world.turtle

variable {reserve : Reserve} {pairs : Matching} {left right : World}

theorem Alike.showScope_eq (halike : left.Alike reserve pairs right) {first second : Scope}
    (hscope : first.Alike pairs second) : left.showScope first = right.showScope second := by
  rw [showScope, showScope, hscope.name]
  refine congrArg (Prod.mk second.name) (funext fun key => ?_)
  obtain ⟨hfirst, hsecond⟩ | ⟨_, _, hfirst, hsecond, hsame⟩ := cases_rel (hscope.members key)
  · rw [hfirst, hsecond]
    rfl
  · rw [hfirst, hsecond]
    cases hsame with
    | declared => rfl
    | assigned hvalue =>
      simp only [Option.map_some, showBinding, halike.view_eq hvalue]

/-- Worlds that are alike cannot be told apart. -/
theorem Alike.sight_eq (halike : left.Alike reserve pairs right) : left.sight = right.sight := by
  have hscopes : left.environment.scopes.map left.showScope =
      right.environment.scopes.map right.showScope := by
    rw [← List.forall₂_eq_eq_eq, List.forall₂_map_left_iff, List.forall₂_map_right_iff]
    have hall := List.rel_append halike.environment.inner (.cons halike.environment.global .nil)
    exact hall.imp fun _ _ => halike.showScope_eq
  rw [sight, sight, hscopes, halike.environment.procedures, halike.console, halike.turtle]

end World

/-! ## Evaluation -/

def Report.behind (report : Report) (machine : Machine) : Report :=
  { report with pauses := (machine.depth, machine.world.sight) :: report.pauses }

namespace Machine

variable {frame : Frame} {cause : RuntimeError} {call : Call} {fuel : Nat}

/-- The innermost call is over and no deeper than `depth`. -/
def Over (machine : Machine) (depth : Nat) : Prop :=
  ∃ frame, machine.frames.top? = some frame ∧ frame.evaluated = true ∧ machine.depth ≤ depth

variable [Segmentation]

/-- The report of an evaluation that goes on until a call is over that is no deeper than `depth`. -/
inductive Settles (depth : Nat) : Machine → Report → Prop where
  | ends {machine : Machine} {frame : Frame} (htop : machine.frames.top? = some frame)
      (hevaluated : frame.evaluated = true) (hdepth : machine.depth ≤ depth) :
      Settles depth machine
        ⟨[], .over machine.depth (machine.view (frame.result.getD .nil)), machine.world.sight⟩
  | fails {machine after : Machine} {cause : RuntimeError} (hopen : ¬machine.Over depth)
      (hrunning : machine.paused = false) (htick : tick machine = .error cause after) :
      Settles depth machine ⟨[], .failed cause, after.world.sight⟩
  | steps {machine after : Machine} {more : Bool} {report : Report} (hopen : ¬machine.Over depth)
      (hrunning : machine.paused = false) (htick : tick machine = .ok more after)
      (hrest : Settles depth after report) : Settles depth machine report
  | resumes {machine : Machine} {report : Report} (hopen : ¬machine.Over depth)
      (hpaused : machine.paused = true) (hrest : Settles depth machine.lifted report) :
      Settles depth machine (report.behind machine)

/-- The report of the evaluation of a call. -/
def Evaluates (machine : Machine) (call : Call) (report : Report) : Prop :=
  match schedule call machine with
  | .ok _ started => started.Settles (machine.depth + 1) report
  | .error cause after => report = ⟨[], .failed cause, after.world.sight⟩

inductive Turns (depth : Nat) : Machine → Machine → Prop where
  | steps {machine after : Machine} {more : Bool} (hopen : ¬machine.Over depth)
      (hrunning : machine.paused = false) (htick : tick machine = .ok more after) :
      Turns depth machine after
  | resumes {machine : Machine} (hopen : ¬machine.Over depth) (hpaused : machine.paused = true) :
      Turns depth machine machine.lifted

/-- The evaluation of the call comes to this machine. -/
def Meets (machine : Machine) (call : Call) (met : Machine) : Prop :=
  ∃ started, schedule call machine = .ok () started ∧
    Relation.ReflTransGen (Turns (machine.depth + 1)) started met

variable {machine after : Machine} {depth : Nat} {report : Report}

omit [Segmentation] in
theorem not_over_of_top? (htop : machine.frames.top? = some frame)
    (hevaluated : frame.evaluated = false) : ¬machine.Over depth := by
  rintro ⟨other, hother, hover, -⟩
  rw [htop] at hother
  cases hother
  rw [hevaluated] at hover
  cases hover

theorem tick_of_step_ok (hrunning : machine.paused = false) (hstep : step machine = .ok () after) :
    tick machine = .ok after.hasWork after := by
  rw [tick_of_running hrunning, hstep]

theorem tick_of_step_error (hrunning : machine.paused = false)
    (hstep : step machine = .error cause after) : tick machine = .error cause after := by
  rw [tick_of_running hrunning, hstep]

theorem settles_of_over (htop : machine.frames.top? = some frame)
    (hevaluated : frame.evaluated = true) (hdepth : machine.depth ≤ depth) :
    machine.Settles depth report ↔ report =
      ⟨[], .over machine.depth (machine.view (frame.result.getD .nil)), machine.world.sight⟩ := by
  have hover : machine.Over depth := ⟨frame, htop, hevaluated, hdepth⟩
  constructor
  · intro hsettles
    cases hsettles with
    | ends hother _ _ =>
      rw [htop] at hother
      cases hother
      rfl
    | fails hopen _ _ => exact absurd hover hopen
    | steps hopen _ _ _ => exact absurd hover hopen
    | resumes hopen _ _ => exact absurd hover hopen
  · rintro rfl
    exact .ends htop hevaluated hdepth

/-- A tick before the end leaves the report as it is. -/
theorem settles_of_tick {more : Bool} (hopen : ¬machine.Over depth)
    (hrunning : machine.paused = false) (htick : tick machine = .ok more after) :
    machine.Settles depth report ↔ after.Settles depth report := by
  constructor
  · intro hsettles
    cases hsettles with
    | ends htop hevaluated hdepth => exact absurd ⟨_, htop, hevaluated, hdepth⟩ hopen
    | fails _ _ hother =>
      rw [htick] at hother
      cases hother
    | steps _ _ hother hrest =>
      rw [htick] at hother
      cases hother
      exact hrest
    | resumes _ hpaused _ =>
      rw [hrunning] at hpaused
      cases hpaused
  · exact .steps hopen hrunning htick

/-- A failure is all that is reported. -/
theorem settles_of_error (hopen : ¬machine.Over depth) (hrunning : machine.paused = false)
    (htick : tick machine = .error cause after) :
    machine.Settles depth report ↔ report = ⟨[], .failed cause, after.world.sight⟩ := by
  constructor
  · intro hsettles
    cases hsettles with
    | ends htop hevaluated hdepth => exact absurd ⟨_, htop, hevaluated, hdepth⟩ hopen
    | fails _ _ hother =>
      rw [htick] at hother
      cases hother
      rfl
    | steps _ _ hother hrest =>
      rw [htick] at hother
      cases hother
    | resumes _ hpaused _ =>
      rw [hrunning] at hpaused
      cases hpaused
  · rintro rfl
    exact .fails hopen hrunning htick

/-- A pause stands first in the report. -/
theorem settles_of_paused (hopen : ¬machine.Over depth) (hpaused : machine.paused = true) :
    machine.Settles depth report ↔
      ∃ rest, machine.lifted.Settles depth rest ∧ report = rest.behind machine := by
  constructor
  · intro hsettles
    cases hsettles with
    | ends htop hevaluated hdepth => exact absurd ⟨_, htop, hevaluated, hdepth⟩ hopen
    | fails _ hrunning _ =>
      rw [hpaused] at hrunning
      cases hrunning
    | steps _ hrunning _ _ =>
      rw [hpaused] at hrunning
      cases hrunning
    | resumes _ _ hrest => exact ⟨_, hrest, rfl⟩
  · rintro ⟨rest, hrest, rfl⟩
    exact .resumes hopen hpaused hrest

/-- The evaluation passes from the one machine to the other without a pause. -/
structure Passes (depth : Nat) (machine later : Machine) : Prop where
  settles : ∀ report, machine.Settles depth report ↔ later.Settles depth report
  turns : Relation.ReflTransGen (Turns depth) machine later

namespace Passes

variable {later : Machine}

theorem refl (depth : Nat) (machine : Machine) : Passes depth machine machine :=
  ⟨fun _ => .rfl, .refl⟩

theorem trans (hfirst : Passes depth machine after) (hsecond : Passes depth after later) :
    Passes depth machine later :=
  ⟨fun report => (hfirst.settles report).trans (hsecond.settles report),
    hfirst.turns.trans hsecond.turns⟩

theorem step (hopen : ¬machine.Over depth) (hrunning : machine.paused = false)
    (hstep : Machine.step machine = .ok () after) : Passes depth machine after :=
  have htick := tick_of_step_ok hrunning hstep
  ⟨fun _ => settles_of_tick hopen hrunning htick, .single (.steps hopen hrunning htick)⟩

end Passes

/-- The evaluation performs no output that finds no procedure to end. -/
def StaysInside (machine : Machine) (depth : Nat) : Prop :=
  ∀ met, Relation.ReflTransGen (Turns depth) machine met → ¬met.Escapes

theorem StaysInside.turns (hinside : machine.StaysInside depth)
    (hturns : Turns depth machine after) :
    after.StaysInside depth :=
  fun met hmet => hinside met (hmet.head hturns)

theorem StaysInside.passes (hinside : machine.StaysInside depth)
    (hpasses : Passes depth machine after) :
    after.StaysInside depth :=
  fun met hmet => hinside met (hpasses.turns.trans hmet)

/-! ## Reports can be computed -/

def isOver (machine : Machine) (depth : Nat) : Bool :=
  machine.frames.top?.any (·.evaluated) && decide (machine.depth ≤ depth)

omit [Segmentation] in
theorem isOver_iff : machine.isOver depth = true ↔ machine.Over depth := by
  simp only [isOver, Over, Bool.and_eq_true, Option.any_eq_true, decide_eq_true_eq]
  constructor
  · rintro ⟨⟨frame, htop, hevaluated⟩, hdepth⟩
    exact ⟨frame, htop, hevaluated, hdepth⟩
  · rintro ⟨frame, htop, hevaluated, hdepth⟩
    exact ⟨⟨frame, htop, hevaluated⟩, hdepth⟩

def report? (depth : Nat) : Nat → Machine → Option Report
  | 0, _ => none
  | fuel + 1, machine =>
    if machine.isOver depth then
      some ⟨[],
        .over machine.depth (machine.view ((machine.frames.top?.bind (·.result)).getD .nil)),
        machine.world.sight⟩
    else if machine.paused then (report? depth fuel machine.lifted).map (·.behind machine)
    else
      match tick machine with
      | .ok _ after => report? depth fuel after
      | .error cause after => some ⟨[], .failed cause, after.world.sight⟩

/-- The report that is computed is the one that there is. -/
theorem settles_iff_report? :
    machine.Settles depth report ↔ ∃ fuel, machine.report? depth fuel = some report := by
  constructor
  · intro hsettles
    induction hsettles with
    | ends htop hevaluated hdepth =>
      refine ⟨1, ?_⟩
      rw [report?, if_pos (isOver_iff.mpr ⟨_, htop, hevaluated, hdepth⟩), htop]
      rfl
    | fails hopen hrunning htick =>
      refine ⟨1, ?_⟩
      rw [report?, if_neg (mt isOver_iff.mp hopen), hrunning, if_neg Bool.false_ne_true, htick]
    | steps hopen hrunning htick _ ih =>
      obtain ⟨fuel, hreport⟩ := ih
      refine ⟨fuel + 1, ?_⟩
      rw [report?, if_neg (mt isOver_iff.mp hopen), hrunning, if_neg Bool.false_ne_true, htick]
      exact hreport
    | resumes hopen hpaused _ ih =>
      obtain ⟨fuel, hreport⟩ := ih
      refine ⟨fuel + 1, ?_⟩
      rw [report?, if_neg (mt isOver_iff.mp hopen), if_pos hpaused, hreport]
      rfl
  · rintro ⟨fuel, hreport⟩
    fun_induction report? depth fuel machine generalizing report with
    | case1 => cases hreport
    | case2 fuel machine hover =>
      obtain ⟨frame, htop, hevaluated, hdepth⟩ := isOver_iff.mp hover
      rw [htop] at hreport
      cases hreport
      exact .ends htop hevaluated hdepth
    | case3 fuel machine hopen hpaused ih =>
      obtain ⟨rest, hrest, rfl⟩ := Option.map_eq_some_iff.mp hreport
      exact .resumes (mt isOver_iff.mpr hopen) hpaused (ih hrest)
    | case4 fuel machine hopen hrunning more after htick ih =>
      exact .steps (mt isOver_iff.mpr hopen) (eq_false_of_ne_true hrunning) htick (ih hreport)
    | case5 fuel machine hopen hrunning cause after htick =>
      cases hreport
      exact .fails (mt isOver_iff.mpr hopen) (eq_false_of_ne_true hrunning) htick

/-- The report of the evaluation of a call that takes no more turns than there is fuel. -/
def evaluate? (machine : Machine) (call : Call) (fuel : Nat) : Option Report :=
  match schedule call machine with
  | .ok _ started => started.report? (machine.depth + 1) fuel
  | .error cause after => some ⟨[], .failed cause, after.world.sight⟩

/-- Reports that have been computed are right. -/
theorem evaluates_of_evaluate? (hreport : machine.evaluate? call fuel = some report) :
    machine.Evaluates call report := by
  rw [evaluate?] at hreport
  rw [Evaluates]
  cases hschedule : schedule call machine with
  | ok value started =>
    rw [hschedule] at hreport
    exact settles_iff_report?.mpr ⟨fuel, hreport⟩
  | error cause after =>
    rw [hschedule] at hreport
    cases hreport
    rfl

theorem exists_evaluates {test : Report → Bool}
    (htest : (machine.evaluate? call fuel).any test = true) :
    ∃ report, machine.Evaluates call report ∧ test report = true := by
  cases hreport : machine.evaluate? call fuel with
  | none =>
    rw [hreport] at htest
    cases htest
  | some report =>
    rw [hreport] at htest
    exact ⟨report, evaluates_of_evaluate? hreport, htest⟩

/-- The machine is about to perform an output or a stop that finds no procedure to end. -/
def escapes (machine : Machine) : Bool :=
  !machine.paused && machine.frames.top?.any (fun frame => !frame.evaluated &&
    !frame.needsArguments && frame.isOutput) &&
    machine.allFrames.all (!·.definition.isUserDefined)

omit [Segmentation] in
theorem escapes_of_escapes (hescapes : machine.Escapes) : machine.escapes = true := by
  obtain ⟨⟨frame, houtputs⟩, hnone⟩ := hescapes
  rw [escapes, houtputs.running, houtputs.top, Option.any_some, houtputs.unevaluated,
    houtputs.complete, houtputs.output]
  simpa using hnone

/-- The evaluation comes to an end within so many turns, and performs no output on its way that
finds no procedure to end. -/
def confined (depth : Nat) : Nat → Machine → Bool
  | 0, _ => false
  | fuel + 1, machine =>
    !machine.escapes &&
      (machine.isOver depth ||
        if machine.paused then confined depth fuel machine.lifted
        else
          match tick machine with
          | .ok _ after => confined depth fuel after
          | .error _ _ => true)

theorem staysInside_of_confined (hconfined : machine.confined depth fuel = true) :
    machine.StaysInside depth := by
  induction fuel generalizing machine with
  | zero => cases hconfined
  | succ fuel ih =>
    rw [confined, Bool.and_eq_true, Bool.not_eq_true', Bool.or_eq_true] at hconfined
    obtain ⟨hescapes, hgoes⟩ := hconfined
    intro met hmet
    obtain rfl | ⟨next, hturns, hrest⟩ := hmet.cases_head
    · intro hescape
      rw [escapes_of_escapes hescape] at hescapes
      cases hescapes
    · cases hturns with
      | steps hopen hrunning htick =>
        have hgoes := hgoes.resolve_left (mt isOver_iff.mp hopen)
        rw [hrunning, if_neg Bool.false_ne_true, htick] at hgoes
        exact ih hgoes met hrest
      | resumes hopen hpaused =>
        have hgoes := hgoes.resolve_left (mt isOver_iff.mp hopen)
        rw [if_pos hpaused] at hgoes
        exact ih hgoes met hrest

end Machine

end Logo
