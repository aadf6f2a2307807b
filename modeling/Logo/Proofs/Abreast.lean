import Logo.Proofs.Junctions
import Logo.Proofs.Reports

/-!
# Two machines side by side

Two machines in worlds that are alike have the same calls at work, above a place where different
things wait. As long as these calls have work to do, the two machines make the same steps. Then the
last of the calls hands its value to what waits on either side, or an output has ended a call that
both have in common.
-/

namespace Logo

/-- Calls may be started and ended in worlds that are alike, whatever is read may be run, and the
worlds cannot be told apart. -/
structure Likeness.Hosts (same : Likeness) : Prop where
  builds : same.Builds
  code : ∀ datum, same.code datum
  setLog : ∀ {stage left right} log other, same.worlds stage left right →
    same.worlds stage { left with log } { right with log := other }
  push : ∀ {stage left right} name, same.worlds stage left right →
    same.worlds stage { left with environment := left.environment.push (.new name) }
      { right with environment := right.environment.push (.new name) }
  pop : ∀ {stage left right}, same.worlds stage left right →
    same.worlds stage { left with environment := left.environment.pop }
      { right with environment := right.environment.pop }
  sight_eq : ∀ {stage left right}, same.worlds stage left right → left.sight = right.sight

/-- Calls that are given up on both sides close scopes together. -/
theorem Likeness.Hosts.forsake {same : Likeness} (hhosts : same.Hosts) {stage : same.Stage}
    {left right : World} {frames others : List Frame} (hworlds : same.worlds stage left right)
    (hframes : List.Forall₂ Frame.CloseAlike frames others) (log other : Log) :
    same.worlds stage { left with environment := left.environment.forsake frames, log }
      { right with environment := right.environment.forsake others, log := other } := by
  induction hframes generalizing left right with
  | nil => exact hhosts.setLog log other hworlds
  | @cons frame counterpart _ _ hsame _ ih =>
    simp only [Environment.forsake, List.foldl_cons] at ih ⊢
    rw [show frame.definition.isSpecial = _ from hsame]
    split
    · exact ih hworlds
    · exact ih (hhosts.pop hworlds)

structure Frame.Awaits (frame : Frame) (form : Special) : Prop where
  kind : frame.definition.kind = .special form
  unevaluated : frame.evaluated = false
  complete : frame.needsArguments = false
  enough : frame.definition.arity ≤ frame.arguments.length

namespace Frame.Awaits

variable {frame : Frame} {form : Special}

theorem isSpecial (hawaits : frame.Awaits form) : frame.definition.isSpecial = true := by
  rw [Procedure.isSpecial, hawaits.kind]

theorem isUserDefined (hawaits : frame.Awaits form) : frame.definition.isUserDefined = false := by
  rw [Procedure.isUserDefined, hawaits.kind]

end Frame.Awaits

/-! ## Machines and their grounds -/

namespace Machine

variable {machine : Machine} {front : List Frame} {ground : Ground} {frame : Frame}

theorem top?_of_ground (hground : machine.ground = ground.push (frame :: front)) :
    machine.frames.top? = some frame := by
  rw [Stack.top?, show machine.frames.toList = _ from congrArg Ground.frames hground]
  rfl

theorem ground_withTop (hground : machine.ground = ground.push (frame :: front)) (next : Frame)
    (world : World) : (machine.withTop next world).ground = ground.push (next :: front) := by
  obtain ⟨hframes, hprogram, hbounded⟩ := Ground.mk.inj hground
  simp only [Machine.ground, withTop, Stack.toList_replaceTop, hframes, hprogram, hbounded]
  rfl

theorem ground_enter (machine : Machine) (call : Call) (definition : Procedure) :
    (machine.enter call definition).ground = machine.ground.push [.new call definition] := by
  rw [enter_eq]
  rfl

theorem ground_beginBounded (machine : Machine) (program : List Value) :
    (machine.beginBounded program).ground = machine.ground.under program := by
  rw [beginBounded, note_apply]
  have hframes : machine.frames = .ofList machine.frames.toList := Stack.ext rfl
  simp only [Machine.ground, Ground.under, ← hframes]
  rfl

theorem exists_pause_eq (machine : Machine) : ∃ log, machine.pause =
    { machine with world := { machine.world with log }, paused := true } := by
  rw [pause]
  split
  · exact ⟨machine.world.log, rfl⟩
  · rw [note_apply]
    exact ⟨_, rfl⟩

/-- The end of a call closes its scope and hands its value on. -/
theorem exists_unschedule_eq (htop : machine.frames.top? = some frame) :
    ∃ log active, machine.unschedule.2 =
      { machine with
        world := { machine.world with
          environment := machine.world.environment.forsake [frame]
          log }
        frames := received machine.frames.pop (frame.result.getD .nil)
        lastResult := frame.result.getD .nil
        active } := by
  rw [unschedule_eq htop, note_apply, release_eq]
  exact ⟨_, _, rfl⟩

theorem ground_unschedule (hground : machine.ground = ground.push [frame]) :
    machine.unschedule.2.ground = ground.receive (frame.result.getD .nil) := by
  obtain ⟨log, active, hends⟩ := exists_unschedule_eq (top?_of_ground hground)
  obtain ⟨hframes, hprogram, hbounded⟩ := Ground.mk.inj hground
  have hpop : machine.frames.pop = .ofList ground.frames := by
    ext1
    rw [Stack.toList_pop, hframes]
    rfl
  rw [hends, hpop]
  refine (ground_received _ ground.frames _).trans ?_
  rw [hprogram, hbounded]

/-- The worlds are alike, and the machines differ in what waits in them, in their logs and counts
and in the results that came last. -/
structure Akin (same : Likeness) (stage : same.Stage) (left right : Machine) : Prop where
  world : same.worlds stage left.world right.world
  paused : left.paused = right.paused
  maxDepth : left.maxDepth = right.maxDepth

namespace Akin

variable {same : Likeness} {stage : same.Stage} {left right : Machine}

theorem withTop (hakin : left.Akin same stage right) (frame next : Frame) {later : same.Stage}
    {first second : World} (hworlds : same.worlds later first second) :
    (left.withTop frame first).Akin same later (right.withTop next second) :=
  ⟨hworlds, hakin.paused, hakin.maxDepth⟩

section

variable (hhosts : same.Hosts) (hakin : left.Akin same stage right)

include hhosts hakin

theorem enter (call : Call) (definition : Procedure) :
    (left.enter call definition).Akin same stage (right.enter call definition) := by
  rw [enter_eq, enter_eq]
  refine ⟨?_, hakin.paused, hakin.maxDepth⟩
  split
  · exact hhosts.setLog _ _ hakin.world
  · exact hhosts.setLog _ _ (hhosts.push definition.name hakin.world)

theorem unschedule {frame next : Frame} (hframe : same.frames stage frame next)
    (hleft : left.frames.top? = some frame) (hright : right.frames.top? = some next) :
    left.unschedule.2.Akin same stage right.unschedule.2 := by
  obtain ⟨_, _, hleftEnds⟩ := exists_unschedule_eq hleft
  obtain ⟨_, _, hrightEnds⟩ := exists_unschedule_eq hright
  rw [hleftEnds, hrightEnds]
  refine ⟨hhosts.forsake hakin.world (.cons ?_ .nil) _ _, hakin.paused, hakin.maxDepth⟩
  exact congrArg Procedure.isSpecial hframe.definition

theorem pause : left.pause.Akin same stage right.pause := by
  obtain ⟨_, hleft⟩ := left.exists_pause_eq
  obtain ⟨_, hright⟩ := right.exists_pause_eq
  rw [hleft, hright]
  exact ⟨hhosts.setLog _ _ hakin.world, rfl, hakin.maxDepth⟩

theorem lifted : left.lifted.Akin same stage right.lifted := by
  obtain ⟨_, hleft⟩ := left.exists_lifted_eq
  obtain ⟨_, hright⟩ := right.exists_lifted_eq
  rw [hleft, hright]
  exact ⟨hhosts.setLog _ _ hakin.world, rfl, hakin.maxDepth⟩

theorem beginBounded (program lines : List Value) :
    (left.beginBounded program).Akin same stage (right.beginBounded lines) := by
  rw [Machine.beginBounded, Machine.beginBounded, note_apply, note_apply]
  exact ⟨hhosts.setLog _ _ hakin.world, hakin.paused, hakin.maxDepth⟩

theorem unwound {value copy : Value} {passed dropped : List Frame} {target counterpart : Frame}
    {rest below : Ground} {later final : Machine} (hleft : left.Unwound value passed target rest later)
    (hright : right.Unwound copy dropped counterpart below final)
    (hcloses : List.Forall₂ Frame.CloseAlike passed dropped) : later.Akin same stage final := by
  obtain ⟨_, _, _, rfl⟩ := hleft
  obtain ⟨_, _, _, rfl⟩ := hright
  exact ⟨hhosts.forsake hakin.world hcloses _ _, hakin.paused, hakin.maxDepth⟩

end

end Akin

end Machine

/-! ## Machines above a junction -/

/-- The machines have come to the end of a call, which is no deeper than `bound`, with values that
are alike. -/
structure Closing (same : Likeness) (bound : Nat) (stage : same.Stage) (left right : Machine) :
    Prop where
  tops : ∃ frame other, left.frames.top? = some frame ∧ right.frames.top? = some other ∧
    frame.evaluated = true ∧ other.evaluated = true ∧
    same.values stage (frame.result.getD .nil) (other.result.getD .nil)
  height : left.ground.height = right.ground.height ∧ left.ground.height ≤ bound
  world : same.worlds stage left.world right.world

inductive StepsAlike (same : Likeness) (onward : Machine → Machine → Prop) :
    EStateM.Result RuntimeError Machine Unit → EStateM.Result RuntimeError Machine Unit →
      Prop where
  | ok {left right : Machine} (honward : onward left right) :
      StepsAlike same onward (.ok () left) (.ok () right)
  | error {stage : same.Stage} {left right : Machine} (cause : RuntimeError)
      (hworlds : same.worlds stage left.world right.world) :
      StepsAlike same onward (.error cause left) (.error cause right)

namespace StepsAlike

variable {same : Likeness} {onward other : Machine → Machine → Prop}
  {first second : EStateM.Result RuntimeError Machine Unit}

theorem imp (hsteps : StepsAlike same onward first second)
    (himp : ∀ left right, onward left right → other left right) :
    StepsAlike same other first second := by
  cases hsteps with
  | ok honward => exact .ok (himp _ _ honward)
  | error cause hworlds => exact .error cause hworlds

/-- Two steps that are alike fail for the same reason, with nothing to tell them apart, or lead
on. -/
theorem cases (hsteps : StepsAlike same onward first second) (hhosts : same.Hosts) :
    (∃ left right, first = .ok () left ∧ second = .ok () right ∧ onward left right) ∨
      ∃ cause left right, first = .error cause left ∧ second = .error cause right ∧
        left.world.sight = right.world.sight := by
  cases hsteps with
  | ok honward => exact .inl ⟨_, _, rfl, rfl, honward⟩
  | error cause hworlds => exact .inr ⟨cause, _, _, rfl, rfl, hhosts.sight_eq hworlds⟩

end StepsAlike

namespace Junction

structure Working (junction : Junction) (same : Likeness) (stage : same.Stage) (frame next : Frame)
    (ground other : Ground) (left right : Machine) : Prop where
  alike : same.frames stage frame next
  linked : ground.Linked same junction stage other
  groundLeft : left.ground = ground.push [frame]
  groundRight : right.ground = other.push [next]
  akin : left.Akin same stage right

structure Idle (junction : Junction) (same : Likeness) (stage : same.Stage) (frame next : Frame)
    (ground other : Ground) (lines copies : List Value) (left right : Machine) : Prop where
  alike : same.frames stage frame next
  linked : ground.Linked same junction stage other
  copied : List.Forall₂ (same.values stage) lines copies
  groundLeft : left.ground = (ground.push [frame]).under lines
  groundRight : right.ground = (other.push [next]).under copies
  akin : left.Akin same stage right
  last : same.values stage left.lastResult right.lastResult

inductive Above (junction : Junction) (same : Likeness) (left right : Machine) : Prop where
  | working {stage : same.Stage} {frame next : Frame} {ground other : Ground}
      (hworking : junction.Working same stage frame next ground other left right)
  | idle {stage : same.Stage} {frame next : Frame} {ground other : Ground}
      {lines copies : List Value}
      (hidle : junction.Idle same stage frame next ground other lines copies left right)

/-- The last call above the junction is over, and its value has been handed to what waits there. -/
structure Back (junction : Junction) (same : Likeness) (stage : same.Stage) (value copy : Value)
    (left right : Machine) : Prop where
  values : same.values stage value copy
  groundLeft : left.ground = junction.left.receive value
  groundRight : right.ground = junction.right.receive copy
  last : left.lastResult = value ∧ right.lastResult = copy
  akin : left.Akin same stage right
  running : left.paused = false

/-- How two machines stand that have had work to do above the junction. -/
inductive Onward (junction : Junction) (same : Likeness) (left right : Machine) : Prop where
  | above (habove : junction.Above same left right)
  | back {stage : same.Stage} {value copy : Value}
      (hback : junction.Back same stage value copy left right)
  /-- An output has ended a call below the junction. -/
  | closing {stage : same.Stage} (hclosing : Closing same junction.base.height stage left right)

variable {junction : Junction} {same : Likeness} {stage later : same.Stage} {frame next : Frame}
  {ground other : Ground} {left right : Machine} {lines copies : List Value}

theorem Working.onward (hworking : junction.Working same stage frame next ground other left right) :
    junction.Onward same left right :=
  .above (.working hworking)

theorem Idle.onward
    (hidle : junction.Idle same stage frame next ground other lines copies left right) :
    junction.Onward same left right :=
  .above (.idle hidle)

/-- A call is started above the junction. -/
theorem schedule (hhosts : same.Hosts) (hlinked : left.ground.Linked same junction stage right.ground)
    (hakin : left.Akin same stage right) (hdepth : left.depth = right.depth) (call : Call) :
    StepsAlike same (junction.Onward same) (Machine.schedule call left)
      (Machine.schedule call right) := by
  rw [Machine.schedule_apply, Machine.schedule_apply, same.procedures hakin.world, hakin.maxDepth,
    hdepth]
  cases right.world.environment.procedures.find? call.name with
  | none => exact .error _ hakin.world
  | some definition =>
    dsimp only
    split
    · exact .error _ hakin.world
    · have hframe : same.frames stage (.new call definition) (.new call definition) :=
        .new (fun input _ => hhosts.code input) fun line _ => hhosts.code line
      have hworking : junction.Working same stage _ _ _ _ _ _ := ⟨hframe, hlinked,
        left.ground_enter call definition, right.ground_enter call definition,
        hakin.enter hhosts call definition⟩
      exact .ok hworking.onward

namespace Working

theorem withTop (hworking : junction.Working same stage frame next ground other left right)
    (hgrows : same.grows stage later) {changed counterpart : Frame} {first second : World}
    (hframe : same.frames later changed counterpart) (hworlds : same.worlds later first second) :
    junction.Working same later changed counterpart ground other (left.withTop changed first)
      (right.withTop counterpart second) :=
  ⟨hframe, hworking.linked.mono hgrows, Machine.ground_withTop hworking.groundLeft _ _,
    Machine.ground_withTop hworking.groundRight _ _, hworking.akin.withTop _ _ hworlds⟩

variable (hhosts : same.Hosts)
  (hworking : junction.Working same stage frame next ground other left right)

include hhosts hworking

/-- A call that is over hands its value to what waits for it. -/
theorem unschedule (hrunning : left.paused = false) :
    junction.Onward same left.unschedule.2 right.unschedule.2 := by
  have htopLeft := Machine.top?_of_ground hworking.groundLeft
  have htopRight := Machine.top?_of_ground hworking.groundRight
  have hakin := hworking.akin.unschedule hhosts hworking.alike htopLeft htopRight
  have hvalue := rel_getD hworking.alike.result (same.atom .nil)
  have hleft := Machine.ground_unschedule hworking.groundLeft
  have hright := Machine.ground_unschedule hworking.groundRight
  obtain ⟨_, _, hendsLeft⟩ := Machine.exists_unschedule_eq htopLeft
  obtain ⟨_, _, hendsRight⟩ := Machine.exists_unschedule_eq htopRight
  have hlastLeft : left.unschedule.2.lastResult = frame.result.getD .nil := by rw [hendsLeft]
  have hlastRight : right.unschedule.2.lastResult = next.result.getD .nil := by rw [hendsRight]
  cases hworking.linked with
  | junction =>
    refine .back ⟨hvalue, hleft, hright, ⟨hlastLeft, hlastRight⟩, hakin, ?_⟩
    rw [hendsLeft]
    exact hrunning
  | push hparent hbelow =>
    exact .above (.working ⟨hparent.receive hvalue, hbelow, hleft, hright, hakin⟩)
  | under hparent hlines hbelow =>
    refine .above (.idle ⟨hparent, hbelow, hlines, hleft, hright, hakin, ?_⟩)
    rw [hlastLeft, hlastRight]
    exact hvalue

/-- Outputs end calls that are alike, or the same call. -/
theorem output {value copy : Value} (hvalue : same.values stage value copy)
    (hends : (∃ active ∈ (ground.push [frame]).allFrames,
      active.definition.isUserDefined = true) ∨ junction.Even) :
    junction.Onward same (left.output value) (right.output copy) := by
  obtain ⟨passed, dropped, target, rest, counterpart, below, hleft, hright, hcloses, hlands⟩ :=
    hworking.linked.endTogether hworking.alike hends
  rw [← hworking.groundLeft] at hleft
  rw [← hworking.groundRight] at hright
  have hunwound := Machine.output_of_ends hleft value
  have hcounterpart := Machine.output_of_ends hright copy
  have hakin := hworking.akin.unwound hhosts hunwound hcounterpart hcloses
  obtain ⟨_, _, _, hleftEnds⟩ := hunwound
  obtain ⟨_, _, _, hrightEnds⟩ := hcounterpart
  have hgroundLeft : (left.output value).ground = rest.push [target.finish value] := by
    rw [hleftEnds]
    rfl
  have hgroundRight : (right.output copy).ground = below.push [counterpart.finish copy] := by
    rw [hrightEnds]
    rfl
  cases hlands with
  | inside hframe hlinked =>
    exact .above (.working ⟨hframe.finish hvalue, hlinked, hgroundLeft, hgroundRight, hakin⟩)
  | outside hheight =>
    refine .closing ⟨⟨_, _, Machine.top?_of_ground hgroundLeft,
      Machine.top?_of_ground hgroundRight, rfl, rfl, hvalue⟩, ?_, hakin.world⟩
    rw [hgroundLeft, hgroundRight, Ground.height_push, Ground.height_push]
    exact ⟨rfl, by rw [List.length_singleton]; omega⟩

/-- Both machines do what the calls ask for. -/
theorem make (hdepth : left.depth = right.depth) {turn counterpart : Turn}
    (hturns : same.Turns stage turn counterpart)
    (hends : ∀ value, turn.move = .output value →
      (∃ active ∈ (ground.push [turn.frame]).allFrames,
        active.definition.isUserDefined = true) ∨ junction.Even) :
    StepsAlike same (junction.Onward same) (left.make turn) (right.make counterpart) := by
  obtain ⟨later, hgrows, hframe, hworlds, hmove⟩ := hturns
  have hnext := hworking.withTop hgrows hframe hworlds
  rw [Machine.make, Machine.make]
  generalize turn.move = move at hmove hends ⊢
  generalize counterpart.move = asked at hmove ⊢
  cases hmove with
  | stay => exact .ok hnext.onward
  | fail cause => exact .error cause hworlds
  | call _ =>
    apply schedule hhosts _ hnext.akin hdepth
    rw [hnext.groundLeft, hnext.groundRight]
    exact hnext.linked.push hframe
  | output hvalue => exact .ok (hnext.output hhosts hvalue (hends _ rfl))
  | pause =>
    have hground : ∀ machine : Machine, machine.pause.ground = machine.ground := by
      intro machine
      obtain ⟨_, hpause⟩ := machine.exists_pause_eq
      rw [hpause]
      rfl
    exact .ok (.above (.working ⟨hframe, hnext.linked, (hground _).trans hnext.groundLeft,
      (hground _).trans hnext.groundRight, hnext.akin.pause hhosts⟩))
  | @bounded program copies hprogram =>
    refine .ok (.above (.idle ⟨hframe, hnext.linked, hprogram,
      (Machine.ground_beginBounded _ _).trans (congrArg (·.under program) hnext.groundLeft),
      (Machine.ground_beginBounded _ _).trans (congrArg (·.under copies) hnext.groundRight),
      hnext.akin.beginBounded hhosts _ _, ?_⟩))
    rw [Machine.beginBounded, Machine.beginBounded, Machine.note_apply, Machine.note_apply]
    exact same.atom .nil

variable [Segmentation]

/-- Above the junction the machines make the same step. -/
theorem step (hdepth : left.depth = right.depth) (hrunning : left.paused = false)
    (hends : ¬left.Escapes ∨ junction.Even) :
    StepsAlike same (junction.Onward same) (Machine.step left) (Machine.step right) := by
  have htopLeft := Machine.top?_of_ground hworking.groundLeft
  have htopRight := Machine.top?_of_ground hworking.groundRight
  cases hevaluated : frame.evaluated with
  | true =>
    have hother := hworking.alike.evaluated.symm.trans hevaluated
    rw [Machine.step, Machine.step, htopLeft, htopRight]
    dsimp only
    rw [hevaluated, hother]
    exact .ok (hworking.unschedule hhosts hrunning)
  | false =>
    rw [Machine.step_of_open htopLeft hevaluated,
      Machine.step_of_open htopRight (hworking.alike.evaluated.symm.trans hevaluated)]
    refine hworking.make hhosts hdepth (same.turn hworking.alike hworking.akin.world
      fun form _ _ _ => same.runSpecial form (fun _ _ => hhosts.builds) hworking.alike.arguments
        hworking.alike.continuation hworking.alike.result stage (same.refl stage) _ _
        hworking.akin.world) fun value hmove => ?_
    refine hends.imp_left fun hstays => ?_
    obtain ⟨houtputs, hdefinition⟩ :=
      Machine.outputs_of_move hrunning htopLeft hevaluated hmove
    have huser : ∃ active ∈ left.allFrames, active.definition.isUserDefined = true := by
      by_contra hnone
      exact hstays ⟨⟨frame, houtputs⟩, by simpa using hnone⟩
    have hnext := @Machine.exists_userDefined_withTop _ _ _ htopLeft hdefinition left.world huser
    rw [← Machine.ground_withTop hworking.groundLeft _ left.world]
    exact hnext

end Working

/-! ## Bounded runs above the junction -/

namespace Idle

variable (hidle : junction.Idle same stage frame next ground other lines copies left right)

include hidle

theorem topLeft : left.frames.top? = none :=
  congrArg (fun ground : Ground => ground.frames.head?) hidle.groundLeft

theorem topRight : right.frames.top? = none :=
  congrArg (fun ground : Ground => ground.frames.head?) hidle.groundRight

/-- A line has been taken. -/
theorem withProgram (hhosts : same.Hosts) {program rest : List Value}
    (hprogram : List.Forall₂ (same.values stage) program rest) {value copy : Value}
    (hvalue : same.values stage value copy) (log otherLog : Log) :
    junction.Idle same stage frame next ground other program rest
      { left with world := { left.world with log }, program, lastResult := value }
      { right with
        world := { right.world with log := otherLog }
        program := rest
        lastResult := copy } where
  alike := hidle.alike
  linked := hidle.linked
  copied := hprogram
  groundLeft := by
    obtain ⟨hframes, -, hbounded⟩ := Ground.mk.inj hidle.groundLeft
    rw [Machine.ground, hframes, hbounded]
    rfl
  groundRight := by
    obtain ⟨hframes, -, hbounded⟩ := Ground.mk.inj hidle.groundRight
    rw [Machine.ground, hframes, hbounded]
    rfl
  akin := ⟨hhosts.setLog _ _ hidle.akin.world, hidle.akin.paused, hidle.akin.maxDepth⟩
  last := hvalue

variable [Segmentation]

/-- Both machines take the next line of a bounded run, or both end it. -/
theorem step (hhosts : same.Hosts) (hdepth : left.depth = right.depth) :
    StepsAlike same (junction.Onward same) (Machine.step left) (Machine.step right) := by
  have hprogramLeft : left.program = lines := congrArg Ground.program hidle.groundLeft
  have hprogramRight : right.program = copies := congrArg Ground.program hidle.groundRight
  have hboundedLeft := congrArg Ground.bounded hidle.groundLeft
  have hboundedRight := congrArg Ground.bounded hidle.groundRight
  have hakin := hidle.akin
  rw [Machine.step, Machine.step, hidle.topLeft, hidle.topRight]
  dsimp only
  rw [Machine.advanceProgram_apply, Machine.advanceProgram_apply, hprogramLeft, hprogramRight]
  cases hidle.copied with
  | nil =>
    rw [show left.bounded = _ from hboundedLeft, show right.bounded = _ from hboundedRight]
    dsimp only [Ground.under]
    rw [Machine.endBounded_eq, Machine.endBounded_eq, Machine.note_apply, Machine.note_apply]
    exact .ok (.above (.working ⟨hidle.alike.withResult hidle.last, hidle.linked, rfl, rfl,
      hhosts.setLog _ _ hakin.world, hakin.paused, hakin.maxDepth⟩))
  | @cons line copy program rest hline hlines =>
    have hliteral := fun (value copy : Value) (hvalue : same.values stage value copy) =>
      (hidle.withProgram hhosts hlines hvalue left.world.log right.world.log).onward
    have hshape := same.shape hline
    cases hshape with
    | call site =>
      have hnext := hidle.withProgram hhosts hlines hidle.last left.world.log right.world.log
      have hlinked := hnext.linked.under hnext.alike hnext.copied
      rw [← hnext.groundLeft, ← hnext.groundRight] at hlinked
      exact schedule hhosts hlinked hnext.akin hdepth site
    | list _ _ => exact .ok (hliteral _ _ hline)
    | procedure definition =>
      dsimp only
      rw [Machine.note_apply, Machine.note_apply]
      exact .ok (hidle.withProgram hhosts hlines (same.atom .none) _ _).onward
    | atom value =>
      cases value with
      | symbol name => exact .error _ hakin.world
      | number _ | boolean _ | quote _ | nil | none => exact .ok (hliteral _ _ hline)

end Idle

namespace Above

theorem step [Segmentation] (hhosts : same.Hosts) (habove : junction.Above same left right)
    (hdepth : left.depth = right.depth) (hrunning : left.paused = false)
    (hends : ¬left.Escapes ∨ junction.Even) :
    StepsAlike same (junction.Onward same) (Machine.step left) (Machine.step right) := by
  cases habove with
  | working hworking => exact hworking.step hhosts hdepth hrunning hends
  | idle hidle => exact hidle.step hhosts hdepth

theorem lifted (hhosts : same.Hosts) (habove : junction.Above same left right) :
    junction.Above same left.lifted right.lifted := by
  have hlifted : ∀ machine : Machine, machine.lifted.ground = machine.ground ∧
      machine.lifted.lastResult = machine.lastResult := by
    intro machine
    obtain ⟨_, hlifted⟩ := machine.exists_lifted_eq
    rw [hlifted]
    exact ⟨rfl, rfl⟩
  cases habove with
  | working hworking =>
    exact .working ⟨hworking.alike, hworking.linked, (hlifted left).1.trans hworking.groundLeft,
      (hlifted right).1.trans hworking.groundRight, hworking.akin.lifted hhosts⟩
  | idle hidle =>
    refine .idle ⟨hidle.alike, hidle.linked, hidle.copied, (hlifted left).1.trans hidle.groundLeft,
      (hlifted right).1.trans hidle.groundRight, hidle.akin.lifted hhosts, ?_⟩
    rw [(hlifted left).2, (hlifted right).2]
    exact hidle.last

variable (habove : junction.Above same left right)

include habove

theorem paused_eq : left.paused = right.paused := by
  cases habove with
  | working hworking => exact hworking.akin.paused
  | idle hidle => exact hidle.akin.paused

theorem sight_eq (hhosts : same.Hosts) : left.world.sight = right.world.sight := by
  cases habove with
  | working hworking => exact hhosts.sight_eq hworking.akin.world
  | idle hidle => exact hhosts.sight_eq hidle.akin.world

theorem height_eq : left.ground.height = right.ground.height := by
  cases habove with
  | working hworking =>
    rw [hworking.groundLeft, hworking.groundRight]
    exact (hworking.linked.push hworking.alike).height_eq
  | idle hidle =>
    rw [hidle.groundLeft, hidle.groundRight]
    exact (hidle.linked.under hidle.alike hidle.copied).height_eq

/-- Above the junction, no call is over that is as low as what waits there. -/
theorem not_over (hleft : left.ground.height = left.depth)
    (hright : right.ground.height = right.depth) :
    ¬left.Over (junction.base.height + 1) ∧ ¬right.Over (junction.base.height + 1) := by
  have hsame := habove.height_eq
  cases habove with
  | working hworking =>
    have hheight := hworking.linked.height_lt
    rw [hworking.groundLeft, Ground.height_push, List.length_singleton] at hleft hsame
    constructor
    · rintro ⟨_, -, -, hdepth⟩
      omega
    · rintro ⟨_, -, -, hdepth⟩
      omega
  | idle hidle =>
    constructor
    · rintro ⟨_, htop, -⟩
      rw [hidle.topLeft] at htop
      cases htop
    · rintro ⟨_, htop, -⟩
      rw [hidle.topRight] at htop
      cases htop

end Above

end Junction

end Logo
