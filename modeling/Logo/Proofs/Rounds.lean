import Logo.Proofs.Exchange
import Logo.Proofs.RunOrBranch
import Logo.Text.Cluster

/-!
# Blocks that are repeated

`repeat` reads its block again for every round and keeps the number of rounds that are still to
come. Each round does what `ifelse true` does with the same block: whatever is reported of `repeat`
is reported of so many calls of `ifelse`, one after the other. Rounds without a call are run in one
step of the loop, and in several steps of the calls.
-/

namespace Logo

/-! ## Blocks and rounds -/

namespace World

def firstStep (handle : ListHandle) : Action BlockStep := do
  stepBlock (← startBlock handle) none

def branchProgress : BlockStep → Action Progress
  | .calls site block => return .call site (.block block)
  | .ends value => return .done value

/-- What a loop asks for when the block of one round has come so far and others are to follow. -/
def roundProgress (handle : ListHandle) : Nat → BlockStep → Action Progress
  | remaining, .calls site block => return .call site (.repeating remaining block)
  | 0, .ends value => return .done value
  | remaining + 1, .ends _ => firstStep handle >>= roundProgress handle remaining

theorem roundProgress_calls (handle : ListHandle) (remaining : Nat) (site : Call) (block : Block) :
    roundProgress handle remaining (.calls site block) =
      return .call site (.repeating remaining block) := by
  cases remaining <;> rfl

theorem runBlock_first (handle : ListHandle) :
    runBlock handle none none = firstStep handle >>= branchProgress := by
  rw [firstStep, bind_assoc]
  rfl

theorem runRounds_eq (handle : ListHandle) (block : Block) (finished : Option Value)
    (remaining : Nat) :
    runRounds handle block finished remaining =
      stepBlock block finished >>= roundProgress handle remaining := by
  induction remaining generalizing block finished with
  | zero =>
    refine congrArg (stepBlock block finished >>= ·) (funext fun reached => ?_)
    cases reached <;> rfl
  | succ remaining ih =>
    refine congrArg (stepBlock block finished >>= ·) (funext fun reached => ?_)
    cases reached with
    | calls site block => rfl
    | ends value =>
      rw [roundProgress, firstStep, bind_assoc]
      exact congrArg (startBlock handle >>= ·) (funext fun block => ih block none)

theorem orderly_firstStep (handle : ListHandle) : Orderly (firstStep handle) :=
  (orderly_startBlock handle).bind fun block => orderly_stepBlock block none

variable {handle : ListHandle} {count : Value} {n : Int64}

/-- A loop that has kept the block of its round goes on with it. -/
theorem repeatBlock_kept (handle : ListHandle) (count : Value) (remaining : Nat) (block : Block)
    (finished : Option Value) :
    repeatBlock count (.list handle) (some (.repeating remaining block)) finished =
      stepBlock block finished >>= roundProgress handle remaining :=
  runRounds_eq handle block finished remaining

/-- The first round begins at once, if there is one. -/
theorem repeatBlock_first (hcount : count.number? = some (.integer n)) (world : World) :
    repeatBlock count (.list handle) none none world =
      match n.toInt.toNat with
      | 0 => .ok (.done .nil) world
      | remaining + 1 => (firstStep handle >>= roundProgress handle remaining) world := by
  have hexpects : expectInteger count world = .ok n world := by
    rw [expectInteger, hcount]
    rfl
  rw [repeatBlock, bind_of_ok (show expectList (.list handle) world = .ok handle world from rfl)]
  dsimp only
  rw [bind_of_ok hexpects]
  cases hrounds : n.toInt.toNat with
  | zero =>
    rw [if_pos (Int.toNat_eq_zero.mp hrounds)]
    rfl
  | succ remaining =>
    have hpositive : ¬n.toInt ≤ 0 := by omega
    rw [if_neg hpositive, Nat.add_sub_cancel]
    dsimp only
    rw [firstStep, bind_assoc]
    simp only [runRounds_eq]

end World

/-! ## Calls one after the other -/

/-- The depth at which a call is over, and the text of its value. -/
def Ending.shown? : Ending → Option (Nat × String)
  | .over depth value => some (depth, value.source)
  | .failed _ => none

namespace Machine

def called (machine : Machine) (call : Call) (definition : Procedure) (inputs : List Value) :
    Machine :=
  let started := machine.enter call definition
  started.withTop { Frame.new call definition with arguments := inputs } started.world

/-- Starts a call whose inputs have been evaluated, if one more fits. -/
def beginCall (call : Call) (definition : Procedure) (inputs : List Value) : Engine Unit :=
  fun machine =>
    if machine.maxDepth ≤ machine.depth then
      .error (.tooDeep definition.name machine.depth) machine
    else .ok () (machine.called call definition inputs)

def Applies [Segmentation] (machine : Machine) (call : Call) (definition : Procedure)
    (inputs : List Value) (report : Report) : Prop :=
  match beginCall call definition inputs machine with
  | .ok _ started => started.Settles (machine.depth + 1) report
  | .error cause after => report = ⟨[], .failed cause, after.world.sight⟩

/-- The machine without its innermost frame, whose value is not handed to anyone. -/
def dismissed (machine : Machine) : Machine :=
  match machine.frames.top? with
  | some frame => { machine with frames := machine.frames.pop }.release frame
  | none => machine

def withStore (machine : Machine) (store : Store) : Machine :=
  { machine with world := { machine.world with store } }

theorem ground_called (machine : Machine) (call : Call) (definition : Procedure)
    (inputs : List Value) :
    (machine.called call definition inputs).ground =
      machine.ground.push [{ Frame.new call definition with arguments := inputs }] :=
  ground_withTop (machine.ground_enter call definition) _ _

/-- Special forms open no scope. -/
theorem akin_called (machine : Machine) (call : Call) {definition : Procedure}
    (hspecial : definition.isSpecial = true) (inputs : List Value) :
    machine.Kin (machine.called call definition inputs) := by
  rw [called, enter_eq, hspecial]
  exact ⟨World.Unlogged.intro _ _, rfl, rfl⟩

theorem beginCall_of_fits {maxDepth : Nat} {machine : Machine}
    (hbooks : Books maxDepth machine []) (hfits : machine.depth < maxDepth)
    (call : Call) (definition : Procedure) (inputs : List Value) :
    beginCall call definition inputs machine = .ok () (machine.called call definition inputs) := by
  rw [beginCall, if_neg]
  rw [hbooks.maxDepth_eq]
  exact Nat.not_le.mpr hfits

section Dismissed

variable {machine : Machine} {ground : Ground} {frame : Frame}
  (hground : machine.ground = ground.push [frame])

include hground

theorem ground_dismissed : machine.dismissed.ground = ground := by
  obtain ⟨hframes, hprogram, hbounded⟩ := Ground.mk.inj hground
  rw [dismissed, top?_of_ground hground]
  dsimp only
  rw [release_eq, Machine.ground, Stack.toList_pop, hframes, hprogram, hbounded]
  rfl

theorem akin_dismissed (hspecial : frame.definition.isSpecial = true) :
    machine.Kin machine.dismissed := by
  rw [dismissed, top?_of_ground hground]
  dsimp only
  rw [release_eq, hspecial]
  exact ⟨World.Unlogged.intro _ _, rfl, rfl⟩

end Dismissed

variable [Segmentation]

/-- The report of the evaluation of a call at the given depth and of `count` more calls after it.
When one of the calls is over and another follows, its frame goes away and the next call begins in
the state that it has left. -/
inductive Series (call : Call) (definition : Procedure) (inputs : List Value) (depth : Nat) :
    Nat → Machine → Report → Prop where
  | ends {machine : Machine} {frame : Frame} {count : Nat}
      (htop : machine.frames.top? = some frame) (hevaluated : frame.evaluated = true)
      (hdepth : machine.depth ≤ depth) (hlast : count = 0 ∨ machine.depth < depth) :
      Series call definition inputs depth count machine
        ⟨[], .over machine.depth (machine.view (frame.result.getD .nil)), machine.world.sight⟩
  | next {machine started : Machine} {count : Nat} {report : Report} (hover : machine.Over depth)
      (hdepth : machine.depth = depth)
      (hbegins : beginCall call definition inputs machine.dismissed = .ok () started)
      (hrest : Series call definition inputs depth count started report) :
      Series call definition inputs depth (count + 1) machine report
  | refused {machine after : Machine} {count : Nat} {cause : RuntimeError}
      (hover : machine.Over depth) (hdepth : machine.depth = depth)
      (hbegins : beginCall call definition inputs machine.dismissed = .error cause after) :
      Series call definition inputs depth (count + 1) machine
        ⟨[], .failed cause, after.world.sight⟩
  | fails {machine after : Machine} {count : Nat} {cause : RuntimeError}
      (hopen : ¬machine.Over depth) (hrunning : machine.paused = false)
      (htick : tick machine = .error cause after) :
      Series call definition inputs depth count machine ⟨[], .failed cause, after.world.sight⟩
  | steps {machine after : Machine} {more : Bool} {count : Nat} {report : Report}
      (hopen : ¬machine.Over depth) (hrunning : machine.paused = false)
      (htick : tick machine = .ok more after)
      (hrest : Series call definition inputs depth count after report) :
      Series call definition inputs depth count machine report
  | resumes {machine : Machine} {count : Nat} {report : Report} (hopen : ¬machine.Over depth)
      (hpaused : machine.paused = true)
      (hrest : Series call definition inputs depth count machine.lifted report) :
      Series call definition inputs depth count machine (report.behind machine)

/-- The report of so many evaluations of a call, one after the other. The value is that of the last
one, and nil if there is none. -/
def AppliesTimes (machine : Machine) (call : Call) (definition : Procedure) (inputs : List Value)
    (count : Nat) (report : Report) : Prop :=
  match count with
  | 0 => report = ⟨[], .over (machine.depth + 1) (machine.view .nil), machine.world.sight⟩
  | count + 1 =>
    match beginCall call definition inputs machine with
    | .ok _ started => Series call definition inputs (machine.depth + 1) count started report
    | .error cause after => report = ⟨[], .failed cause, after.world.sight⟩

variable {machine : Machine} {depth count : Nat} {call : Call} {definition : Procedure}
  {inputs : List Value} {report : Report}

/-- The last call is over, or an output has ended a procedure around the calls. -/
theorem series_of_over {frame : Frame} (htop : machine.frames.top? = some frame)
    (hevaluated : frame.evaluated = true) (hdepth : machine.depth ≤ depth)
    (hlast : count = 0 ∨ machine.depth < depth) :
    Series call definition inputs depth count machine report ↔ report =
      ⟨[], .over machine.depth (machine.view (frame.result.getD .nil)), machine.world.sight⟩ := by
  have hover : machine.Over depth := ⟨frame, htop, hevaluated, hdepth⟩
  constructor
  · intro hseries
    cases hseries with
    | ends hother _ _ _ =>
      rw [htop] at hother
      cases hother
      rfl
    | next _ hsame _ _ => omega
    | refused _ hsame _ => omega
    | fails hopen _ _ => exact absurd hover hopen
    | steps hopen _ _ _ => exact absurd hover hopen
    | resumes hopen _ _ => exact absurd hover hopen
  · rintro rfl
    exact .ends htop hevaluated hdepth hlast

end Machine

namespace Books

variable {maxDepth : Nat} {machine : Machine}

variable (hbooks : Books maxDepth machine [])

include hbooks

theorem called (hfits : machine.depth < maxDepth) (call : Call) {definition : Procedure}
    (hname : definition.HasSmallName) (inputs : List Value) :
    Books maxDepth (machine.called call definition inputs) [] := by
  have hentered := hbooks.enter hname hfits call
  have htop : (machine.enter call definition).frames.top? = some (.new call definition) :=
    Machine.top?_of_ground (machine.ground_enter call definition)
  exact hentered.replaceTop htop rfl

theorem depth_of_push {ground : Ground} {frame : Frame}
    (hground : machine.ground = ground.push [frame]) : machine.depth = ground.height + 1 := by
  have hheight : machine.ground.height = machine.depth := hbooks.length_allFrames
  rw [← hheight, hground, Ground.height_push, Nat.add_comm]
  rfl

theorem withStore (store : Store) : Books maxDepth (machine.withStore store) [] :=
  hbooks.world rfl hbooks.names

theorem dismissed : Books maxDepth machine.dismissed [] := by
  rw [Machine.dismissed]
  cases htop : machine.frames.top? with
  | none => exact hbooks
  | some frame => exact (hbooks.pop htop).release

end Books

/-! ## A loop beside the calls that stand for its rounds -/

def repeatProcedure : Procedure :=
  specialProcedure "repeat" ["count", "block"] .repeatBlock

theorem find?_repeat : Procedures.standard.find? "repeat" = some repeatProcedure :=
  Procedures.find?_of_provides (by decide +kernel)

/-- A call of `repeat` and a call of `ifelse` with the same block, above the same ground. -/
structure Loop where
  base : Ground
  saved : ∀ segment ∈ base.bounded, segment.Waits
  handle : ListHandle
  site : Call
  count : Value
  site_inputs : site.inputs.length ≤ 2
  call : Call
  other : Value
  call_inputs : call.inputs.length ≤ 3

namespace Loop

variable (loop : Loop)

def inputs : List Value :=
  [.boolean true, .list loop.handle, loop.other]

def rounds : Frame :=
  { Frame.new loop.site repeatProcedure with
    arguments := [loop.count, .list loop.handle]
    bound := true }

def branch : Frame :=
  { Frame.new loop.call branchProcedure with
    arguments := loop.inputs
    bound := true }

theorem rounds_awaits (bound : Bool) (continuation : Option Continuation)
    (result : Option Value) :
    Frame.Awaits { loop.rounds with bound, continuation, result } .repeatBlock :=
  ⟨rfl, rfl, decide_eq_false (Nat.not_lt.mpr loop.site_inputs), Nat.le_refl 2⟩

theorem branch_awaits (bound : Bool) (continuation : Option Continuation)
    (result : Option Value) :
    Frame.Awaits { loop.branch with bound, continuation, result } .ifElse :=
  ⟨rfl, rfl, decide_eq_false (Nat.not_lt.mpr loop.call_inputs), Nat.le_refl 3⟩

def fork (remaining : Nat) (block : Block) : Fork where
  base := loop.base
  left := { loop.rounds with continuation := some (.repeating remaining block) }
  right := { loop.branch with continuation := some (.block block) }
  leftForm := .repeatBlock
  rightForm := .ifElse
  left_awaits := loop.rounds_awaits true _ none
  right_awaits := loop.branch_awaits true _ none
  saved := loop.saved

variable [Segmentation]
variable {loop} {remaining : Nat} {block : Action World.BlockStep} {world : World} {value : Value}
  {left right : Machine}

/-- In both machines the block of a round is about to go on. The loop may have rounds behind it that
it will have run in the same step; `world` is what it finds after them. -/
structure Within (loop : Loop) (remaining : Nat) (block : Action World.BlockStep) (world : World)
    (left right : Machine) : Prop where
  orderly : Orderly block
  groundLeft : ∃ frame, left.ground = loop.base.push [frame] ∧ frame.evaluated = false
  groundRight : ∃ frame, right.ground = loop.base.push [frame] ∧ frame.evaluated = false
  stepLeft : Machine.step left =
    left.proceed loop.rounds ((block >>= World.roundProgress loop.handle remaining) world)
  stepRight : Machine.step right =
    right.proceed loop.branch ((block >>= World.branchProgress) right.world)
  akin : Machine.Kin { left with world } right
  running : left.paused = false

/-- The call of `ifelse` is over, and the loop is about to end the same round. -/
structure Behind (loop : Loop) (remaining : Nat) (value : Value) (world : World)
    (left right : Machine) : Prop where
  groundLeft : ∃ frame, left.ground = loop.base.push [frame] ∧ frame.evaluated = false
  groundRight : right.ground = loop.base.push [loop.branch.finish value]
  stepLeft : Machine.step left =
    left.proceed loop.rounds (World.roundProgress loop.handle remaining (.ends value) world)
  akin : Machine.Kin { left with world } right
  running : left.paused = false

/-- How the machines stand while a round is run, after which `remaining` rounds are to come. -/
inductive Paired (loop : Loop) (remaining : Nat) (left right : Machine) : Prop where
  | above {block : Block} (habove : (loop.fork remaining block).Above left right)
  | within {block : Action World.BlockStep} {world : World}
      (hwithin : loop.Within remaining block world left right)
  | behind {value : Value} {world : World}
      (hbehind : loop.Behind remaining value world left right)

/-- A call of the block is over, and the block goes on. -/
theorem within_of_back {kept : Block} {copy : Value}
    (hback : (loop.fork remaining kept).junction.Back .unlogged () value copy left right) :
    loop.Within remaining (World.stepBlock kept (some value)) left.world left right := by
  obtain rfl : value = copy := hback.values
  have hleft : left.ground = loop.base.push
      [{ (loop.fork remaining kept).left with result := some value }] := by
    have hcomplete := (loop.fork remaining kept).left_awaits.complete
    refine hback.groundLeft.trans ?_
    change loop.base.push [Frame.receive _ _] = _
    rw [Frame.receive, hcomplete]
    rfl
  have hright : right.ground = loop.base.push
      [{ (loop.fork remaining kept).right with result := some value }] := by
    have hcomplete := (loop.fork remaining kept).right_awaits.complete
    refine hback.groundRight.trans ?_
    change loop.base.push [Frame.receive _ _] = _
    rw [Frame.receive, hcomplete]
    rfl
  have hstep := Machine.step_of_awaits (Machine.top?_of_ground hleft)
    (loop.rounds_awaits true (some (.repeating remaining kept)) (some value))
  exact {
    orderly := World.orderly_stepBlock kept (some value)
    groundLeft := ⟨_, hleft, rfl⟩
    groundRight := ⟨_, hright, rfl⟩
    stepLeft := hstep.trans (congrArg (left.proceed loop.rounds)
      (congrFun (World.repeatBlock_kept loop.handle loop.count remaining kept (some value)) _))
    stepRight := Machine.step_of_awaits (Machine.top?_of_ground hright)
      (loop.branch_awaits true (some (.block kept)) (some value))
    akin := hback.akin
    running := hback.running }

/-- The call of `ifelse` begins, and with it the block. -/
theorem stepRight_of_start (hright : right.ground = loop.base.push
      [{ loop.branch with bound := false }]) :
    Machine.step right = right.proceed loop.branch
      ((World.firstStep loop.handle >>= World.branchProgress) right.world) := by
  have hstep := Machine.step_of_awaits (Machine.top?_of_ground hright)
    (loop.branch_awaits false none none)
  exact hstep.trans (congrArg (right.proceed loop.branch)
    (congrFun (World.runBlock_first loop.handle) right.world))

namespace Within

/-- The block comes to a call in both machines, or fails in both, or it is over in the one and its
round in the other. -/
theorem step (hwithin : loop.Within remaining block world left right)
    (hdepth : left.depth = right.depth) :
    (∃ kept, (loop.fork remaining kept).Steps (Machine.step left) (Machine.step right)) ∨
      ∃ value after next, Machine.step right = .ok () next ∧
        loop.Behind remaining value after left next := by
  obtain ⟨frame, hgroundLeft, hopen⟩ := hwithin.groundLeft
  obtain ⟨next, hgroundRight, -⟩ := hwithin.groundRight
  have hends := hwithin.orderly.acts Environment.stable_true False () trivial _ _
    hwithin.akin.world
  have hstepLeft := hwithin.stepLeft
  have hstepRight := hwithin.stepRight
  obtain ⟨_, reached, _, after, final, hrun, hfinal, -, hworld, rfl⟩ |
    ⟨_, cause, after, final, hrun, hfinal, -, hworld, -⟩ := hends.cases
  · rw [bind_of_ok hrun] at hstepLeft
    rw [bind_of_ok hfinal] at hstepRight
    cases reached with
    | calls site kept =>
      rw [World.roundProgress_calls] at hstepLeft
      rw [hstepLeft, hstepRight]
      have hakin : (left.withTop (loop.fork remaining kept).left after).Kin
          (right.withTop (loop.fork remaining kept).right final) :=
        ⟨hworld, hwithin.akin.paused, hwithin.akin.maxDepth⟩
      refine .inl ⟨kept, Junction.schedule Likeness.hosts_unlogged ?_ hakin hdepth site⟩
      rw [Machine.ground_withTop hgroundLeft, Machine.ground_withTop hgroundRight]
      exact .junction
    | ends value =>
      exact .inr ⟨value, after, _, hstepRight, ⟨frame, hgroundLeft, hopen⟩,
        Machine.ground_withTop hgroundRight _ _, hstepLeft,
        ⟨hworld, hwithin.akin.paused, hwithin.akin.maxDepth⟩, hwithin.running⟩
  · rw [bind_of_error hrun] at hstepLeft
    rw [bind_of_error hfinal] at hstepRight
    rw [hstepLeft, hstepRight]
    exact .inl ⟨⟨[], .nil⟩, .error cause hworld⟩

end Within

namespace Behind

variable {maxDepth : Nat}

/-- If no round is left, the loop ends with the same value. -/
theorem last (hbehind : loop.Behind 0 value world left right) :
    Machine.step left = .ok () (left.withTop (loop.rounds.finish value) world) :=
  hbehind.stepLeft

/-- Otherwise the next call of `ifelse` begins where the loop goes on with the next round. -/
theorem next (hbehind : loop.Behind (remaining + 1) value world left right)
    (hleft : Books maxDepth left []) (hright : Books maxDepth right []) :
    ∃ started, Machine.beginCall loop.call branchProcedure loop.inputs right.dismissed =
        .ok () started ∧ Books maxDepth started [] ∧
      loop.Within remaining (World.firstStep loop.handle) world left started := by
  obtain ⟨frame, hgroundLeft, hopen⟩ := hbehind.groundLeft
  have hbooks := hright.dismissed
  have hground := Machine.ground_dismissed hbehind.groundRight
  have hakin := hbehind.akin.trans (Machine.akin_dismissed hbehind.groundRight rfl)
  have hfits : right.dismissed.depth < maxDepth := by
    have hdepthLeft := hleft.depth_of_push hgroundLeft
    have hdepthRight : right.dismissed.ground.height = right.dismissed.depth :=
      hbooks.length_allFrames
    have hbound := hleft.depth
    rw [hground] at hdepthRight
    omega
  have hstarted : (right.dismissed.called loop.call branchProcedure loop.inputs).ground =
      loop.base.push [{ loop.branch with bound := false }] := by
    rw [Machine.ground_called, hground]
    rfl
  exact ⟨right.dismissed.called loop.call branchProcedure loop.inputs,
    Machine.beginCall_of_fits hbooks hfits _ _ _,
    hbooks.called hfits loop.call (all_standard_hasSmallName _ _ find?_branch) loop.inputs,
    World.orderly_firstStep loop.handle, ⟨frame, hgroundLeft, hopen⟩, ⟨_, hstarted, rfl⟩,
    hbehind.stepLeft, stepRight_of_start hstarted,
    hakin.trans (right.dismissed.akin_called loop.call rfl loop.inputs), hbehind.running⟩

end Behind

/-! ## The same reports -/

/-- The report of a call of `ifelse` that is being evaluated and of those that follow. -/
def Series (loop : Loop) (remaining : Nat) (machine : Machine) (report : Report) : Prop :=
  machine.Series loop.call branchProcedure loop.inputs (loop.base.height + 1) remaining report

/-- The calls of `ifelse` come to where they make the same step as the loop, or to their end. -/
inductive CatchesUp (loop : Loop) (maxDepth : Nat) (left : Machine) (remaining : Nat)
    (right : Machine) : Prop where
  | abreast {count : Nat} {met : Machine} {kept : Block}
      (hreaches : ∀ report, loop.Series count met report → loop.Series remaining right report)
      (hbooks : Books maxDepth met []) (hrunning : met.paused = false)
      (hopen : ¬met.Over (loop.base.height + 1))
      (hsteps : (loop.fork count kept).Steps (Machine.step left) (Machine.step met))
  | last {met : Machine} {value : Value} {world : World}
      (hreaches : ∀ report, loop.Series 0 met report → loop.Series remaining right report)
      (hbooks : Books maxDepth met []) (hbehind : loop.Behind 0 value world left met)

section

variable {maxDepth count : Nat} {met : Machine} {report : Report}

theorem CatchesUp.trans
    (hfirst : ∀ report, loop.Series count met report → loop.Series remaining right report)
    (hcatches : loop.CatchesUp maxDepth left count met) :
    loop.CatchesUp maxDepth left remaining right := by
  cases hcatches with
  | abreast hreaches hbooks hrunning hopen hsteps =>
    exact .abreast (fun report hseries => hfirst report (hreaches report hseries)) hbooks
      hrunning hopen hsteps
  | last hreaches hbooks hbehind =>
    exact .last (fun report hseries => hfirst report (hreaches report hseries)) hbooks hbehind

section

variable (hwithin : loop.Within remaining block world left right)

include hwithin

theorem Within.not_over :
    ¬left.Over (loop.base.height + 1) ∧ ¬right.Over (loop.base.height + 1) := by
  obtain ⟨_, hgroundLeft, hopenLeft⟩ := hwithin.groundLeft
  obtain ⟨_, hgroundRight, hopenRight⟩ := hwithin.groundRight
  exact ⟨Machine.not_over_of_top? (Machine.top?_of_ground hgroundLeft) hopenLeft,
    Machine.not_over_of_top? (Machine.top?_of_ground hgroundRight) hopenRight⟩

theorem Within.depth_eq (hleft : Books maxDepth left []) (hright : Books maxDepth right []) :
    left.depth = right.depth := by
  obtain ⟨_, hgroundLeft, -⟩ := hwithin.groundLeft
  obtain ⟨_, hgroundRight, -⟩ := hwithin.groundRight
  rw [hleft.depth_of_push hgroundLeft, hright.depth_of_push hgroundRight]

/-- If the call of `ifelse` is over before the loop has made its step, it is to catch up then. -/
theorem Within.catchesUp (hleft : Books maxDepth left []) (hright : Books maxDepth right [])
    (hlater : ∀ {value : Value} {world : World} {next : Machine}, Books maxDepth next [] →
      loop.Behind remaining value world left next → loop.CatchesUp maxDepth left remaining next) :
    loop.CatchesUp maxDepth left remaining right := by
  have hopen := hwithin.not_over.2
  have hrunning : right.paused = false := hwithin.akin.paused.symm.trans hwithin.running
  obtain ⟨kept, hsteps⟩ | ⟨value, after, next, hstep, hbehind⟩ :=
    hwithin.step (hwithin.depth_eq hleft hright)
  · exact .abreast (fun _ hseries => hseries) hright hrunning hopen hsteps
  · refine .trans (fun report hseries => ?_) (hlater (hright.of_step hstep) hbehind)
    exact .steps hopen hrunning (Machine.tick_of_step_ok hrunning hstep) hseries

end

theorem Behind.depth_right (hbehind : loop.Behind remaining value world left right)
    (hright : Books maxDepth right []) : right.depth = loop.base.height + 1 :=
  hright.depth_of_push hbehind.groundRight

theorem Behind.over (hbehind : loop.Behind remaining value world left right)
    (hright : Books maxDepth right []) : right.Over (loop.base.height + 1) :=
  ⟨_, Machine.top?_of_ground hbehind.groundRight, rfl, (hbehind.depth_right hright).le⟩

/-- After the last round, the loop is over with the same value. -/
theorem Behind.reports (hbehind : loop.Behind 0 value world left right)
    (hleft : Books maxDepth left []) (hright : Books maxDepth right []) (report : Report) :
    (left.withTop (loop.rounds.finish value) world).Settles (loop.base.height + 1) report ↔
      loop.Series 0 right report := by
  obtain ⟨_, hgroundLeft, -⟩ := hbehind.groundLeft
  have hdepthLeft := hleft.depth_of_push hgroundLeft
  have hdepthRight := hbehind.depth_right hright
  have hground := Machine.ground_withTop hgroundLeft (loop.rounds.finish value) world
  have hsame : (left.withTop (loop.rounds.finish value) world).depth = right.depth :=
    hdepthLeft.trans hdepthRight.symm
  rw [Series, Machine.settles_of_over (Machine.top?_of_ground hground) rfl hdepthLeft.le,
    Machine.series_of_over (Machine.top?_of_ground hbehind.groundRight) rfl hdepthRight.le
      (.inl rfl)]
  exact Eq.congr_right (Machine.over_eq hsame hbehind.akin.world value)

/-- Rounds without a call are run in one step of the loop: the calls that stand for them are
evaluated one by one meanwhile. -/
theorem Behind.catchesUp (hbehind : loop.Behind remaining value world left right)
    (hleft : Books maxDepth left []) (hright : Books maxDepth right []) :
    loop.CatchesUp maxDepth left remaining right := by
  induction remaining generalizing value world right with
  | zero => exact .last (fun _ hseries => hseries) hright hbehind
  | succ remaining ih =>
    obtain ⟨started, hbegins, hstarted, hwithin⟩ := hbehind.next hleft hright
    refine .trans (fun report hseries => ?_) (hwithin.catchesUp hleft hstarted
      fun hnext hlater => ih hlater hnext)
    exact .next (hbehind.over hright) (hbehind.depth_right hright) hbegins hseries

end

namespace Paired

variable {maxDepth : Nat} {report : Report}

section

variable (hpaired : loop.Paired remaining left right)

include hpaired

theorem depth_eq (hleft : Books maxDepth left []) (hright : Books maxDepth right []) :
    left.depth = right.depth := by
  cases hpaired with
  | above habove =>
    rw [← hleft.length_allFrames, ← hright.length_allFrames]
    exact habove.height_eq
  | within hwithin => exact hwithin.depth_eq hleft hright
  | behind hbehind =>
    obtain ⟨_, hgroundLeft, -⟩ := hbehind.groundLeft
    rw [hbehind.depth_right hright, hleft.depth_of_push hgroundLeft]

theorem not_over (hleft : Books maxDepth left []) (hright : Books maxDepth right []) :
    ¬left.Over (loop.base.height + 1) := by
  cases hpaired with
  | above habove => exact (habove.not_over hleft.length_allFrames hright.length_allFrames).1
  | within hwithin => exact hwithin.not_over.1
  | behind hbehind =>
    obtain ⟨_, hground, hopen⟩ := hbehind.groundLeft
    exact Machine.not_over_of_top? (Machine.top?_of_ground hground) hopen

theorem paused_eq : left.paused = right.paused := by
  cases hpaired with
  | above habove => exact habove.paused_eq
  | within hwithin => exact hwithin.akin.paused
  | behind hbehind => exact hbehind.akin.paused

/-- Pauses fall in the calls of the block. -/
theorem above_of_paused (hpaused : left.paused = true) :
    ∃ kept, (loop.fork remaining kept).Above left right := by
  cases hpaired with
  | above habove => exact ⟨_, habove⟩
  | within hwithin =>
    rw [hwithin.running] at hpaused
    cases hpaused
  | behind hbehind =>
    rw [hbehind.running] at hpaused
    cases hpaused

theorem behind_of_over (hleft : Books maxDepth left []) (hright : Books maxDepth right [])
    (hover : right.Over (loop.base.height + 1)) :
    ∃ value world, loop.Behind remaining value world left right := by
  cases hpaired with
  | above habove =>
    exact absurd hover (habove.not_over hleft.length_allFrames hright.length_allFrames).2
  | within hwithin => exact absurd hover hwithin.not_over.2
  | behind hbehind => exact ⟨_, _, hbehind⟩

/-- Both machines make the same step, or a call of `ifelse` comes to its end. -/
theorem step (hleft : Books maxDepth left []) (hright : Books maxDepth right [])
    (hrunning : left.paused = false) (hopen : ¬right.Over (loop.base.height + 1)) :
    (∃ kept, (loop.fork remaining kept).Steps (Machine.step left) (Machine.step right)) ∨
      ∃ value after next, Machine.step right = .ok () next ∧
        loop.Behind remaining value after left next := by
  have hdepth := hpaired.depth_eq hleft hright
  cases hpaired with
  | above habove => exact .inl ⟨_, habove.step Likeness.hosts_unlogged hdepth hrunning
        (.inr (loop.fork _ _).even)⟩
  | within hwithin => exact hwithin.step hdepth
  | behind hbehind => exact absurd (hbehind.over hright) hopen

theorem catchesUp (hleft : Books maxDepth left []) (hright : Books maxDepth right [])
    (hrunning : left.paused = false) : loop.CatchesUp maxDepth left remaining right := by
  have hdepth := hpaired.depth_eq hleft hright
  cases hpaired with
  | above habove =>
    exact .abreast (fun _ hseries => hseries) hright (habove.paused_eq.symm.trans hrunning)
      (habove.not_over hleft.length_allFrames hright.length_allFrames).2
      (habove.step Likeness.hosts_unlogged hdepth hrunning (.inr (loop.fork _ _).even))
  | within hwithin =>
    exact hwithin.catchesUp hleft hright fun hnext hbehind => hbehind.catchesUp hleft hnext
  | behind hbehind => exact hbehind.catchesUp hleft hright

end

/-- The machines are still side by side, or an output has ended the same call around both. -/
theorem of_onward {kept : Block} (honward : (loop.fork remaining kept).Onward left right)
    (hleft : Books maxDepth left []) (hright : Books maxDepth right []) :
    loop.Paired remaining left right ∨
      ∀ report, left.Settles (loop.base.height + 1) report ↔
        loop.Series remaining right report := by
  cases honward with
  | above habove => exact .inl (.above habove)
  | back hback => exact .inl (.within (within_of_back hback))
  | closing hclosing =>
    right
    intro report
    obtain ⟨frame, other, htop, hother, hover, hotherOver, hvalue⟩ := hclosing.tops
    obtain ⟨hheight, hbelow⟩ := hclosing.height
    have hsame : left.depth = right.depth := by
      rw [← hleft.length_allFrames, ← hright.length_allFrames]
      exact hheight
    have hbelow : left.depth ≤ loop.base.height := hleft.length_allFrames ▸ hbelow
    rw [Series, Machine.settles_of_over htop hover (by omega),
      Machine.series_of_over hother hotherOver (by omega) (.inr (by omega)),
      Machine.over_eq hsame hclosing.world, show _ = _ from hvalue]

omit [Segmentation] in
/-- Pauses are seen at the same depth in worlds that look the same. -/
theorem behind_eq {fork : Fork} (habove : fork.Above left right) (hleft : Books maxDepth left [])
    (hright : Books maxDepth right []) (report : Report) :
    report.behind left = report.behind right := by
  have hdepth : left.depth = right.depth := by
    rw [← hleft.length_allFrames, ← hright.length_allFrames]
    exact habove.height_eq
  rw [Report.behind, Report.behind, hdepth, habove.sight_eq Likeness.hosts_unlogged]

/-- What is reported of the loop is reported of the calls that stand for its rounds. -/
theorem series_of_settles (hpaired : loop.Paired remaining left right)
    (hleft : Books maxDepth left []) (hright : Books maxDepth right [])
    (hsettles : left.Settles (loop.base.height + 1) report) :
    loop.Series remaining right report := by
  -- Before each step of the loop, the calls catch up.
  induction hsettles generalizing remaining right with
  | ends htop hevaluated hdepth =>
    exact absurd ⟨_, htop, hevaluated, hdepth⟩ (hpaired.not_over hleft hright)
  | resumes hopen hpaused _ ih =>
    obtain ⟨kept, habove⟩ := hpaired.above_of_paused hpaused
    have hrest := ih (.above (habove.lifted Likeness.hosts_unlogged)) hleft.lifted hright.lifted
    rw [behind_eq habove hleft hright]
    exact .resumes (habove.not_over hleft.length_allFrames hright.length_allFrames).2
      (habove.paused_eq.symm.trans hpaused) hrest
  | fails hopen hrunning htick =>
    cases hpaired.catchesUp hleft hright hrunning with
    | abreast hreaches hbooks hgoes hstays hsteps =>
      obtain ⟨_, _, hstep, -⟩ | ⟨_, _, _, hstep, hother, hsight⟩ :=
        hsteps.cases Likeness.hosts_unlogged
      · rw [Machine.tick_of_step_ok hrunning hstep] at htick
        cases htick
      · rw [Machine.tick_of_step_error hrunning hstep] at htick
        cases htick
        rw [hsight]
        exact hreaches _ (.fails hstays hgoes (Machine.tick_of_step_error hgoes hother))
    | last hreaches hbooks hbehind =>
      rw [Machine.tick_of_step_ok hrunning hbehind.last] at htick
      cases htick
  | steps hopen hrunning htick hrest ih =>
    cases hpaired.catchesUp hleft hright hrunning with
    | abreast hreaches hbooks hgoes hstays hsteps =>
      obtain ⟨_, _, hstep, hother, honward⟩ | ⟨_, _, _, hstep, -⟩ :=
        hsteps.cases Likeness.hosts_unlogged
      · rw [Machine.tick_of_step_ok hrunning hstep] at htick
        cases htick
        have hafter := hleft.of_step hstep
        have hnext := hbooks.of_step hother
        apply hreaches
        refine .steps hstays hgoes (Machine.tick_of_step_ok hgoes hother) ?_
        obtain hpaired | hreports := of_onward honward hafter hnext
        · exact ih hpaired hafter hnext
        · exact (hreports _).mp hrest
      · rw [Machine.tick_of_step_error hrunning hstep] at htick
        cases htick
    | last hreaches hbooks hbehind =>
      rw [Machine.tick_of_step_ok hrunning hbehind.last] at htick
      cases htick
      exact hreaches _ ((hbehind.reports hleft hbooks _).mp hrest)

/-- What is reported of the calls is reported of the loop. -/
theorem settles_of_series (hpaired : loop.Paired remaining left right)
    (hleft : Books maxDepth left []) (hright : Books maxDepth right [])
    (hseries : loop.Series remaining right report) :
    left.Settles (loop.base.height + 1) report := by
  -- The loop stands still while a call of `ifelse` ends and the next one begins.
  rw [Series] at hseries
  induction hseries generalizing left with
  | ends htop hevaluated hdepth hlast =>
    obtain ⟨value, world, hbehind⟩ :=
      hpaired.behind_of_over hleft hright ⟨_, htop, hevaluated, hdepth⟩
    have hat := hbehind.depth_right hright
    obtain rfl := hlast.resolve_right (by omega)
    refine .steps (hpaired.not_over hleft hright) hbehind.running
      (Machine.tick_of_step_ok hbehind.running hbehind.last) ?_
    exact (hbehind.reports hleft hright _).mpr (.ends htop hevaluated hdepth hlast)
  | next hover hdepth hbegins _ ih =>
    obtain ⟨value, world, hbehind⟩ := hpaired.behind_of_over hleft hright hover
    obtain ⟨started, hstarts, hbooks, hwithin⟩ := hbehind.next hleft hright
    rw [hbegins] at hstarts
    cases hstarts
    exact ih (.within hwithin) hleft hbooks
  | refused hover hdepth hbegins =>
    obtain ⟨value, world, hbehind⟩ := hpaired.behind_of_over hleft hright hover
    obtain ⟨started, hstarts, -⟩ := hbehind.next hleft hright
    rw [hbegins] at hstarts
    cases hstarts
  | fails hopen hrunning htick =>
    have hgoes := hpaired.paused_eq.trans hrunning
    obtain ⟨kept, hsteps⟩ | ⟨_, _, _, hother, -⟩ := hpaired.step hleft hright hgoes hopen
    · obtain ⟨_, _, -, hother, -⟩ | ⟨_, _, _, hstep, hother, hsight⟩ :=
          hsteps.cases Likeness.hosts_unlogged
      · rw [Machine.tick_of_step_ok hrunning hother] at htick
        cases htick
      · rw [Machine.tick_of_step_error hrunning hother] at htick
        cases htick
        rw [← hsight]
        exact .fails (hpaired.not_over hleft hright) hgoes
          (Machine.tick_of_step_error hgoes hstep)
    · rw [Machine.tick_of_step_ok hrunning hother] at htick
      cases htick
  | steps hopen hrunning htick hrest ih =>
    have hgoes := hpaired.paused_eq.trans hrunning
    obtain ⟨kept, hsteps⟩ | ⟨_, _, _, hother, hbehind⟩ := hpaired.step hleft hright hgoes hopen
    · obtain ⟨_, _, hstep, hother, honward⟩ | ⟨_, _, _, -, hother, -⟩ :=
          hsteps.cases Likeness.hosts_unlogged
      · rw [Machine.tick_of_step_ok hrunning hother] at htick
        cases htick
        have hafter := hleft.of_step hstep
        have hnext := hright.of_step hother
        refine .steps (hpaired.not_over hleft hright) hgoes
          (Machine.tick_of_step_ok hgoes hstep) ?_
        obtain hpaired | hreports := of_onward honward hafter hnext
        · exact ih hpaired hafter hnext
        · exact (hreports _).mpr hrest
      · rw [Machine.tick_of_step_error hrunning hother] at htick
        cases htick
    · rw [Machine.tick_of_step_ok hrunning hother] at htick
      cases htick
      exact ih (.behind hbehind) hleft (hright.of_step hother)
  | resumes hopen hpaused _ ih =>
    have hwaits := hpaired.paused_eq.trans hpaused
    obtain ⟨kept, habove⟩ := hpaired.above_of_paused hwaits
    have hrest := ih (.above (habove.lifted Likeness.hosts_unlogged)) hleft.lifted hright.lifted
    rw [← behind_eq habove hleft hright]
    exact .resumes (hpaired.not_over hleft hright) hwaits hrest

end Paired

end Loop

namespace Machine

section

variable [Segmentation] {machine : Machine} {maxDepth : Nat} {report : Report}

/-- At the bound, a call fails before it has begun. -/
theorem applies_iff_of_bound (hbooks : Books maxDepth machine [])
    (hbound : machine.depth = maxDepth)
    (call : Call) (definition : Procedure) (inputs : List Value) (report : Report) :
    machine.Applies call definition inputs report ↔
      report = ⟨[], .failed (.tooDeep definition.name maxDepth), machine.world.sight⟩ := by
  have hle : machine.maxDepth ≤ machine.depth := (hbooks.maxDepth_eq.trans hbound.symm).le
  rw [Applies, beginCall, if_pos hle, hbound]

/-- The call of a special form all of whose inputs are literals places them and goes on. -/
theorem evaluates_iff_applies {call : Call} {definition : Procedure}
    (hbooks : Books maxDepth machine []) (hfits : machine.depth < maxDepth)
    (hfind : machine.world.environment.procedures.find? call.name = some definition)
    (hspecial : definition.isSpecial = true) (hrunning : machine.paused = false)
    (hliterals : ∀ site, Datum.call site ∉ call.inputs) :
    machine.Evaluates call report ↔
      (machine.withStore (machine.world.store.placeAll call.inputs).2).Applies call definition
        (machine.world.store.placeAll call.inputs).1 report := by
  have hpasses : Passes (machine.depth + 1) (machine.enter call definition)
      ((machine.enter call definition).withInputs (.new call definition) call.inputs) := by
    apply passes_inputs (top?_of_ground (machine.ground_enter call definition)) _ rfl rfl hliterals
    rw [enter_eq]
    exact hrunning
  have hcalled : (machine.enter call definition).withInputs (.new call definition) call.inputs =
      (machine.withStore (machine.world.store.placeAll call.inputs).2).called call definition
        (machine.world.store.placeAll call.inputs).1 := by
    rw [called, enter_eq, enter_eq, hspecial]
    rfl
  have hschedule := schedule_of_fits hfind (hbooks.maxDepth_eq.symm ▸ hfits)
  rw [Evaluates, hschedule, Applies,
    beginCall_of_fits (hbooks.withStore (machine.world.store.placeAll call.inputs).2) hfits]
  dsimp only
  rw [hpasses.settles, hcalled]
  rfl

section Calls

variable (hbooks : Books maxDepth machine []) (hrunning : machine.paused = false)
  (hfits : machine.depth < maxDepth) {count : Value} {n : Int64}
  (hcount : count.number? = some (.integer n)) (site call : Call)
  (hsite : site.inputs.length ≤ 2) (hcall : call.inputs.length ≤ 3)

include hbooks hrunning hfits hcount hsite hcall

/-- Where one more call fits, `repeat` has the same reports as so many calls of `ifelse`. -/
theorem applies_repeat_iff (handle : ListHandle) (other : Value) (report : Report) :
    machine.Applies site repeatProcedure [count, .list handle] report ↔
      machine.AppliesTimes call branchProcedure [.boolean true, .list handle, other] n.toInt.toNat
        report := by
  let loop : Loop := ⟨machine.ground, hbooks.saved, handle, site, count, hsite, call, other, hcall⟩
  have hheight : loop.base.height = machine.depth := hbooks.length_allFrames
  have hleft := hbooks.called hfits site (all_standard_hasSmallName _ _ find?_repeat)
    [count, .list handle]
  have hright := hbooks.called hfits call (all_standard_hasSmallName _ _ find?_branch) loop.inputs
  have hgroundLeft : (machine.called site repeatProcedure [count, .list handle]).ground =
      loop.base.push [{ loop.rounds with bound := false }] := machine.ground_called _ _ _
  have hgroundRight : (machine.called call branchProcedure loop.inputs).ground =
      loop.base.push [{ loop.branch with bound := false }] := machine.ground_called _ _ _
  have hakinLeft := machine.akin_called site (show repeatProcedure.isSpecial = true from rfl)
    [count, .list handle]
  have hakin := hakinLeft.symm.trans (machine.akin_called call
    (show branchProcedure.isSpecial = true from rfl) loop.inputs)
  have hgoes := hakinLeft.paused.symm.trans hrunning
  have hstep := (step_of_awaits (top?_of_ground hgroundLeft)
    (loop.rounds_awaits false none none)).trans
      (congrArg _ (World.repeatBlock_first hcount _))
  rw [Applies, beginCall_of_fits hbooks hfits]
  dsimp only
  cases hrounds : n.toInt.toNat with
  | zero =>
    rw [hrounds] at hstep
    have hends : step (machine.called site repeatProcedure [count, .list handle]) =
        .ok () (withTop _ (loop.rounds.finish .nil) _) := hstep
    have hdepth : (machine.called site repeatProcedure [count, .list handle]).depth =
        machine.depth + 1 := (hleft.depth_of_push hgroundLeft).trans (congrArg (· + 1) hheight)
    have hopen : ¬Over _ (machine.depth + 1) :=
      not_over_of_top? (top?_of_ground hgroundLeft) rfl
    rw [(Passes.step hopen hgoes hends).settles, settles_of_over
      (top?_of_ground (ground_withTop hgroundLeft (loop.rounds.finish .nil) _)) rfl hdepth.le]
    exact Eq.congr_right (over_eq hdepth hakinLeft.symm.world .nil)
  | succ remaining =>
    rw [hrounds] at hstep
    have hpaired : loop.Paired remaining _ _ :=
      .within ⟨World.orderly_firstStep handle, ⟨_, hgroundLeft, rfl⟩, ⟨_, hgroundRight, rfl⟩,
        hstep, Loop.stepRight_of_start hgroundRight, hakin, hgoes⟩
    rw [AppliesTimes, beginCall_of_fits hbooks hfits]
    dsimp only
    rw [← hheight]
    exact ⟨hpaired.series_of_settles hleft hright, hpaired.settles_of_series hleft hright⟩

end Calls

/-- The call `repeat n [...]` places its list and then does what so many calls of `ifelse` do with
it. -/
theorem evaluates_repeat_iff (hbooks : Books maxDepth machine [])
    (hrunning : machine.paused = false) (hfits : machine.depth < maxDepth)
    (hfind : machine.world.environment.procedures.find? "repeat" =
      Procedures.standard.find? "repeat") (n : Int64) (items : List Datum) (text : Option String)
    (span : Option Span) (here : Span) (call : Call) (hcall : call.inputs.length ≤ 3)
    (other : Value) (report : Report) :
    machine.Evaluates ⟨"repeat", [.integer n, .list items text span], here⟩ report ↔
      (machine.withStore (machine.world.store.place (.list items text span)).2).AppliesTimes call
        branchProcedure
        [.boolean true, (machine.world.store.place (.list items text span)).1, other]
        n.toInt.toNat report := by
  let loop : Call := ⟨"repeat", [.integer n, .list items text span], here⟩
  let placed := machine.world.store.place (.list items text span)
  have hfound : machine.world.environment.procedures.find? loop.name = some repeatProcedure :=
    hfind.trans find?_repeat
  have hliterals : ∀ site, Datum.call site ∉ loop.inputs := by simp [loop, Datum.integer]
  have hcount : (Value.integer n).number? = some (.integer n) := rfl
  have hevaluates : machine.Evaluates loop report ↔
      (machine.withStore placed.2).Applies loop repeatProcedure [.integer n, placed.1] report :=
    evaluates_iff_applies hbooks hfits hfound rfl hrunning hliterals
  exact hevaluates.trans (applies_repeat_iff (hbooks.withStore placed.2) hrunning hfits hcount loop
    call (Nat.le_refl 2) hcall _ other report)

/-- On every machine that can be met, its pause being lifted, a call of `repeat` with an integer and
a block has the same reports as so many calls of `ifelse true` with the same block, one after the
other: the same value or the same error, after the same pauses, with the same variables, procedures
and output. This needs one more call to fit. At the bound on nested calls, each call fails with an
error that names it; so `repeat` fails even where no round is to be run. -/
theorem repeat_agrees_with_repeated_branch (maxDepth : Nat) (console : Console) (log : Log)
    (operations : List Operation) (count : Value) (n : Int64) (block : ListHandle) (other : Value)
    (first second condition chosen refused : Datum) (here there : Span) :
    let machine := ((Machine.new maxDepth console log).performAll operations).lifted
    let loop : Call := ⟨"repeat", [first, second], here⟩
    let branch : Call := ⟨"ifelse", [condition, chosen, refused], there⟩
    let inputs : List Value := [.boolean true, .list block, other]
    count.number? = some (.integer n) →
    (machine.depth < maxDepth →
      (∀ report, machine.Applies loop repeatProcedure [count, .list block] report ↔
        machine.AppliesTimes branch branchProcedure inputs n.toInt.toNat report) ∧
      (machine.world.environment.procedures.find? "repeat" = Procedures.standard.find? "repeat" →
        ∀ items text span report,
          let placed := machine.world.store.place (.list items text span)
          machine.Evaluates ⟨"repeat", [.integer n, .list items text span], here⟩ report ↔
            (machine.withStore placed.2).AppliesTimes branch branchProcedure
              [.boolean true, placed.1, other] n.toInt.toNat report)) ∧
    (machine.depth = maxDepth → ∀ report,
      (machine.Applies loop repeatProcedure [count, .list block] report ↔
        report = ⟨[], .failed (.tooDeep "repeat" maxDepth), machine.world.sight⟩) ∧
      (machine.Applies branch branchProcedure inputs report ↔
        report = ⟨[], .failed (.tooDeep "ifelse" maxDepth), machine.world.sight⟩)) := by
  intro machine loop branch inputs hcount
  have hbooks : Books maxDepth machine [] :=
    (Books.performAll maxDepth console log operations).lifted
  have hrunning : machine.paused = false := running_lifted _
  clear_value machine
  refine ⟨fun hfits => ⟨?_, ?_⟩, fun hbound report => ⟨?_, ?_⟩⟩
  · exact applies_repeat_iff hbooks hrunning hfits hcount loop branch (Nat.le_refl 2)
      (Nat.le_refl 3) block other
  · intro hfind items text span report
    exact evaluates_repeat_iff hbooks hrunning hfits hfind n items text span here branch
      (Nat.le_refl 3) other report
  · exact applies_iff_of_bound hbooks hbound loop repeatProcedure _ report
  · exact applies_iff_of_bound hbooks hbound branch branchProcedure _ report

end

open scoped Graphemes

/-- A loop of five rounds in a procedure that was paused pauses in each round and ends the procedure
in the second one. -/
theorem output_leaves_loop_in_second_round :
    let machine := ((Machine.new 10 (.new []) (.new none)).performAll
      [.read "to f :a :b\npause\nend\nf false [pause if :a [output 8] make \"a true]",
        .run 100 (.list ⟨0, none⟩)]).lifted
    let block : Datum := .call ⟨"thing", [.quote "b"], .nowhere⟩
    machine.depth = 2 ∧
      ∃ report,
        machine.Applies ⟨"repeat", [.integer 5, block], .nowhere⟩ repeatProcedure
          [.integer 5, .list ⟨2, none⟩] report ∧
        machine.AppliesTimes ⟨"ifelse", [.boolean true, block, .list [] none none], .nowhere⟩
          branchProcedure [.boolean true, .list ⟨2, none⟩, .nil] 5 report ∧
        report.pauses.map Prod.fst = [4, 4] ∧ report.ending.shown? = some (1, "8") := by
  intro machine block
  have hfacts : machine.depth = 2 ∧
      ((machine.called ⟨"repeat", [.integer 5, block], .nowhere⟩ repeatProcedure
        [.integer 5, .list ⟨2, none⟩]).report? 3 100).any (fun report =>
          report.pauses.map Prod.fst = [4, 4] ∧ report.ending.shown? = some (1, "8")) = true := by
    decide +kernel
  have hbooks : Books 10 machine [] := (Books.performAll 10 (.new []) (.new none) _).lifted
  have hagrees := repeat_agrees_with_repeated_branch 10 (.new []) (.new none)
    [.read "to f :a :b\npause\nend\nf false [pause if :a [output 8] make \"a true]",
      .run 100 (.list ⟨0, none⟩)] (.integer 5) 5 ⟨2, none⟩ .nil (.integer 5) block (.boolean true)
    block (.list [] none none) .nowhere .nowhere rfl
  obtain ⟨hdepth, hreport⟩ := hfacts
  have hfits : machine.depth < 10 := by
    rw [hdepth]
    decide
  have hrounds : ∀ report,
      machine.Applies ⟨"repeat", [.integer 5, block], .nowhere⟩ repeatProcedure
          [.integer 5, .list ⟨2, none⟩] report ↔
        machine.AppliesTimes ⟨"ifelse", [.boolean true, block, .list [] none none], .nowhere⟩
          branchProcedure [.boolean true, .list ⟨2, none⟩, .nil] 5 report := (hagrees.1 hfits).1
  clear hagrees
  clear_value machine
  obtain ⟨report, hsome, hseen⟩ := (Option.any_eq_true ..).mp hreport
  have happlies : machine.Applies ⟨"repeat", [.integer 5, block], .nowhere⟩ repeatProcedure
      [.integer 5, .list ⟨2, none⟩] report := by
    rw [Applies, beginCall_of_fits hbooks hfits, hdepth]
    exact settles_iff_report?.mpr ⟨100, hsome⟩
  exact ⟨hdepth, report, happlies, (hrounds report).mp happlies, of_decide_eq_true hseen⟩

/-- Where no call fits, `repeat` fails even if no round is to be run; and otherwise the errors name
different calls. -/
theorem repeat_differs_from_repeated_branch :
    let full := Machine.new 0 (.new []) (.new none)
    let loop : Call := ⟨"repeat", [.integer 0, .list [] (some "") none], .nowhere⟩
    let branch : Call := ⟨"ifelse", [.boolean true, .list [] (some "") none, .list [] none none],
      .nowhere⟩
    let inputs : List Value := [.boolean true, .list ⟨0, none⟩, .nil]
    (∃ report other, full.Evaluates loop report ∧
      full.AppliesTimes branch branchProcedure inputs 0 other ∧
      report.ending = .failed (.tooDeep "repeat" 0) ∧ other.ending = .over 1 .nil) ∧
    (∃ report other, full.Applies loop repeatProcedure [.integer 1, .list ⟨0, none⟩] report ∧
      full.AppliesTimes branch branchProcedure inputs 1 other ∧
      report.ending = .failed (.tooDeep "repeat" 0) ∧
      other.ending = .failed (.tooDeep "ifelse" 0)) := by
  intro full loop branch inputs
  have hbooks : Books 0 full [] := Books.performAll 0 (.new []) (.new none) []
  have hstandard : full.world.environment.procedures = Procedures.standard := rfl
  have hdepth : full.depth = 0 := rfl
  clear_value full
  have hfind : full.world.environment.procedures.find? loop.name = some repeatProcedure :=
    hstandard ▸ find?_repeat
  have hbound : full.maxDepth ≤ full.depth := (hbooks.maxDepth_eq.trans hdepth.symm).le
  constructor
  · refine ⟨_, _, (evaluates_iff_of_bound hbooks hfind hdepth _).mpr rfl, rfl, rfl, ?_⟩
    rw [hdepth, view, World.view, Store.view, Store.viewTo.eq_def]
    rfl
  · refine ⟨_, ⟨[], .failed (.tooDeep "ifelse" full.depth), full.world.sight⟩,
      (applies_iff_of_bound hbooks hdepth loop repeatProcedure _ _).mpr rfl, ?_, rfl, ?_⟩
    · rw [AppliesTimes, beginCall, if_pos hbound]
      rfl
    · rw [hdepth]

end Machine

end Logo
