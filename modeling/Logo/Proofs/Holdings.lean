import Logo.Proofs.AlikeTurns
import Logo.Proofs.Custody
import Logo.Proofs.Operations

/-!
# What a machine holds

Frames hold inputs, results and what special forms keep, bounded runs hold what they have put aside,
and the lines that are still to be run hold code. All of it comes from safe actions or from what the
machine held before, so on every machine that can be met it is of the right kinds, as long as
nothing else is brought in from outside.
-/

namespace Logo

/-- The built-in procedures have no lines of their own. -/
theorem body_of_primitive {definition : Procedure} (hmem : definition ∈ primitives) :
    definition.body = [] := by
  have hbodies : primitives.all (·.body.isEmpty) = true := by decide +kernel
  exact List.isEmpty_iff.mp (List.all_eq_true.mp hbodies definition hmem)

theorem all_standard_body : Procedures.standard.All (·.body = []) :=
  Procedures.All.foldl_define Procedures.all_empty fun _ => body_of_primitive

theorem Machine.store_abandon (machine : Machine) (frames : List Frame) (rest : Stack Frame) :
    (machine.abandon frames rest).world.store = machine.world.store := by
  let holds : Machine → Prop := fun later => later.world.store = machine.world.store
  have hkeeps : holds (machine.abandon frames rest) := by
    apply abandon_keeps
    · intro start frame hstart
      rw [release_eq, note_eq]
      exact hstart
    · rfl
  exact hkeeps

namespace Custody

variable {custody : Custody} {store later : Store}

variable {frames : Stack Frame} {value : Value} {machine : Machine}

abbrev HeldFrame (custody : Custody) (store : Store) (frame : Frame) : Prop :=
  frame.Alike (custody.comparison.values store) custody.code frame

structure HeldSegment (custody : Custody) (store : Store) (segment : Segment) : Prop where
  frames : ∀ frame ∈ segment.frames.toList, custody.HeldFrame store frame
  program : ∀ line ∈ segment.program, custody.held store line

/-- If the next step ends an iteration with a list of what has been gathered, then that is in
order. -/
def MayStep [Segmentation] (custody : Custody) (machine : Machine) : Prop :=
  ∀ frame mode, machine.Performs frame → frame.definition.kind = .special (.iterate mode) →
    mode ≠ .find → custody.MayBuild machine.world
      (World.runSpecial (.iterate mode) frame.arguments frame.continuation frame.result)

/-- The world is in order, and whatever the machine holds is of the right kinds. -/
structure Guards (custody : Custody) (machine : Machine) : Prop where
  world : custody.Covers machine.world
  current : custody.HeldSegment machine.world.store ⟨machine.frames, machine.program⟩
  bounded : ∀ segment ∈ machine.bounded, custody.HeldSegment machine.world.store segment
  lastResult : custody.held machine.world.store machine.lastResult

theorem HeldSegment.mono {segment : Segment} (hsegment : custody.HeldSegment store segment)
    (hgrows : custody.Grows store later) : custody.HeldSegment later segment where
  frames frame hframe := (hsegment.frames frame hframe).mono (custody.comparison.mono hgrows)
  program line hline := hgrows _ (hsegment.program line hline)

theorem forall_mem_replaceTop {property : Frame → Prop} {frame : Frame}
    (hframes : ∀ other ∈ frames.toList, property other) (hframe : property frame) :
    ∀ other ∈ (frames.replaceTop frame).toList, property other := by
  rw [Stack.toList_replaceTop]
  cases helements : frames.toList with
  | nil => exact List.forall_mem_nil _
  | cons first rest =>
    rw [helements] at hframes
    exact List.forall_mem_cons.mpr ⟨hframe, (List.forall_mem_cons.mp hframes).2⟩

theorem held_received (hframes : ∀ frame ∈ frames.toList, custody.HeldFrame store frame)
    (hvalue : custody.held store value) :
    ∀ frame ∈ (Machine.received frames value).toList, custody.HeldFrame store frame := by
  rw [Machine.received]
  split
  · rename_i parent htop
    exact forall_mem_replaceTop hframes
      ((hframes parent (List.mem_of_head? htop)).receive ⟨rfl, hvalue⟩)
  · exact hframes

theorem held_answered {saved : Segment}
    (hframes : ∀ frame ∈ saved.frames.toList, custody.HeldFrame store frame)
    (hvalue : custody.held store value) :
    ∀ frame ∈ (Machine.answered saved value).toList, custody.HeldFrame store frame := by
  rw [Machine.answered]
  split
  · rename_i parent htop
    have hparent := hframes parent (List.mem_of_head? htop)
    exact forall_mem_replaceTop hframes (hparent.withResult ⟨rfl, hvalue⟩)
  · exact hframes

namespace Guards

variable {machine : Machine} {frame : Frame} {value : Value}

/-! ## Parts of a machine -/

section

variable (hmachine : custody.Guards machine)

variable {world : World} {call : Call}

include hmachine

theorem world_set (hworld : custody.Covers world)
    (hgrows : custody.Grows machine.world.store world.store) :
    custody.Guards { machine with world } where
  world := hworld
  current := hmachine.current.mono hgrows
  bounded segment hsegment := (hmachine.bounded segment hsegment).mono hgrows
  lastResult := hgrows _ hmachine.lastResult

theorem note (level : LogLevel) (message : Machine → String) :
    custody.Guards (machine.note level message) := by
  rw [Machine.note_eq]
  exact hmachine.world_set ⟨hmachine.world.store, hmachine.world.bindings,
    hmachine.world.procedures⟩ (Grows.refl _)

theorem frames_set {frames : Stack Frame}
    (hframes : ∀ frame ∈ frames.toList, custody.HeldFrame machine.world.store frame) :
    custody.Guards { machine with frames } where
  world := hmachine.world
  current := ⟨hframes, hmachine.current.program⟩
  bounded := hmachine.bounded
  lastResult := hmachine.lastResult

theorem set {program : List Value}
    (hprogram : ∀ line ∈ program, custody.held machine.world.store line)
    (hvalue : custody.held machine.world.store value) (paused : Bool) :
    custody.Guards { machine with program, lastResult := value, paused } where
  world := hmachine.world
  current := ⟨hmachine.current.frames, hprogram⟩
  bounded := hmachine.bounded
  lastResult := hvalue

theorem withTop (hworld : custody.Covers world)
    (hgrows : custody.Grows machine.world.store world.store)
    (hframe : custody.HeldFrame world.store frame) :
    custody.Guards (machine.withTop frame world) := by
  apply (hmachine.world_set hworld hgrows).frames_set
  apply forall_mem_replaceTop _ hframe
  exact fun other hother =>
    (hmachine.current.frames other hother).mono (custody.comparison.mono hgrows)

theorem pause : custody.Guards machine.pause := by
  rw [Machine.pause]
  split
  · exact hmachine.set hmachine.current.program hmachine.lastResult true
  · have hnoted := hmachine.note .debug fun machine => "pause at depth " ++ toString machine.depth
    exact hnoted.set hnoted.current.program hnoted.lastResult true

theorem top (htop : machine.frames.top? = some frame) :
    custody.HeldFrame machine.world.store frame :=
  hmachine.current.frames frame (List.mem_of_head? htop)

/-! ## Calls begin and end -/

theorem enter {definition : Procedure} (hinputs : ∀ input ∈ call.inputs, custody.code input)
    (hbody : custody.FineBody definition) : custody.Guards (machine.enter call definition) := by
  have hframe : custody.HeldFrame machine.world.store (.new call definition) :=
    .new hinputs hbody
  have hvariables : (if definition.isSpecial then machine.world.environment
      else machine.world.environment.push (.new definition.name)).All
        (custody.held machine.world.store) := by
    split
    · exact hmachine.world.bindings
    · exact hmachine.world.bindings.push definition.name
  have hprocedures : (if definition.isSpecial then machine.world.environment
      else machine.world.environment.push (.new definition.name)).procedures.All
        custody.FineBody := by
    split <;> exact hmachine.world.procedures
  rw [machine.enter_eq]
  exact {
    world := ⟨hmachine.world.store, hvariables, hprocedures⟩
    current := ⟨List.forall_mem_cons.mpr ⟨hframe, hmachine.current.frames⟩,
      hmachine.current.program⟩
    bounded := hmachine.bounded
    lastResult := hmachine.lastResult }

theorem schedule (hinputs : ∀ input ∈ call.inputs, custody.code input) :
    custody.Guards (Machine.schedule call machine).state := by
  rw [Machine.schedule_apply]
  cases hfind : machine.world.environment.procedures.find? call.name with
  | none => exact hmachine
  | some definition =>
    dsimp only
    split
    · exact hmachine
    · exact hmachine.enter hinputs (hmachine.world.procedures call.name definition hfind)

theorem release (frame : Frame) : custody.Guards (machine.release frame) := by
  have hworld : custody.Covers { machine.world with
      environment := if frame.definition.isSpecial then machine.world.environment
        else machine.world.environment.pop } := by
    split
    · exact hmachine.world
    · exact ⟨hmachine.world.store, hmachine.world.bindings.pop, hmachine.world.procedures⟩
  rw [Machine.release_eq]
  exact ⟨hworld, hmachine.current, hmachine.bounded, hmachine.lastResult⟩

theorem abandon (frames : List Frame) {rest : Stack Frame}
    (hrest : ∀ frame ∈ rest.toList, custody.HeldFrame machine.world.store frame) :
    custody.Guards (machine.abandon frames rest) := by
  have hstart := hmachine.frames_set hrest
  rw [Machine.abandon]
  generalize { machine with frames := rest } = start at hstart
  induction frames generalizing start with
  | nil => exact hstart
  | cons frame frames ih =>
    rw [List.foldl_cons]
    exact ih _ ((hstart.note _ _).release frame)

end

variable (hlaws : custody.Lawful)

include hlaws

section

variable (hmachine : custody.Guards machine)

variable {saved : Segment} {outer : List Segment} {program : Value}

include hmachine

theorem unschedule (htop : machine.frames.top? = some frame) :
    custody.Guards machine.unschedule.2 := by
  have hresult : custody.held machine.world.store (frame.result.getD .nil) :=
    (rel_getD (hmachine.top htop).result ⟨rfl, hlaws.heldAtom _ .nil⟩).2
  have hbelow : ∀ other ∈ machine.frames.pop.toList,
      custody.HeldFrame machine.world.store other :=
    fun other hother => hmachine.current.frames other (List.mem_of_mem_tail hother)
  have hreleased := (hmachine.frames_set hbelow).release frame
  rw [Machine.release_eq] at hreleased
  rw [Machine.unschedule_eq htop, Machine.note_eq, Machine.release_eq]
  exact {
    world := ⟨hreleased.world.store, hreleased.world.bindings, hreleased.world.procedures⟩
    current := ⟨held_received hbelow hresult, hmachine.current.program⟩
    bounded := hmachine.bounded
    lastResult := hresult }

/-! ## Bounded runs -/

omit hlaws in
theorem restore (hbounded : machine.bounded = saved :: outer) :
    custody.Guards (machine.restore saved outer) := by
  have hsegments := hmachine.bounded
  rw [hbounded] at hsegments
  obtain ⟨hsaved, houter⟩ := List.forall_mem_cons.mp hsegments
  exact ⟨hmachine.world, hsaved, houter, hmachine.lastResult⟩

theorem beginBounded {program : List Value}
    (hprogram : ∀ line ∈ program, custody.held machine.world.store line) :
    custody.Guards (machine.beginBounded program) := by
  rw [Machine.beginBounded, Machine.note_eq]
  exact {
    world := ⟨hmachine.world.store, hmachine.world.bindings, hmachine.world.procedures⟩
    current := ⟨List.forall_mem_nil _, hprogram⟩
    bounded := List.forall_mem_cons.mpr ⟨hmachine.current, hmachine.bounded⟩
    lastResult := hlaws.heldAtom _ _ }

omit hlaws in
theorem endBounded (hbounded : machine.bounded = saved :: outer) :
    custody.Guards (machine.endBounded saved outer) := by
  have hsegments := hmachine.bounded
  rw [hbounded] at hsegments
  obtain ⟨hsaved, houter⟩ := List.forall_mem_cons.mp hsegments
  rw [Machine.endBounded_eq, Machine.note_eq]
  exact {
    world := ⟨hmachine.world.store, hmachine.world.bindings, hmachine.world.procedures⟩
    current := ⟨held_answered hsaved.frames hmachine.lastResult, hsaved.program⟩
    bounded := houter
    lastResult := hmachine.lastResult }

omit hlaws in
/-- An output keeps everything in custody. -/
theorem outputThrough {segments : List Segment} (hbounded : machine.bounded = segments)
    (hvalue : custody.held machine.world.store value) :
    custody.Guards (machine.outputThrough value segments) := by
  refine Machine.outputThrough_keeps
    (fun machine => custody.Guards machine ∧ custody.held machine.world.store value) custody.Guards
    ?_ ?_ ?_ And.left hbounded ⟨hmachine, hvalue⟩
  · rintro machine level message ⟨hmachine, hvalue⟩
    refine ⟨hmachine.note level message, ?_⟩
    rw [Machine.note_eq]
    exact hvalue
  · rintro machine saved outer hbounded ⟨hmachine, hvalue⟩
    have hleft : custody.Guards (machine.abandon machine.frames.toList .empty) :=
      hmachine.abandon machine.frames.toList (List.forall_mem_nil _)
    have hstore : (machine.abandon machine.frames.toList .empty).world.store =
        machine.world.store := machine.store_abandon machine.frames.toList .empty
    rw [← hstore] at hvalue
    obtain ⟨world, active, habandon⟩ := machine.exists_abandon_eq machine.frames.toList .empty
    rw [habandon] at hleft hvalue ⊢
    exact ⟨hleft.restore hbounded, hvalue⟩
  · rintro machine above target rest hsplit ⟨hmachine, hvalue⟩
    apply hmachine.abandon
    apply forall_mem_replaceTop
    · exact fun other hother => hmachine.current.frames other (List.mem_of_mem_drop hother)
    · apply Frame.Alike.finish _ ⟨rfl, hvalue⟩
      apply hmachine.current.frames
      rw [hsplit]
      exact List.mem_append_right _ List.mem_cons_self

/-! ## Steps -/

theorem advanceProgram : custody.Guards (Machine.advanceProgram machine).state := by
  rw [Machine.advanceProgram_apply]
  cases hlines : machine.program with
  | nil =>
    dsimp only
    split
    · rename_i saved outer hbounded
      exact hmachine.endBounded hbounded
    · exact hmachine
  | cons line program =>
    have hprogram := hmachine.current.program
    dsimp only at hprogram
    rw [hlines] at hprogram
    obtain ⟨hline, hrest⟩ := List.forall_mem_cons.mp hprogram
    have hnext : custody.Guards { machine with program } :=
      hmachine.set hrest hmachine.lastResult machine.paused
    cases line with
    | call site => exact hnext.schedule (hlaws.call.mp (hlaws.heldCall.mp hline))
    | procedure definition =>
      have hnoted := hnext.note .debug fun _ => "defined " ++ definition.header
      exact hnoted.set hnoted.current.program (hlaws.heldAtom _ _) _
    | list handle => exact hnext.set hrest hline machine.paused
    | atom value =>
      cases value with
      | symbol name => exact hnext
      | number _ | boolean _ | quote _ | nil | none =>
        exact hnext.set hrest hline machine.paused

theorem placed {literal : Datum} (hliteral : custody.fine literal) :
    custody.Covers (machine.world.placed literal) ∧
      custody.Grows machine.world.store (machine.world.placed literal).store ∧
      custody.held (machine.world.placed literal).store
        (machine.world.store.place literal).1 := by
  obtain ⟨hsound, hgrows, hheld⟩ := hlaws.place hmachine.world.store hliteral
  exact ⟨⟨hsound, hmachine.world.bindings.mono hgrows, hmachine.world.procedures⟩, hgrows, hheld⟩

/-- The machine does what a call asks for. -/
theorem make {turn : Turn} (hturns : (likeness hlaws).Turns machine.world.store turn turn) :
    custody.Guards (machine.make turn).state := by
  obtain ⟨_, hgrows, hframe, ⟨-, hworld, rfl⟩, hmove⟩ := hturns
  have hnext := hmachine.withTop hworld hgrows hframe
  rw [Machine.make]
  generalize turn.move = move at hmove ⊢
  cases hmove with
  | stay | fail _ => exact hnext
  | call hsite => exact hnext.schedule (hlaws.call.mp hsite)
  | output hvalue => exact hnext.outputThrough rfl hvalue.2
  | pause => exact hnext.pause
  | bounded hprogram => exact hnext.beginBounded hlaws (held_of_forall₂ hprogram).2

/-- A step keeps everything in custody. -/
theorem step [Segmentation] (hrunning : machine.paused = false) (hbuild : custody.MayStep machine) :
    custody.Guards (Machine.step machine).state := by
  obtain ⟨-, hstep⟩ | ⟨frame, htop, ⟨-, hstep⟩ | ⟨hopen, hstep⟩⟩ := Machine.step_cases machine
  · rw [hstep]
    exact hmachine.advanceProgram hlaws
  · rw [hstep]
    exact hmachine.unschedule hlaws htop
  · rw [hstep]
    have hframe := hmachine.top htop
    refine hmachine.make hlaws ((likeness hlaws).turn hframe ⟨rfl, hmachine.world, rfl⟩ ?_)
    intro form hkind hcomplete henough
    refine ends_runSpecial hlaws hmachine.world hframe.arguments hframe.continuation hframe.result
      form ?_
    rintro mode rfl hmode
    exact hbuild frame mode ⟨hrunning, htop, hopen, hcomplete, henough⟩ hkind hmode

theorem tick [Segmentation] (hbuild : custody.MayStep machine) :
    custody.Guards (Machine.tick machine).state := by
  cases hpaused : machine.paused with
  | true =>
    rw [Machine.tick_of_paused hpaused]
    exact hmachine
  | false =>
    rw [Machine.state_tick_of_running hpaused]
    exact hmachine.step hlaws hpaused hbuild

/-! ## Operations -/

theorem drive [Segmentation] {fuel : Nat}
    (hbuild : ∀ met ∈ machine.ticked fuel, custody.Guards met → custody.MayStep met) :
    custody.Guards (machine.drive fuel).state :=
  Machine.drive_keeps_of_ticked
    (fun met hmet hguards => hguards.tick hlaws (hbuild met hmet hguards)) note hmachine

omit hlaws in
theorem load (hprogram : ∀ line ∈ machine.linesOf program, custody.held machine.world.store line) :
    custody.Guards (machine.load program) := by
  rw [Machine.load_eq]
  refine hmachine.set ?_ hmachine.lastResult machine.paused
  exact List.forall_mem_append.mpr ⟨hmachine.current.program, hprogram⟩

theorem started {program : Value}
    (hprogram : ∀ line ∈ machine.linesOf program, custody.held machine.world.store line) :
    custody.Guards (machine.started program) := by
  rw [Machine.started]
  split
  · exact hmachine.load hprogram
  · have hidle : custody.Guards { machine with lastResult := .none } :=
      hmachine.set hmachine.current.program (hlaws.heldAtom _ _) machine.paused
    exact hidle.load hprogram

omit hlaws in
theorem lifted : custody.Guards machine.lifted := by
  rw [Machine.lifted]
  split
  · have hnoted := hmachine.note .debug fun machine =>
      "resume at depth " ++ toString machine.depth
    exact hnoted.set hnoted.current.program hnoted.lastResult false
  · exact hmachine

theorem place {datum : Datum} (hdatum : custody.fine datum) :
    custody.Guards (machine.place datum).2 := by
  obtain ⟨hworld, hgrows, _⟩ := hmachine.placed hlaws hdatum
  exact hmachine.world_set hworld hgrows

theorem readProgramList (source : String) :
    custody.Guards (Machine.readProgramList source machine).state := by
  obtain ⟨error, -, hread⟩ | ⟨program, procedures, hprogram, hread⟩ :=
    Machine.readProgramList_cases source machine
  · rw [hread]
    exact hmachine
  · rw [hread]
    obtain ⟨hlines, hprocedures⟩ := hlaws.readProgram hmachine.world.procedures hprogram
    have hknown := hmachine.world_set (hmachine.world.procedures_set hprocedures)
      (Grows.refl _)
    exact hknown.place hlaws (hlaws.built fun line hline => hlaws.fine (hlines line hline))

omit hlaws in
theorem reset : custody.Guards machine.reset where
  world := ⟨hmachine.world.store, hmachine.world.bindings.truncate, hmachine.world.procedures⟩
  current := ⟨List.forall_mem_nil _, List.forall_mem_nil _⟩
  bounded := List.forall_mem_nil _
  lastResult := hmachine.lastResult

end

theorem new (maxDepth : Nat) (console : Console) (log : Log) :
    custody.Guards (.new maxDepth console log) where
  world := ⟨hlaws.empty, ⟨List.forall_mem_nil _, Scope.All.new _ _⟩, by
    intro name definition hfind
    rw [FineBody, all_standard_body name definition hfind]
    exact List.forall_mem_nil _⟩
  current := ⟨List.forall_mem_nil _, List.forall_mem_nil _⟩
  bounded := List.forall_mem_nil _
  lastResult := hlaws.heldAtom _ _

end Guards

variable [Segmentation]

theorem Builds.mayStep (hbuilds : custody.Builds) (hmachine : custody.Guards machine) :
    custody.MayStep machine :=
  fun _ _ _ _ _ _ hitems _ => hbuilds hmachine.world.store hitems

def Admits (custody : Custody) (machine : Machine) : Operation → Prop
  | .place datum => custody.fine datum
  | .load program => ∀ line ∈ machine.linesOf program, custody.held machine.world.store line
  | .run _ program => ∀ line ∈ machine.linesOf program, custody.held machine.world.store line
  | .schedule call => ∀ input ∈ call.inputs, custody.code input
  | _ => True

/-- Everything stays in custody, whatever is done. -/
theorem Guards.perform (hlaws : custody.Lawful) (hmachine : custody.Guards machine)
    {operation : Operation} (hadmits : custody.Admits machine operation)
    (hbuild : ∀ met ∈ machine.tickedBy operation, custody.Guards met → custody.MayStep met) :
    custody.Guards (machine.perform operation) := by
  cases operation with
  | read source => exact hmachine.readProgramList hlaws source
  | place datum => exact hmachine.place hlaws hadmits
  | load program => exact hmachine.load hadmits
  | run fuel program => exact (hmachine.started hlaws hadmits).drive hlaws hbuild
  | resume fuel => exact hmachine.lifted.drive hlaws hbuild
  | pause => exact hmachine.pause
  | tick =>
    rw [Machine.perform]
    cases hpaused : machine.paused with
    | true =>
      rw [Machine.tick_of_paused hpaused]
      exact hmachine
    | false =>
      rw [Machine.tickedBy, hpaused] at hbuild
      exact hmachine.tick hlaws (hbuild machine List.mem_cons_self hmachine)
  | schedule call => exact hmachine.schedule hadmits
  | unschedule =>
    cases htop : machine.frames.top? with
    | none =>
      rw [Machine.perform, Machine.unschedule, htop]
      exact hmachine
    | some frame => exact hmachine.unschedule hlaws htop
  | reset => exact hmachine.reset

/-- If the steps that build lists are in order, then on every machine that can be met everything is
of the right kinds. -/
theorem Guards.performAll (hlaws : custody.Lawful) (hmachine : custody.Guards machine)
    (operations : List Operation)
    (hadmits : ∀ operation ∈ operations, ∀ met, custody.Guards met → custody.Admits met operation)
    (hbuild : ∀ met ∈ machine.tickedAll operations, custody.Guards met → custody.MayStep met) :
    custody.Guards (machine.performAll operations) := by
  induction operations generalizing machine with
  | nil => exact hmachine
  | cons operation operations ih =>
    obtain ⟨hfirst, hothers⟩ := List.forall_mem_cons.mp hadmits
    have hnext : custody.Guards (machine.perform operation) :=
      hmachine.perform hlaws (hfirst machine hmachine)
        fun met hmet => hbuild met (Machine.mem_tickedAll_cons.mpr (.inl hmet))
    exact ih hnext hothers
      fun met hmet => hbuild met (Machine.mem_tickedAll_cons.mpr (.inr hmet))

end Custody

end Logo
