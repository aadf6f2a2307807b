import Logo.Proofs.Operations
import Logo.Proofs.Turns
import Logo.Text.Cluster

/-!
# What the frames wait for

A value that a call has computed is handed to the frame below by looking only at how many inputs
that frame has. This goes to the right place because every frame that is not the innermost one
waits for exactly the frame above it: for its next input, for the line of its body that it has just
begun, or, if it is of a special form, for the work that it has asked for.
-/

namespace Logo

variable {call : Call}

variable {frame : Frame}

namespace Frame

variable {frame : Frame}

/-- What a frame may wait for when a call has been started above it. -/
inductive WaitsFor (frame : Frame) (call : Call) : Prop where
  | input (hneeds : frame.needsArguments = true) (hinput : frame.nextInput? = some (.call call))
  | line (hgathered : frame.needsArguments = false) (huser : frame.definition.isUserDefined = true)
      (hbound : frame.bound = true) (hstarted : 0 < frame.cursor)
      (hline : frame.definition.body[frame.cursor - 1]? = some (.call call))
  | form (hgathered : frame.needsArguments = false) (hspecial : frame.definition.isSpecial = true)
      (hkept : frame.continuation.isSome = true)

/-- A native waits for inputs only. -/
theorem WaitsFor.needsArguments_of_native (hwaits : frame.WaitsFor call)
    {action : Native} (hkind : frame.definition.kind = .native action) :
    frame.needsArguments = true := by
  cases hwaits with
  | input hneeds hinput => exact hneeds
  | line hgathered huser hbound hstarted hline =>
    rw [Procedure.isUserDefined, hkind] at huser
    cases huser
  | form hgathered hspecial hkept =>
    rw [Procedure.isSpecial, hkind] at hspecial
    cases hspecial

/-- No more inputs than the call has, and a result if the call is over. -/
structure Sound (frame : Frame) : Prop where
  collected : frame.arguments.length ≤ frame.call.inputs.length
  result : frame.evaluated = true → frame.result.isSome = true

theorem Sound.of_open (hopen : frame.evaluated = false)
    (hcollected : frame.arguments.length ≤ frame.call.inputs.length) : frame.Sound where
  collected := hcollected
  result hover := by
    rw [hopen] at hover
    cases hover

theorem Sound.finish (hsound : frame.Sound) (value : Value) : (frame.finish value).Sound :=
  ⟨hsound.collected, fun _ => rfl⟩

theorem Sound.receive (hsound : frame.Sound) (value : Value) : (frame.receive value).Sound := by
  rw [Frame.receive]
  split
  · rename_i hneeds
    have hmore := of_decide_eq_true hneeds
    refine ⟨?_, hsound.result⟩
    rw [List.length_append]
    exact hmore
  · exact ⟨hsound.collected, fun _ => rfl⟩

theorem call_receive (frame : Frame) (value : Value) : (frame.receive value).call = frame.call := by
  rw [receive]
  split <;> rfl

def Asks (frame : Frame) : Move → Prop
  | .call site => frame.WaitsFor site
  | .stay | .fail _ | .output _ | .pause | .bounded _ => True

variable [Segmentation]

/-- A turn leaves a sound frame that waits for the call it asks for. -/
theorem Sound.turn (hsound : frame.Sound) (hopen : frame.evaluated = false) (world : World) :
    (Forms.standard.turn frame world).frame.Sound ∧
      (Forms.standard.turn frame world).frame.Asks (Forms.standard.turn frame world).move := by
  rw [Forms.turn]
  split
  · rename_i hneeds
    rw [takeInput]
    split
    · exact ⟨hsound, .input hneeds ‹_›⟩
    · refine ⟨.of_open hopen ?_, trivial⟩
      rw [List.length_append]
      exact of_decide_eq_true hneeds
    · exact ⟨hsound, trivial⟩
  · rename_i hneeds
    have hgathered := eq_false_of_ne_true hneeds
    split
    · exact ⟨hsound, trivial⟩
    · cases hkind : frame.definition.kind with
      | native action =>
        dsimp only
        cases World.runNative action frame.arguments _ with
        | ok value after => exact ⟨⟨hsound.collected, fun _ => rfl⟩, trivial⟩
        | error cause after => exact ⟨.of_open hopen hsound.collected, trivial⟩
      | special form =>
        have hspecial : frame.definition.isSpecial = true := by rw [Procedure.isSpecial, hkind]
        dsimp only
        cases Forms.standard form frame.arguments frame.continuation frame.result _ with
        | error cause after => exact ⟨.of_open hopen hsound.collected, trivial⟩
        | ok progress after =>
          cases progress with
          | done value => exact ⟨⟨hsound.collected, fun _ => rfl⟩, trivial⟩
          | output value => exact ⟨.of_open hopen hsound.collected, trivial⟩
          | pause => exact ⟨⟨hsound.collected, fun _ => rfl⟩, trivial⟩
          | call site kept =>
            exact ⟨.of_open hopen hsound.collected, .form hgathered hspecial rfl⟩
          | bounded program kept => exact ⟨.of_open hopen hsound.collected, trivial⟩
      | userDefined =>
        have huser : frame.definition.isUserDefined = true := by
          rw [Procedure.isUserDefined, hkind]
        dsimp only
        rw [takeLine]
        dsimp only
        split
        · exact ⟨.of_open hopen hsound.collected, .line hgathered huser rfl (Nat.succ_pos _) ‹_›⟩
        · exact ⟨.of_open hopen hsound.collected, trivial⟩
        · exact ⟨.of_open hopen hsound.collected, trivial⟩
        · exact ⟨.of_open hopen hsound.collected, trivial⟩
        · exact ⟨⟨hsound.collected, fun _ => rfl⟩, trivial⟩

end Frame

/-! ## Stacks of waiting frames -/

def Buried : Call → List Frame → Prop
  | _, [] => True
  | call, below :: rest =>
    below.Sound ∧ below.evaluated = false ∧ below.WaitsFor call ∧ Buried below.call rest

def Stacked : List Frame → Prop
  | [] => True
  | top :: rest => top.Sound ∧ Buried top.call rest

variable {frames : List Frame}

theorem Buried.stacked (hburied : Buried call frames) : Stacked frames := by
  cases frames with
  | nil => trivial
  | cons below rest => exact ⟨hburied.1, hburied.2.2.2⟩

theorem Stacked.drop (hstacked : Stacked frames) (count : Nat) : Stacked (frames.drop count) := by
  induction count generalizing frames with
  | zero => exact hstacked
  | succ count ih =>
    cases frames with
    | nil => trivial
    | cons top rest => exact ih hstacked.2.stacked

theorem Stacked.replaceTop {frames : Stack Frame} (hstacked : Stacked frames.toList) {other : Frame}
    (htop : frames.top? = some frame) (hsound : other.Sound) (hcall : other.call = frame.call) :
    Stacked (frames.replaceTop other).toList := by
  rw [Stack.eq_push_of_top? htop] at hstacked ⊢
  rw [Stack.replaceTop_push]
  refine ⟨hsound, ?_⟩
  rw [hcall]
  exact hstacked.2

theorem Stacked.top {frames : Stack Frame} (hstacked : Stacked frames.toList)
    (htop : frames.top? = some frame) : frame.Sound := by
  rw [Stack.eq_push_of_top? htop] at hstacked
  exact hstacked.1

theorem Buried.evaluated (hburied : Buried call frames) :
    ∀ frame ∈ frames, frame.evaluated = false := by
  induction frames generalizing call with
  | nil => exact List.forall_mem_nil _
  | cons below rest ih =>
    exact List.forall_mem_cons.mpr ⟨hburied.2.1, ih hburied.2.2.2⟩

/-- A frame can be put on a frame that is not over and waits for its call. -/
theorem Stacked.push {frames : Stack Frame} (hstacked : Stacked frames.toList)
    (hwaits : ∀ frame, frames.top? = some frame → frame.evaluated = false ∧ frame.WaitsFor call)
    (definition : Procedure) : Stacked (frames.push (.new call definition)).toList := by
  refine ⟨.of_open rfl (Nat.zero_le _), ?_⟩
  cases htop : frames.top? with
  | none =>
    rw [Stack.eq_empty_of_top? htop]
    trivial
  | some frame =>
    obtain ⟨hopen, hwaiting⟩ := hwaits frame htop
    rw [Stack.eq_push_of_top? htop] at hstacked ⊢
    exact ⟨hstacked.1, hopen, hwaiting, hstacked.2⟩

/-- The frames of a segment wait for one another and none of them is over. -/
structure Segment.Sealed (segment : Segment) : Prop where
  stacked : Stacked segment.frames.toList
  evaluated : ∀ frame ∈ segment.frames.toList, frame.evaluated = false

namespace Machine

/-- The frames of the machine wait for one another. -/
structure Framed (machine : Machine) : Prop where
  current : Stacked machine.frames.toList
  saved : ∀ segment ∈ machine.bounded, segment.Sealed

end Machine

namespace Machine.Framed

variable {machine : Machine}

section

variable (hframed : machine.Framed)

variable {frame other : Frame}

include hframed

theorem note (level : LogLevel) (message : Machine → String) :
    (machine.note level message).Framed := by
  rw [note_eq]
  exact ⟨hframed.current, hframed.saved⟩

theorem set (program : List Value) (lastResult : Value) (paused : Bool) :
    { machine with program, lastResult, paused }.Framed :=
  ⟨hframed.current, hframed.saved⟩

theorem pause : machine.pause.Framed := by
  rw [Machine.pause]
  split
  · exact hframed.set _ _ _
  · exact (hframed.note _ _).set _ _ _

theorem replaceTop (htop : machine.frames.top? = some frame) (hsound : other.Sound)
    (hcall : other.call = frame.call) :
    { machine with frames := machine.frames.replaceTop other }.Framed :=
  ⟨hframed.current.replaceTop htop hsound hcall, hframed.saved⟩

theorem withTop (htop : machine.frames.top? = some frame) (hsound : other.Sound)
    (hcall : other.call = frame.call) (world : World) : (machine.withTop other world).Framed :=
  ⟨hframed.current.replaceTop htop hsound hcall, hframed.saved⟩

theorem schedule {call : Call}
    (hwaits : ∀ frame, machine.frames.top? = some frame →
      frame.evaluated = false ∧ frame.WaitsFor call) :
    (Machine.schedule call machine).state.Framed := by
  rw [schedule_apply]
  split
  · exact hframed
  · split
    · exact hframed
    · rename_i definition _ _
      rw [EStateM.Result.state_ok, enter_eq]
      exact ⟨hframed.current.push hwaits definition, hframed.saved⟩

/-! ## The end of calls -/

theorem release (frame : Frame) : (machine.release frame).Framed := by
  rw [release_eq]
  exact ⟨hframed.current, hframed.saved⟩

theorem deliver (value : Value) : (machine.deliver value).Framed := by
  rw [Machine.deliver]
  split
  · rename_i parent htop
    exact hframed.replaceTop htop ((hframed.current.top htop).receive value)
      (parent.call_receive value)
  · exact hframed

theorem drop (count : Nat) : { machine with frames := machine.frames.drop count }.Framed :=
  ⟨hframed.current.drop count, hframed.saved⟩

theorem unschedule : machine.unschedule.2.Framed := by
  rw [Machine.unschedule]
  split
  · exact hframed
  · rename_i frame htop
    have hpop : { machine with frames := machine.frames.pop }.Framed := by
      have hdrop := hframed.drop 1
      rw [Stack.eq_push_of_top? htop] at hdrop ⊢
      exact hdrop
    exact (((hpop.release frame).note .trace _).deliver _).set _ _ _

end

theorem abandon {rest : Stack Frame} (hrest : { machine with frames := rest }.Framed)
    (frames : List Frame) : (machine.abandon frames rest).Framed := by
  obtain ⟨world, active, habandon⟩ := machine.exists_abandon_eq frames rest
  rw [habandon]
  exact ⟨hrest.current, hrest.saved⟩

/-! ## Bounded runs -/

section

variable (hframed : machine.Framed)

variable {frame : Frame} {saved : Segment} {outer : List Segment}

include hframed

theorem beginBounded (htop : machine.frames.top? = some frame) (hopen : frame.evaluated = false)
    (program : List Value) : (machine.beginBounded program).Framed := by
  have hevaluated : ∀ frame ∈ machine.frames.toList, frame.evaluated = false := by
    have hstacked := hframed.current
    rw [Stack.eq_push_of_top? htop] at hstacked ⊢
    exact List.forall_mem_cons.mpr ⟨hopen, hstacked.2.evaluated⟩
  rw [Machine.beginBounded, note_eq]
  exact ⟨trivial, List.forall_mem_cons.mpr ⟨⟨hframed.current, hevaluated⟩, hframed.saved⟩⟩

theorem restore (hbounded : machine.bounded = saved :: outer) :
    (machine.restore saved outer).Framed := by
  have hsaved := hframed.saved
  rw [hbounded] at hsaved
  have hboth := List.forall_mem_cons.mp hsaved
  exact ⟨hboth.1.stacked, hboth.2⟩

theorem endBounded (hbounded : machine.bounded = saved :: outer) :
    (machine.endBounded saved outer).Framed := by
  have hrestored : ∀ message, ((machine.note .debug message).restore saved outer).Framed := by
    intro message
    apply (hframed.note .debug message).restore
    rw [note_eq]
    exact hbounded
  rw [Machine.endBounded]
  split
  · rename_i frame htop
    have hframe := (hrestored _).current.top htop
    exact (hrestored _).replaceTop htop ⟨hframe.collected, fun _ => rfl⟩ rfl
  · exact hrestored _

theorem outputThrough (value : Value) {segments : List Segment}
    (hbounded : machine.bounded = segments) : (machine.outputThrough value segments).Framed := by
  refine outputThrough_keeps Framed Framed (fun level message hframed => hframed.note level message)
    ?_ ?_ id hbounded hframed
  · intro machine saved outer hbounded hframed
    obtain ⟨world, active, habandon⟩ := machine.exists_abandon_eq machine.frames.toList .empty
    have hempty : { machine with frames := .empty }.Framed := ⟨trivial, hframed.saved⟩
    have hleft := abandon hempty machine.frames.toList
    rw [habandon] at hleft ⊢
    exact hleft.restore hbounded
  · intro machine above target rest hsplit hframed
    have hdrop := hframed.drop above.length
    have htarget := Stack.top?_drop_of_append hsplit
    exact abandon (hdrop.replaceTop htarget ((hdrop.current.top htarget).finish value) rfl) above

/-! ## Steps -/

/-- Frames stay in order when the program goes on. -/
theorem advanceProgram (htop : machine.frames.top? = none) :
    (Machine.advanceProgram machine).state.Framed := by
  rw [advanceProgram_apply]
  split
  · apply (hframed.set _ _ _).schedule
    intro frame hframe
    rw [show machine.frames.top? = some frame from hframe] at htop
    cases htop
  · exact hframed.set _ _ _
  · exact ((hframed.set _ _ _).note _ _).set _ _ _
  · exact hframed.set _ _ _
  · split
    · rename_i hbounded
      exact hframed.endBounded hbounded
    · exact hframed

theorem make (htop : machine.frames.top? = some frame) (hopen : frame.evaluated = false)
    {turn : Turn} (hof : turn.Of frame) (hsound : turn.frame.Sound)
    (hmove : turn.frame.Asks turn.move) : (machine.make turn).state.Framed := by
  have hnext := hframed.withTop htop hsound hof.call turn.world
  have hevaluated := fun hwaits => (hof.evaluated hwaits).trans hopen
  have htop : (machine.frames.replaceTop turn.frame).top? = some turn.frame :=
    Stack.top?_replaceTop htop _
  rw [Machine.make]
  cases hasked : turn.move with
  | stay => exact hnext
  | fail cause => exact hnext
  | call site =>
    rw [hasked] at hmove hevaluated
    refine hnext.schedule fun below hbelow => ?_
    cases htop.symm.trans hbelow
    exact ⟨hevaluated trivial, hmove⟩
  | output value => exact hnext.outputThrough value rfl
  | pause => exact hnext.pause
  | bounded program =>
    rw [hasked] at hevaluated
    exact hnext.beginBounded htop (hevaluated trivial) program

variable [Segmentation]

theorem step : (Machine.step machine).state.Framed := by
  obtain ⟨htop, hstep⟩ | ⟨frame, htop, ⟨-, hstep⟩ | ⟨hopen, hstep⟩⟩ := machine.step_cases
  · rw [hstep]
    exact hframed.advanceProgram htop
  · rw [hstep]
    exact hframed.unschedule
  · obtain ⟨hsound, hmove⟩ := (hframed.current.top htop).turn hopen machine.world
    rw [hstep]
    exact hframed.make htop hopen (Forms.standard.turn_of frame machine.world) hsound hmove

end

variable [Segmentation]

theorem lasting : Lasting Framed where
  tick := keeps_tick _ fun _ hframed => hframed.step
  note := note
  set := set

/-! ## Operations -/

/-- Frames wait for those above them, whatever is done. -/
theorem perform (hframed : machine.Framed) {operation : Operation}
    (hindirect : operation.isDirect = false) : (machine.perform operation).Framed := by
  cases operation with
  | read source =>
    obtain ⟨world, hread⟩ := exists_readProgramList_eq source machine
    rw [Machine.perform, hread]
    exact ⟨hframed.current, hframed.saved⟩
  | place datum => exact ⟨hframed.current, hframed.saved⟩
  | load program => exact lasting.load hframed program
  | run fuel program => exact lasting.run hframed fuel program
  | resume fuel => exact lasting.resume hframed fuel
  | pause => exact hframed.pause
  | tick => exact lasting.tick machine hframed
  | schedule call => cases hindirect
  | unschedule => cases hindirect
  | reset => exact ⟨trivial, List.forall_mem_nil _⟩

theorem performAll (maxDepth : Nat) (console : Console) (log : Log) {operations : List Operation}
    (hindirect : ∀ operation ∈ operations, operation.isDirect = false) :
    ((Machine.new maxDepth console log).performAll operations).Framed := by
  apply performAll_keeps Framed (fun operation => operation.isDirect = false)
  · exact fun machine operation hallowed hmachine => hmachine.perform hallowed
  · exact hindirect
  · exact ⟨trivial, List.forall_mem_nil _⟩

end Machine.Framed

/-! ## Reading the order of the frames -/

theorem Stacked.sound (hstacked : Stacked frames) : ∀ frame ∈ frames, frame.Sound := by
  induction frames with
  | nil => exact List.forall_mem_nil _
  | cons top rest ih => exact List.forall_mem_cons.mpr ⟨hstacked.1, ih hstacked.2.stacked⟩

theorem Stacked.evaluated_tail (hstacked : Stacked frames) :
    ∀ frame ∈ frames.tail, frame.evaluated = false := by
  cases frames with
  | nil => exact List.forall_mem_nil _
  | cons top rest => exact hstacked.2.evaluated

/-- Of two neighbours, the one below waits for the other. -/
theorem Stacked.waitsFor (hstacked : Stacked frames) {index : Nat} {above below : Frame}
    (habove : frames[index]? = some above) (hbelow : frames[index + 1]? = some below) :
    below.WaitsFor above.call := by
  induction index generalizing frames with
  | zero =>
    cases frames with
    | nil => cases habove
    | cons top rest =>
      cases habove
      cases rest with
      | nil => cases hbelow
      | cons next rest =>
        cases hbelow
        exact hstacked.2.2.2.1
  | succ index ih =>
    cases frames with
    | nil => cases habove
    | cons top rest => exact ih hstacked.2.stacked habove hbelow

namespace Machine

variable {machine : Machine}

variable {frame : Frame}

def segments (machine : Machine) : List (List Frame) :=
  machine.frames.toList :: machine.bounded.map (·.frames.toList)

theorem Framed.segments (hframed : machine.Framed) :
    ∀ frames ∈ machine.segments, Stacked frames := by
  refine List.forall_mem_cons.mpr ⟨hframed.current, ?_⟩
  intro frames hframes
  obtain ⟨segment, hsegment, rfl⟩ := List.mem_map.mp hframes
  exact (hframed.saved segment hsegment).stacked

theorem Framed.sound (hframed : machine.Framed) : ∀ frame ∈ machine.allFrames, frame.Sound := by
  intro frame hframe
  cases List.mem_append.mp hframe with
  | inl hcurrent => exact hframed.current.sound frame hcurrent
  | inr hsaved =>
    obtain ⟨segment, hsegment, hmem⟩ := List.mem_flatMap.mp hsaved
    exact (hframed.saved segment hsegment).stacked.sound frame hmem

/-- A frame that is over is the innermost one of the stack in use. -/
theorem Framed.top_of_evaluated (hframed : machine.Framed) (hframe : frame ∈ machine.allFrames)
    (hover : frame.evaluated = true) : machine.frames.top? = some frame := by
  cases List.mem_append.mp hframe with
  | inl hcurrent =>
    have htail := hframed.current.evaluated_tail frame
    rw [Stack.top?]
    cases hframes : machine.frames.toList with
    | nil =>
      rw [hframes] at hcurrent
      cases hcurrent
    | cons top rest =>
      rw [hframes] at hcurrent htail
      cases List.mem_cons.mp hcurrent with
      | inl htop => rw [htop, List.head?_cons]
      | inr hrest =>
        rw [htail hrest] at hover
        cases hover
  | inr hsaved =>
    obtain ⟨segment, hsegment, hmem⟩ := List.mem_flatMap.mp hsaved
    rw [(hframed.saved segment hsegment).evaluated frame hmem] at hover
    cases hover

theorem toList_frames_unschedule {parent : Frame} {rest : List Frame}
    (hframes : machine.frames.toList = frame :: parent :: rest) :
    machine.unschedule.2.frames.toList = parent.receive (frame.result.getD .nil) :: rest := by
  have htop : machine.frames.top? = some frame := by
    rw [Stack.top?, hframes, List.head?_cons]
  have hpop : machine.frames.pop.toList = parent :: rest := by
    rw [Stack.toList_pop, hframes, List.tail_cons]
  have hparent : machine.frames.pop.top? = some parent := by
    rw [Stack.top?, hpop, List.head?_cons]
  simp only [unschedule, htop]
  rw [release_eq, note_eq, deliver]
  simp only [hparent]
  rw [Stack.toList_replaceTop, hpop]

section

variable [Segmentation]

/-- On every machine that can be met without starting or ending frames by hand, after any
operations and whether or not they have failed, no frame has more inputs than its call, a call that
is over has a result and is the innermost of the stack in use, and each frame waits for the one
above it. So a value that is handed on becomes the input that it was computed for, or the result of
the line or form that has asked for it. -/
theorem frames_wait_for_frames_above (maxDepth : Nat) (console : Console) (log : Log)
    (operations : List Operation)
    (hindirect : ∀ operation ∈ operations, operation.isDirect = false) :
    let machine := (Machine.new maxDepth console log).performAll operations
    (∀ frame ∈ machine.allFrames, frame.arguments.length ≤ frame.call.inputs.length) ∧
    (∀ frame ∈ machine.allFrames, frame.evaluated = true →
      frame.result.isSome = true ∧ machine.frames.top? = some frame) ∧
    (∀ frame ∈ machine.frames.toList.tail, frame.evaluated = false) ∧
    (∀ segment ∈ machine.bounded, ∀ frame ∈ segment.frames.toList, frame.evaluated = false) ∧
    (∀ frames ∈ machine.segments, ∀ index above below, frames[index]? = some above →
      frames[index + 1]? = some below → below.WaitsFor above.call ∧
        (∀ action, below.definition.kind = .native action → below.needsArguments = true)) ∧
    ∀ frame parent rest, machine.frames.toList = frame :: parent :: rest →
      let value := frame.result.getD .nil
      let frames := machine.unschedule.2.frames.toList
      (parent.call.inputs[parent.arguments.length]? = some (.call frame.call) ∧
        frames = { parent with arguments := parent.arguments ++ [value] } :: rest) ∨
      ((parent.definition.isUserDefined = true ∧
          parent.definition.body[parent.cursor - 1]? = some (.call frame.call) ∨
        parent.definition.isSpecial = true ∧ parent.continuation.isSome = true) ∧
        frames = { parent with result := some value } :: rest) := by
  intro machine
  have hframed : machine.Framed := Framed.performAll maxDepth console log hindirect
  refine ⟨fun frame hframe => (hframed.sound frame hframe).collected, ?_,
    hframed.current.evaluated_tail,
    fun segment hsegment => (hframed.saved segment hsegment).evaluated, ?_, ?_⟩
  · intro frame hframe hover
    exact ⟨(hframed.sound frame hframe).result hover, hframed.top_of_evaluated hframe hover⟩
  · intro frames hframes index above below habove hbelow
    have hwaits := (hframed.segments frames hframes).waitsFor habove hbelow
    exact ⟨hwaits, fun action hkind => hwaits.needsArguments_of_native hkind⟩
  · intro frame parent rest hframes
    have hwaits : parent.WaitsFor frame.call := by
      have hstacked := hframed.current
      rw [hframes] at hstacked
      exact hstacked.2.2.2.1
    rw [toList_frames_unschedule hframes, Frame.receive]
    cases hwaits with
    | input hneeds hinput =>
      rw [if_pos hneeds]
      exact .inl ⟨hinput, rfl⟩
    | line hgathered huser hbound hstarted hline =>
      rw [hgathered, if_neg Bool.false_ne_true]
      exact .inr ⟨.inl ⟨huser, hline⟩, rfl⟩
    | form hgathered hspecial hkept =>
      rw [hgathered, if_neg Bool.false_ne_true]
      exact .inr ⟨.inr ⟨hspecial, hkept⟩, rfl⟩

end

open scoped Graphemes

theorem not_waits_for_readword :
    let operations : List Operation :=
      [.load (.call ⟨"not", [.call ⟨"readword", [], .nowhere⟩], .nowhere⟩), .tick, .tick]
    ∃ above below, ((Machine.new 2 (.new []) (.new none)).performAll operations).frames.toList =
      [above, below] ∧ below.WaitsFor above.call := by
  intro operations
  have hlength : ((Machine.new 2 (.new []) (.new none)).performAll
      operations).frames.toList.length = 2 := by decide +kernel
  have hwaits := (frames_wait_for_frames_above 2 (.new []) (.new none) operations
    (by decide)).2.2.2.2.1
  generalize (Machine.new 2 (.new []) (.new none)).performAll operations = machine
    at hlength hwaits ⊢
  obtain ⟨above, rest, hframes⟩ := List.exists_cons_of_length_eq_add_one hlength
  rw [hframes] at hlength
  obtain ⟨below, under, hrest⟩ := List.exists_cons_of_length_eq_add_one (Nat.succ.inj hlength)
  rw [hrest] at hframes hlength
  rw [List.eq_nil_of_length_eq_zero (Nat.succ.inj (Nat.succ.inj hlength))] at hframes
  have hbelow := hwaits machine.frames.toList List.mem_cons_self 0 above below
  rw [hframes] at hbelow
  exact ⟨above, below, hframes, (hbelow rfl rfl).1⟩

end Machine

end Logo
