import Logo.Proofs.Returns

/-!
# How far an output goes

An output looks for a user-defined procedure among the active calls, from the innermost one
outwards, through the bounded runs that are open. The calls that it passes are given up, and with
them their scopes. Here it is said what is left of the machine in the end.
-/

namespace Logo

def Stack.ofList {α : Type} (elements : List α) : Stack α :=
  ⟨elements, elements.length, rfl⟩

/-- Calls and lines that wait: frames, lines, and what bounded runs have put aside. -/
structure Ground where
  frames : List Frame
  program : List Value
  bounded : List Segment

def Machine.ground (machine : Machine) : Ground :=
  ⟨machine.frames.toList, machine.program, machine.bounded⟩

namespace Ground

def push (ground : Ground) (front : List Frame) : Ground :=
  { ground with frames := front ++ ground.frames }

def allFrames (ground : Ground) : List Frame :=
  ground.frames ++ ground.bounded.flatMap (·.frames.toList)

def height (ground : Ground) : Nat :=
  ground.allFrames.length

theorem allFrames_push (ground : Ground) (front : List Frame) :
    (ground.push front).allFrames = front ++ ground.allFrames :=
  List.append_assoc ..

theorem height_push (ground : Ground) (front : List Frame) :
    (ground.push front).height = front.length + ground.height := by
  rw [height, allFrames_push, List.length_append, height]

theorem height_saved_le (frames : List Frame) (program : List Value) (saved : Segment)
    (bounded : List Segment) :
    Ground.height ⟨saved.frames.toList, saved.program, bounded⟩ ≤
      Ground.height ⟨frames, program, saved :: bounded⟩ := by
  simp only [height, allFrames, List.flatMap_cons, List.length_append]
  omega

/-- An output passes the frames `passed` and ends `target`, below which `rest` stays. -/
inductive Unwinds : Ground → List Frame → Frame → Ground → Prop where
  | here {above : List Frame} {target : Frame} {rest : Ground}
      (habove : ∀ frame ∈ above, frame.definition.isUserDefined = false)
      (huser : target.definition.isUserDefined = true) :
      Unwinds ⟨above ++ target :: rest.frames, rest.program, rest.bounded⟩ above target rest
  | outward {frames passed : List Frame} {program : List Value} {saved : Segment}
      {bounded : List Segment} {target : Frame} {rest : Ground}
      (hframes : ∀ frame ∈ frames, frame.definition.isUserDefined = false)
      (hbelow : Unwinds ⟨saved.frames.toList, saved.program, bounded⟩ passed target rest) :
      Unwinds ⟨frames, program, saved :: bounded⟩ (frames ++ passed) target rest

namespace Unwinds

variable {ground rest : Ground} {passed below : List Frame} {target : Frame}

theorem within (ground : Ground)
    (hpassed : ∀ frame ∈ passed, frame.definition.isUserDefined = false)
    (huser : target.definition.isUserDefined = true) :
    (ground.push (passed ++ target :: below)).Unwinds passed target (ground.push below) := by
  rw [Ground.push, List.append_assoc]
  exact @here passed target (ground.push below) hpassed huser

/-- Frames of primitives on top are passed as well. -/
theorem push (hunwinds : ground.Unwinds passed target rest) {front : List Frame}
    (hfront : ∀ frame ∈ front, frame.definition.isUserDefined = false) :
    (ground.push front).Unwinds (front ++ passed) target rest := by
  cases hunwinds with
  | here habove huser =>
    rw [Ground.push, ← List.append_assoc]
    exact here (List.forall_mem_append.mpr ⟨hfront, habove⟩) huser
  | outward hframes hbelow =>
    rw [← List.append_assoc]
    exact outward (List.forall_mem_append.mpr ⟨hfront, hframes⟩) hbelow

theorem height_lt (hunwinds : ground.Unwinds passed target rest) : rest.height < ground.height := by
  induction hunwinds with
  | here _ _ =>
    simp only [height, allFrames, List.length_append, List.length_cons]
    omega
  | outward _ _ ih => exact Nat.lt_of_lt_of_le ih (height_saved_le ..)

end Unwinds

/-- The frames up to the innermost one of a user-defined procedure. -/
theorem exists_split {frames : List Frame}
    (huser : ∃ frame ∈ frames, frame.definition.isUserDefined = true) :
    ∃ above target below, frames = above ++ target :: below ∧
      (∀ frame ∈ above, frame.definition.isUserDefined = false) ∧
      target.definition.isUserDefined = true := by
  induction frames with
  | nil =>
    obtain ⟨_, hmem, -⟩ := huser
    cases hmem
  | cons frame frames ih =>
    cases hframe : frame.definition.isUserDefined with
    | true => exact ⟨[], frame, frames, rfl, List.forall_mem_nil _, hframe⟩
    | false =>
      have hbelow : ∃ frame ∈ frames, frame.definition.isUserDefined = true := by
        obtain ⟨other, hmem, huser⟩ := huser
        obtain rfl | hmem := List.mem_cons.mp hmem
        · rw [hframe] at huser
          cases huser
        · exact ⟨other, hmem, huser⟩
      obtain ⟨above, target, below, rfl, habove, htarget⟩ := ih hbelow
      exact ⟨frame :: above, target, below, rfl,
        List.forall_mem_cons.mpr ⟨hframe, habove⟩, htarget⟩

/-- Where a call has a body, an output unwinds to it. -/
theorem exists_unwinds {ground : Ground}
    (huser : ∃ frame ∈ ground.allFrames, frame.definition.isUserDefined = true) :
    ∃ passed target rest, ground.Unwinds passed target rest := by
  obtain ⟨frames, program, bounded⟩ := ground
  induction bounded generalizing frames program with
  | nil =>
    rw [allFrames, List.flatMap_nil, List.append_nil] at huser
    obtain ⟨above, target, below, rfl, habove, htarget⟩ := exists_split huser
    exact ⟨above, target, _, @Unwinds.here above target ⟨below, program, []⟩ habove htarget⟩
  | cons saved bounded ih =>
    by_cases hhere : ∃ frame ∈ frames, frame.definition.isUserDefined = true
    · obtain ⟨above, target, below, rfl, habove, htarget⟩ := exists_split hhere
      exact ⟨above, target, _,
        @Unwinds.here above target ⟨below, program, saved :: bounded⟩ habove htarget⟩
    · have hframes : ∀ frame ∈ frames, frame.definition.isUserDefined = false := by
        simpa using hhere
      have hbelow : ∃ frame ∈ Ground.allFrames ⟨saved.frames.toList, saved.program, bounded⟩,
          frame.definition.isUserDefined = true := by
        obtain ⟨frame, hmem, huser⟩ := huser
        obtain hmem | hmem := List.mem_append.mp hmem
        · exact absurd ⟨frame, hmem, huser⟩ hhere
        · rw [List.flatMap_cons] at hmem
          exact ⟨frame, hmem, huser⟩
      obtain ⟨passed, target, rest, hends⟩ := ih _ _ hbelow
      exact ⟨_, target, rest, .outward hframes hends⟩

end Ground

def Environment.forsake (environment : Environment) (frames : List Frame) : Environment :=
  frames.foldl (fun environment frame =>
    if frame.definition.isSpecial then environment else environment.pop) environment

theorem Environment.forsake_append (environment : Environment) (first second : List Frame) :
    environment.forsake (first ++ second) = (environment.forsake first).forsake second :=
  List.foldl_append

namespace Machine

/-- Giving up frames closes their scopes. -/
theorem abandon_eq (machine : Machine) (frames : List Frame) (rest : Stack Frame) :
    ∃ log active, machine.abandon frames rest =
      { machine with
        world := { machine.world with
          environment := machine.world.environment.forsake frames
          log }
        frames := rest
        active } := by
  have hfold : ∀ start : Machine, ∃ log active, frames.foldl (fun machine frame =>
      (machine.note .trace fun _ => "abandon " ++ frame.definition.name).release frame) start =
        { start with
          world := { start.world with
            environment := start.world.environment.forsake frames
            log }
          active } := by
    induction frames with
    | nil => exact fun start => ⟨start.world.log, start.active, rfl⟩
    | cons frame frames ih =>
      intro start
      obtain ⟨log, active, hrest⟩ :=
        ih ((start.note .trace fun _ => "abandon " ++ frame.definition.name).release frame)
      refine ⟨log, active, ?_⟩
      rw [List.foldl_cons, hrest, note_apply, release_eq]
      rfl
  exact hfold { machine with frames := rest }

/-- An output that finds no procedure among the frames goes on among those that were put aside
last. -/
theorem exists_output_eq {machine : Machine} {saved : Segment} {bounded : List Segment}
    (hbounded : machine.bounded = saved :: bounded)
    (hframes : ∀ frame ∈ machine.frames.toList, frame.definition.isUserDefined = false)
    (value : Value) :
    ∃ log active, machine.output value =
      (({ machine with
        world := { machine.world with
          environment := machine.world.environment.forsake machine.frames.toList
          log }
        frames := .empty
        active } : Machine).restore saved bounded).output value := by
  have hdrop : machine.frames.toList.dropWhile (!·.definition.isUserDefined) = [] := by
    rw [List.dropWhile_eq_nil_iff]
    intro frame hmem
    rw [hframes frame hmem]
    rfl
  obtain ⟨log, active, habandon⟩ := (machine.note .debug fun _ =>
    "output leaves a bounded run, restoring " ++ toString saved.frames.size ++
      " frames").abandon_eq machine.frames.toList .empty
  refine ⟨log, active, ?_⟩
  rw [output, hbounded, outputThrough_of_nil hdrop, habandon, note_apply]
  rfl

/-- An output gives the frames `passed` up, ends `target` and leaves `rest` below it. -/
def Unwound (machine : Machine) (value : Value) (passed : List Frame) (target : Frame)
    (rest : Ground) (later : Machine) : Prop :=
  ∃ log active suspended, later =
    { machine with
      world := { machine.world with
        environment := machine.world.environment.forsake passed
        log }
      frames := .ofList (target.finish value :: rest.frames)
      program := rest.program
      bounded := rest.bounded
      suspended
      active }

theorem unwound_outward {machine : Machine} {value : Value} {frames passed : List Frame}
    {program : List Value} {saved : Segment} {bounded : List Segment} {target : Frame}
    {rest : Ground} (hground : machine.ground = ⟨frames, program, saved :: bounded⟩)
    (hframes : ∀ frame ∈ frames, frame.definition.isUserDefined = false)
    (hbelow : ∀ {outer : Machine},
      outer.ground = ⟨saved.frames.toList, saved.program, bounded⟩ →
        outer.Unwound value passed target rest (outer.output value)) :
    machine.Unwound value (frames ++ passed) target rest (machine.output value) := by
  obtain ⟨rfl, -, hbounded⟩ := Ground.mk.inj hground
  obtain ⟨log, active, houtput⟩ := exists_output_eq hbounded hframes value
  rw [houtput]
  obtain ⟨finalLog, finalActive, suspended, hfinal⟩ := @hbelow (({ machine with
    world := { machine.world with
      environment := machine.world.environment.forsake machine.frames.toList
      log }
    frames := .empty
    active } : Machine).restore saved bounded) rfl
  refine ⟨finalLog, finalActive, suspended, ?_⟩
  rw [Environment.forsake_append]
  exact hfinal

/-- What an output leaves of the machine. -/
theorem output_of_unwinds {machine : Machine} {passed : List Frame} {target : Frame} {rest : Ground}
    (hunwinds : machine.ground.Unwinds passed target rest) (value : Value) :
    machine.Unwound value passed target rest (machine.output value) := by
  generalize hground : machine.ground = ground at hunwinds
  induction hunwinds generalizing machine with
  | @here above target rest habove huser =>
    obtain ⟨hframes, hprogram, hbounded⟩ := Ground.mk.inj hground
    have hpass : ∀ frame ∈ above, (!frame.definition.isUserDefined) = true := by
      intro frame hmem
      rw [habove frame hmem]
      rfl
    have hstop : ¬(!target.definition.isUserDefined) = true := by
      rw [huser]
      exact Bool.false_ne_true
    have hdrop : machine.frames.toList.dropWhile (!·.definition.isUserDefined) =
        target :: rest.frames := by
      rw [hframes, List.dropWhile_append_of_pos hpass, List.dropWhile_cons, if_neg hstop]
    have htake : machine.frames.toList.takeWhile (!·.definition.isUserDefined) = above := by
      rw [hframes, List.takeWhile_append_of_pos hpass, List.takeWhile_cons, if_neg hstop,
        List.append_nil]
    have hbelow := toList_drop_takeWhile hdrop
    rw [htake] at hbelow
    have hrest : (machine.frames.drop above.length).replaceTop (target.finish value) =
        .ofList (target.finish value :: rest.frames) := by
      ext1
      rw [Stack.toList_replaceTop, hbelow]
      rfl
    obtain ⟨log, active, habandon⟩ := machine.abandon_eq above
      (.ofList (target.finish value :: rest.frames))
    refine ⟨log, active, machine.suspended, ?_⟩
    rw [Machine.output, outputThrough_of_target hdrop, htake]
    dsimp only
    rw [hrest, habandon, ← hprogram, ← hbounded]
  | @outward frames passed program saved bounded target rest hframes hbelow ih =>
    exact unwound_outward hground hframes ih

end Machine

end Logo
