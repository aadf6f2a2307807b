import Logo.Proofs.Pauses

/-!
# What lies outside has no influence

A bounded run works on frames and lines of its own, and so does the whole program while lines wait
that have been put in later. What lies outside, the frames and lines put aside and the lines that
come at the end, can be put there or left out: every step of the inside is the same. The one
exception is an output that finds no procedure inside to end.
-/

namespace Logo

/-! ## Adding the outside -/

/-- The lines of a run inside `outer`. Those that come when everything is over stand behind the
lines of the outermost run. -/
def queueBehind (lines : List Value) (outer : List Segment) (program : List Value) : List Value :=
  if outer.isEmpty then program ++ lines else program

def Segment.extendLast (lines : List Value) : List Segment → List Segment
  | [] => []
  | saved :: outer =>
    { saved with program := queueBehind lines outer saved.program } :: extendLast lines outer

theorem queueBehind_nil (outer : List Segment) (program : List Value) :
    queueBehind [] outer program = program := by
  simp [queueBehind]

theorem Segment.extendLast_nil (segments : List Segment) : extendLast [] segments = segments := by
  induction segments with
  | nil => rfl
  | cons saved outer ih => simp [extendLast, queueBehind_nil, ih]

/-- The call is of a form that ends the procedure around it. -/
def Frame.isOutput (frame : Frame) : Bool :=
  match frame.definition.kind with
  | .special .output | .special .stop => true
  | _ => false

namespace Machine

/-- The machine with lines behind all its own ones and with segments outside all its own ones. -/
def beyond (lines : List Value) (base : List Segment) (machine : Machine) : Machine :=
  { machine with
    program := queueBehind lines machine.bounded machine.program
    bounded := Segment.extendLast lines machine.bounded ++ base }

section Beyond

variable [Segmentation] (lines : List Value) (base : List Segment)

def surrounding : Guise where
  toDisguise := .same
  paused paused := paused
  maxDepth maxDepth := maxDepth
  program := queueBehind lines
  bounded segments := Segment.extendLast lines segments ++ base
  program_inside _ _ _ := rfl
  program_cons outer _ _ := by cases outer <;> rfl
  bounded_cons _ _ := rfl

variable {lines base}

theorem wears_beyond (machine : Machine) :
    (surrounding lines base).Wears machine (machine.beyond lines base) :=
  .intro rfl rfl

theorem eq_beyond (first second : Machine) (hwears : (surrounding lines base).Wears first second) :
    second = first.beyond lines base := by
  cases hwears with
  | intro hworld hactive =>
    cases congrArg World.log hworld
    cases hactive
    rfl

variable (lines base)

theorem pause_beyond (machine : Machine) :
    (machine.beyond lines base).pause = machine.pause.beyond lines base :=
  eq_beyond _ _ ((wears_beyond machine).pause rfl)

theorem lifted_beyond (machine : Machine) :
    (machine.beyond lines base).lifted = machine.lifted.beyond lines base :=
  eq_beyond _ _ ((wears_beyond machine).lifted rfl)

end Beyond

/-- The machine is about to perform an output or a stop. -/
structure Outputs (machine : Machine) (frame : Frame) : Prop where
  running : machine.paused = false
  top : machine.frames.top? = some frame
  unevaluated : frame.evaluated = false
  complete : frame.needsArguments = false
  enough : frame.definition.arity ≤ frame.arguments.length
  output : frame.isOutput = true

/-- The machine is about to perform an output or a stop, and has no procedure that it could end. -/
def Escapes (machine : Machine) : Prop :=
  (∃ frame, machine.Outputs frame) ∧
    ∀ frame ∈ machine.allFrames, frame.definition.isUserDefined = false

theorem not_escapes_of_top? {machine : Machine}
    (htop : machine.frames.top?.any (·.isOutput) = false) : ¬machine.Escapes := by
  rintro ⟨⟨frame, houtputs⟩, -⟩
  rw [houtputs.top, Option.any_some, houtputs.output] at htop
  cases htop

section Step

variable {base : List Segment} {machine : Machine}

theorem exists_userDefined_withTop {frame next : Frame} (htop : machine.frames.top? = some frame)
    (hdefinition : next.definition = frame.definition) {world : World}
    (huser : ∃ other ∈ machine.allFrames, other.definition.isUserDefined = true) :
    ∃ other ∈ (machine.withTop next world).allFrames,
      other.definition.isUserDefined = true := by
  obtain ⟨other, hmem, huser⟩ := huser
  simp only [allFrames, withTop] at hmem ⊢
  rw [Stack.eq_push_of_top? htop, Stack.toList_push, List.cons_append, List.mem_cons] at hmem
  rw [Stack.eq_push_of_top? htop, Stack.replaceTop_push, Stack.toList_push, List.cons_append]
  rcases hmem with rfl | hmem
  · exact ⟨next, List.mem_cons_self, hdefinition ▸ huser⟩
  · exact ⟨other, List.mem_cons_of_mem _ hmem, huser⟩

variable [Segmentation]

/-- A call that is at work and asks for the end of a procedure is one of an output or a stop. -/
theorem outputs_of_move {frame : Frame} {value : Value} (hrunning : machine.paused = false)
    (htop : machine.frames.top? = some frame) (hevaluated : frame.evaluated = false)
    (hmove : (Forms.standard.turn frame machine.world).move = .output value) :
    machine.Outputs frame ∧
      (Forms.standard.turn frame machine.world).frame.definition = frame.definition := by
  obtain hplain | ⟨form, hkind, hcomplete, henough, hturn⟩ :=
    Forms.standard.turn_cases frame machine.world
  · rw [hmove] at hplain
    exact hplain.elim
  · rw [hturn] at hmove ⊢
    cases hrun : Forms.standard form frame.arguments frame.continuation frame.result
        (machine.world.prepared frame) with
    | error cause after =>
      rw [hrun] at hmove
      cases hmove
    | ok progress after =>
      rw [hrun] at hmove
      cases progress with
      | output value =>
        refine ⟨⟨hrunning, htop, hevaluated, hcomplete, henough, ?_⟩, rfl⟩
        by_contra hother
        rw [Frame.isOutput, hkind] at hother
        refine World.yields_ne_output ?_ ?_ _ _ _ _ hrun value rfl
        · rintro rfl
          exact hother rfl
        · rintro rfl
          exact hother rfl
      | _ => cases hmove

variable (lines : List Value)

/-- A step of the inside is the same whatever lies outside. -/
theorem step_beyond (hwork : machine.hasWork = true) (hrunning : machine.paused = false)
    (hinside : base = [] ∨ ¬machine.Escapes) :
    step (machine.beyond lines base) = (step machine).mapState (beyond lines base) := by
  refine Guise.Agree.eq_mapState eq_beyond ((wears_beyond machine).step World.orderly_runSpecial
    rfl (fun _ _ => rfl) (fun frame value htop hevaluated hmove => ?_) (.inl hwork))
  refine hinside.imp_right fun hescapes => ?_
  obtain ⟨houtputs, hdefinition⟩ := outputs_of_move hrunning htop hevaluated hmove
  apply exists_userDefined_withTop htop hdefinition
  by_contra hnone
  exact hescapes ⟨⟨frame, houtputs⟩, by simpa using hnone⟩

omit [Segmentation] in
theorem hasWork_beyond (hwork : machine.hasWork = true) :
    (machine.beyond lines base).hasWork = true := by
  rw [hasWork] at hwork
  rw [hasWork, beyond]
  cases hbounded : machine.bounded with
  | nil =>
    cases hprogram : machine.program with
    | nil => simp_all
    | cons line program => simp [queueBehind]
  | cons saved outer => simp [Segment.extendLast]

omit [Segmentation] in
theorem beyond_of_idle (hidle : machine.hasWork = false) :
    machine.beyond lines base = { machine with program := lines, bounded := base } := by
  obtain ⟨-, hprogram, hbounded⟩ := hasWork_eq_false_iff.mp hidle
  simp [beyond, hprogram, hbounded, queueBehind, Segment.extendLast]

omit lines in
theorem step_of_idle (hidle : machine.hasWork = false) : step machine = .ok () machine := by
  obtain ⟨hframes, hprogram, hbounded⟩ := hasWork_eq_false_iff.mp hidle
  have htop : machine.frames.top? = none := List.head?_eq_none_iff.mpr hframes
  simp only [step, htop, advanceProgram_apply, hprogram, hbounded]

omit lines in
theorem tick_of_idle (hidle : machine.hasWork = false) : tick machine = .ok false machine := by
  cases hpaused : machine.paused with
  | true => rw [tick_of_paused hpaused, hidle]
  | false => simp only [tick_of_running hpaused, step_of_idle hidle, hidle]

omit lines in
theorem hasWork_of_tick_ne (htick : tick machine ≠ .ok false machine) : machine.hasWork = true := by
  by_contra hidle
  exact htick (tick_of_idle (Bool.eq_false_iff.mpr hidle))

theorem tick_beyond (hwork : machine.hasWork = true) (hrunning : machine.paused = false)
    (hinside : base = [] ∨ ¬machine.Escapes) :
    tick (machine.beyond lines base) =
      match tick machine with
      | .ok _ next => .ok (next.beyond lines base).hasWork (next.beyond lines base)
      | .error cause next => .error cause (next.beyond lines base) := by
  rw [tick_of_running (show (machine.beyond lines base).paused = false from hrunning),
    step_beyond lines hwork hrunning hinside, tick_of_running hrunning]
  cases step machine <;> rfl

end Step

end Machine

end Logo
