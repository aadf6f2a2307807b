import Logo.Proofs.Leaving
import Logo.Proofs.Scoping
import Logo.Text.Cluster

/-!
# Where a variable is declared

`local` and `localmake` have no scope of their own. They declare in the scope of the innermost call
that has one, and a call has its scope from the moment it starts, while it still waits for its
inputs. So a declaration in a line of a procedure, or in a block that it runs, is one of the
procedure; but a declaration among the inputs of a call is one of that call. Either way the name is
known until the call is over.
-/

namespace Logo

namespace Environment

variable {environment later : Environment} {outer : Nat} {key : String}

/-- What the scopes know that are still open is not forgotten. -/
def Recalls (environment later : Environment) : Prop :=
  ∀ outer key, environment.KnowsAt outer key → outer < later.inner.length →
    later.KnowsAt outer key

theorem KnowsAt.congr (hknows : environment.KnowsAt outer key)
    (hinner : later.inner = environment.inner) : later.KnowsAt outer key := by
  rw [KnowsAt, hinner]
  exact hknows

theorem KnowsAt.push (hknows : environment.KnowsAt outer key) (scope : Scope) :
    (environment.push scope).KnowsAt outer key := by
  obtain ⟨inside, known, outside, hinner, hrest⟩ := hknows
  refine ⟨scope :: inside, known, outside, ?_, hrest⟩
  rw [Environment.push, hinner, List.cons_append]

/-- A scope that knows a name is found again if it is not among those that are closed. -/
theorem recalls_drop (environment : Environment) (count : Nat) :
    environment.Recalls { environment with inner := environment.inner.drop count } := by
  rintro outer key ⟨inside, scope, outside, hinner, rfl, hknown⟩ hopen
  have hcount : count ≤ inside.length := by
    rw [List.length_drop, hinner, List.length_append, List.length_cons] at hopen
    omega
  refine ⟨inside.drop count, scope, outside, ?_, rfl, hknown⟩
  dsimp only
  rw [hinner, List.drop_append_of_le_length hcount]

theorem Recalls.of_knowsAt
    (hknows : ∀ outer key, environment.KnowsAt outer key → later.KnowsAt outer key) :
    environment.Recalls later :=
  fun outer key hknown _ => hknows outer key hknown

theorem Recalls.of_inner (hinner : later.inner = environment.inner) :
    environment.Recalls later :=
  .of_knowsAt fun _ _ hknown => hknown.congr hinner

theorem recalls_pop (environment : Environment) : environment.Recalls environment.pop := by
  rw [Environment.pop, ← List.drop_one]
  exact environment.recalls_drop 1

end Environment

namespace Machine

/-! ## What a step does to the scopes -/

/-- An output closes scopes and does nothing else to them. -/
theorem exists_environment_outputThrough (machine : Machine) (value : Value)
    {segments : List Segment} (hbounded : machine.bounded = segments) :
    ∃ count, (machine.outputThrough value segments).world.environment =
      { machine.world.environment with
        inner := machine.world.environment.inner.drop count } := by
  let holds : Machine → Prop := fun later => ∃ count, later.world.environment =
    { machine.world.environment with inner := machine.world.environment.inner.drop count }
  have hgiven : ∀ later frames rest, holds later → holds (later.abandon frames rest) := by
    rintro later frames rest ⟨count, hlater⟩
    obtain ⟨log, active, habandon⟩ := later.abandon_eq frames rest
    rw [habandon]
    dsimp only [holds]
    rw [hlater, Environment.forsake_eq, List.drop_drop]
    exact ⟨_, rfl⟩
  refine outputThrough_keeps holds holds ?_ (fun _ => hgiven _ _ _) (fun _ => hgiven _ _ _) id
    hbounded ⟨0, rfl⟩
  rintro later level message ⟨count, hlater⟩
  rw [note_eq]
  exact ⟨count, hlater⟩

theorem keeps_knowsAt_schedule (call : Call) (outer : Nat) (key : String) :
    Keeps (fun machine => machine.world.environment.KnowsAt outer key) (schedule call) := by
  intro machine hknows
  rw [schedule_apply]
  split
  · exact hknows
  · split
    · exact hknows
    · rw [EStateM.Result.state_ok, enter_eq]
      dsimp only
      split
      · exact hknows
      · exact hknows.push _

theorem recalls_unschedule (machine : Machine) :
    machine.world.environment.Recalls machine.unschedule.2.world.environment := by
  cases htop : machine.frames.top? with
  | none =>
    rw [unschedule, htop]
    exact .of_inner rfl
  | some frame =>
    rw [unschedule_eq htop, note_eq, release_eq]
    dsimp only
    split
    · exact .of_inner rfl
    · exact Environment.recalls_pop _

theorem recalls_advanceProgram (machine : Machine) :
    machine.world.environment.Recalls (advanceProgram machine).state.world.environment := by
  rw [advanceProgram_apply]
  split
  · rename_i site program _
    exact .of_knowsAt fun outer key =>
      keeps_knowsAt_schedule site outer key { machine with program }
  · exact .of_inner rfl
  · rw [EStateM.Result.state_ok, note_eq]
    exact .of_inner rfl
  · exact .of_inner rfl
  · split
    · rw [EStateM.Result.state_ok, endBounded_eq, note_eq]
      exact .of_inner rfl
    · exact .of_inner rfl

theorem recalls_output {machine : Machine} {environment : Environment}
    (hknown : ∀ outer key, environment.KnowsAt outer key →
      machine.world.environment.KnowsAt outer key) (value : Value) :
    environment.Recalls (machine.output value).world.environment := by
  obtain ⟨count, hcount⟩ := machine.exists_environment_outputThrough value rfl
  intro outer key hknows hopen
  rw [Machine.output, hcount] at hopen ⊢
  exact Environment.recalls_drop _ count outer key (hknown outer key hknows) hopen

variable [Segmentation]

/-- While a scope lasts, a turn takes no name from it. -/
theorem recalls_turn (machine : Machine) (frame : Frame) :
    machine.world.environment.Recalls
      (machine.make (Forms.standard.turn frame machine.world)).state.world.environment := by
  have hknown : ∀ outer key, machine.world.environment.KnowsAt outer key →
      (Forms.standard.turn frame machine.world).world.environment.KnowsAt outer key :=
    fun outer key hknows => Forms.keeps_turn World.orderly_runSpecial
      (Environment.stable_knowsAt outer key) hknows frame
  generalize Forms.standard.turn frame machine.world = turn at hknown ⊢
  rw [make]
  cases turn.move with
  | stay => exact .of_knowsAt hknown
  | fail cause => exact .of_knowsAt hknown
  | call site =>
    exact .of_knowsAt fun outer key hknows =>
      keeps_knowsAt_schedule site outer key _ (hknown outer key hknows)
  | output value => exact recalls_output hknown value
  | pause =>
    dsimp only
    rw [EStateM.Result.state_ok, Machine.pause, note_eq]
    split <;> exact .of_knowsAt hknown
  | bounded program =>
    dsimp only
    rw [EStateM.Result.state_ok, beginBounded, note_eq]
    exact .of_knowsAt hknown

/-- No step makes a scope forget a name. -/
theorem recalls_tick (machine : Machine) :
    machine.world.environment.Recalls (tick machine).state.world.environment := by
  cases hpaused : machine.paused with
  | true =>
    rw [tick_of_paused hpaused]
    exact .of_inner rfl
  | false =>
    rw [state_tick_of_running hpaused]
    obtain ⟨-, hstep⟩ | ⟨frame, -, ⟨-, hstep⟩ | ⟨-, hstep⟩⟩ := machine.step_cases
    · rw [hstep]
      exact machine.recalls_advanceProgram
    · rw [hstep]
      exact machine.recalls_unschedule
    · rw [hstep]
      exact machine.recalls_turn frame

end Machine

/-! ## How long a call and its scope last -/

namespace FirstChanges

/-- All active calls are the same ones as before. -/
theorem exists_same {change : Frame → Frame → Prop} {frames later above below : List Frame}
    {owner : Frame} (hfirst : FirstChanges change frames later)
    (hchange : ∀ {frame later : Frame}, change frame later →
      later.call = frame.call ∧ later.definition = frame.definition)
    (hframes : frames = above ++ owner :: below) :
    ∃ inside same, later = inside ++ same :: below ∧ same.call = owner.call ∧
      same.definition = owner.definition := by
  cases hfirst with
  | none => exact absurd hframes (by simp)
  | @some frame next hnext rest =>
    cases above with
    | nil =>
      cases hframes
      exact ⟨[], next, rfl, hchange hnext⟩
    | cons first above =>
      cases hframes
      exact ⟨next :: above, owner, rfl, rfl, rfl⟩

end FirstChanges

/-- A call is the same one after a step if no less than it and the calls outside it are active. -/
theorem Reframed.exists_same {procedures : Procedures}
    {frames later above below : List Frame} {owner : Frame}
    (hreframed : Reframed procedures frames later)
    (hframes : frames = above ++ owner :: below) (hdeep : below.length < later.length) :
    ∃ inside same, later = inside ++ same :: below ∧ same.call = owner.call ∧
      same.definition = owner.definition := by
  cases hreframed with
  | @ends given rest _ hfirst =>
    have hresumes : ∀ {frame later : Frame}, frame.Resumes later →
        later.call = frame.call ∧ later.definition = frame.definition :=
      fun hresumes => ⟨hresumes.call, hresumes.definition⟩
    have hlength : later.length = rest.length := by cases hfirst <;> rfl
    obtain ⟨more, -, hrest⟩ | ⟨more, -, hrest⟩ := List.append_eq_append_iff.mp hframes
    · exact hfirst.exists_same hresumes hrest
    · cases more with
      | nil => exact @FirstChanges.exists_same _ _ _ [] _ _ hfirst hresumes hrest.symm
      | cons first more =>
        have hfewer := congrArg List.length hrest
        rw [List.length_cons, List.length_append, List.length_cons] at hfewer
        omega
  | stays hfirst =>
    exact hfirst.exists_same (fun hcontinues => ⟨hcontinues.call, hcontinues.definition⟩) hframes
  | starts _ hfirst =>
    obtain ⟨inside, same, rfl, hsame⟩ := hfirst.exists_same
      (fun hcontinues => ⟨hcontinues.call, hcontinues.definition⟩) hframes
    exact ⟨_ :: inside, same, rfl, hsame⟩

namespace Machine

variable {maxDepth : Nat} {machine later : Machine} {owner : Frame} {below : List Frame}
  {key : String}

/-- The call `owner` is active with the calls `below` outside it, and its scope knows the name. -/
structure Lasts (machine : Machine) (owner : Frame) (below : List Frame) (key : String) :
    Prop where
  frames : ∃ inside same, machine.allFrames = inside ++ same :: below ∧ same.call = owner.call ∧
    same.definition = owner.definition
  known : machine.world.environment.KnowsAt (below.countP (!·.definition.isSpecial)) key

theorem Lasts.congr (hlasts : machine.Lasts owner below key)
    (hframes : later.allFrames = machine.allFrames)
    (hinner : later.world.environment.inner = machine.world.environment.inner) :
    later.Lasts owner below key :=
  ⟨hframes ▸ hlasts.frames, hlasts.known.congr hinner⟩

/-- The scopes are those of the call, of the calls outside it and of the calls inside it. -/
theorem scopeNames_of_frames {inside : List Frame} {same : Frame}
    (hbooks : Books maxDepth machine []) (hscope : same.definition.isSpecial = false)
    (hframes : machine.allFrames = inside ++ same :: below) :
    machine.world.environment.inner.map (·.name) =
      (inside.filter (!·.definition.isSpecial)).map (·.definition.name) ++
        same.definition.name ::
          (below.filter (!·.definition.isSpecial)).map (·.definition.name) := by
  rw [hbooks.scopeNames_eq.1, hframes, List.filter_append, List.filter_cons_of_pos,
    List.map_append, List.map_cons]
  rw [hscope]
  rfl

/-- What a change of the active calls keeps if it makes no scope forget a name. -/
theorem Lasts.of_reframed (hlasts : machine.Lasts owner below key)
    (hscope : owner.definition.isSpecial = false) {procedures : Procedures}
    (hreframed : Reframed procedures machine.allFrames later.allFrames)
    (hrecalls : machine.world.environment.Recalls later.world.environment)
    (hbooks : Books maxDepth later []) (hdeep : below.length < later.depth) :
    later.Lasts owner below key := by
  obtain ⟨above, same, hframes, hcall, hdefinition⟩ := hlasts.frames
  rw [← hbooks.length_allFrames] at hdeep
  obtain ⟨inside, other, hlater, hothercall, hotherdefinition⟩ :=
    hreframed.exists_same hframes hdeep
  have hother : other.definition.isSpecial = false := by
    rw [hotherdefinition, hdefinition, hscope]
  refine ⟨⟨inside, other, hlater, hothercall.trans hcall,
    hotherdefinition.trans hdefinition⟩, hrecalls _ _ hlasts.known ?_⟩
  have hnames := congrArg List.length (scopeNames_of_frames hbooks hother hlater)
  rw [List.length_map, List.length_append, List.length_cons, List.length_map, List.length_map,
    ← List.countP_eq_length_filter, ← List.countP_eq_length_filter] at hnames
  omega

variable [Segmentation]

/-- A declaration lasts through a run that does not end its owner. -/
theorem Lasts.drive {fuel : Nat} (hbooks : Books maxDepth machine [])
    (hlasts : machine.Lasts owner below key) (hscope : owner.definition.isSpecial = false)
    (hmet : ∀ met ∈ machine.ticked fuel, below.length < met.depth)
    (hdeep : below.length < (machine.drive fuel).state.depth) :
    (machine.drive fuel).state.Lasts owner below key := by
  let holds : Machine → Prop := fun met =>
    Books maxDepth met [] ∧ (below.length < met.depth → met.Lasts owner below key)
  have hkeeps : holds (machine.drive fuel).state := by
    refine drive_keeps_of_ticked (fun met hmem hholds => ?_) (fun hholds level message => ?_)
      ⟨hbooks, fun _ => hlasts⟩
    · have hnext := (Books.lasting maxDepth).tick met hholds.1
      exact ⟨hnext, (hholds.2 (hmet met hmem)).of_reframed hscope met.evolves_tick.frames
        met.recalls_tick hnext⟩
    · refine ⟨hholds.1.note level message, ?_⟩
      rw [note_eq]
      exact fun hdeep => (hholds.2 hdeep).congr rfl rfl
  exact hkeeps.2 hdeep

/-- An operation in which the call does not end keeps the names of its scope. -/
theorem Lasts.perform (hbooks : Books maxDepth machine [])
    (hlasts : machine.Lasts owner below key) (hscope : owner.definition.isSpecial = false)
    {operation : Operation} (hmet : ∀ met ∈ machine.tickedBy operation, below.length < met.depth)
    (hdeep : below.length < (machine.perform operation).depth) :
    (machine.perform operation).Lasts owner below key := by
  have hlater := hbooks.perform operation
  cases operation with
  | read source =>
    rw [Machine.perform]
    obtain ⟨error, -, hread⟩ | ⟨program, procedures, -, hread⟩ :=
      readProgramList_cases source machine
    · rw [hread]
      exact hlasts
    · rw [hread]
      exact hlasts.congr rfl rfl
  | place datum => exact hlasts.congr rfl rfl
  | load program =>
    rw [Machine.perform, load_eq]
    exact hlasts.congr rfl rfl
  | run fuel program =>
    have hstarted : machine.started program = { machine with
        program := (machine.started program).program
        lastResult := (machine.started program).lastResult } := by
      rw [Machine.started, load_eq]
      split <;> rfl
    have hsame : Books maxDepth (machine.started program) [] ∧
        (machine.started program).Lasts owner below key := by
      rw [hstarted]
      exact ⟨hbooks.set _ _ _, hlasts.congr rfl rfl⟩
    exact hsame.2.drive hsame.1 hscope hmet hdeep
  | resume fuel =>
    have hlifted : Books maxDepth machine.lifted [] ∧
        machine.lifted.Lasts owner below key := by
      rw [Machine.lifted]
      split
      · refine ⟨(hbooks.note _ _).set _ _ _, ?_⟩
        rw [note_eq]
        exact hlasts.congr rfl rfl
      · exact ⟨hbooks, hlasts⟩
    exact hlifted.2.drive hlifted.1 hscope hmet hdeep
  | pause =>
    rw [Machine.perform, Machine.pause, note_eq]
    split <;> exact hlasts.congr rfl rfl
  | tick =>
    exact hlasts.of_reframed hscope machine.evolves_tick.frames machine.recalls_tick hlater hdeep
  | schedule call =>
    exact hlasts.of_reframed hscope ((Advances.refl machine).schedule call).frames
      (.of_knowsAt fun outer key => keeps_knowsAt_schedule call outer key machine) hlater hdeep
  | unschedule =>
    cases htop : machine.frames.top? with
    | none =>
      rw [Machine.perform, unschedule, htop]
      exact hlasts
    | some frame =>
      exact hlasts.of_reframed hscope (evolves_unschedule htop).frames
        machine.recalls_unschedule hlater hdeep
  | reset => exact absurd hdeep (Nat.not_lt_zero _)

/-- All the machines that are met while operations are performed, from the first one to the last. -/
def passedAll (machine : Machine) : List Operation → List Machine
  | [] => [machine]
  | operation :: operations =>
    machine :: machine.tickedBy operation ++ (machine.perform operation).passedAll operations

theorem mem_passedAll_self (machine : Machine) (operations : List Operation) :
    machine ∈ machine.passedAll operations := by
  cases operations <;> exact List.mem_cons_self

/-- As long as the call has not ended, its scope keeps its names, whatever is done. -/
theorem Lasts.performAll {operations : List Operation} (hbooks : Books maxDepth machine [])
    (hlasts : machine.Lasts owner below key) (hscope : owner.definition.isSpecial = false)
    (hmet : ∀ met ∈ machine.passedAll operations, below.length < met.depth) :
    Books maxDepth (machine.performAll operations) [] ∧
      (machine.performAll operations).Lasts owner below key := by
  induction operations generalizing machine with
  | nil => exact ⟨hbooks, hlasts⟩
  | cons operation operations ih =>
    rw [passedAll, List.cons_append, List.forall_mem_cons, List.forall_mem_append] at hmet
    obtain ⟨-, hticked, hrest⟩ := hmet
    have hdeep := hrest _ (mem_passedAll_self _ operations)
    exact ih (hbooks.perform operation) (hlasts.perform hbooks hscope hticked hdeep) hrest

end Machine

/-! ## Declarations -/

namespace Environment

variable {environment : Environment} {scope : Scope} {outer : List Scope}

theorem declare_of_inner (hinner : environment.inner = scope :: outer) (name : String) :
    environment.declare name =
      { environment with inner := scope.declare (Text.lowercase name) :: outer } := by
  rw [declare, modifyTop, hinner]

theorem make_of_inner {name : String} (hinner : environment.inner = scope :: outer)
    (hknown : scope.contains (Text.lowercase name) = true) (value : Value) :
    environment.make name value =
      { environment with inner := scope.set (Text.lowercase name) value :: outer } := by
  simp only [make, hinner, assignNearest?, hknown, if_true]

end Environment

namespace World

theorem exists_declare_eq (world : World) (name : String) :
    ∃ log, declare name world =
      .ok () { world with environment := world.environment.declare name, log } := by
  have hdeclare : declare name world = .ok ()
      { world.note .trace fun world => "local " ++ name ++ " in " ++ world.environment.top.name with
        environment := (world.note .trace fun world =>
          "local " ++ name ++ " in " ++ world.environment.top.name).environment.declare name } :=
    rfl
  rw [hdeclare, note_eq]
  exact ⟨_, rfl⟩

theorem exists_make_eq (world : World) (name : String) (value : Value) :
    ∃ log, make name value world =
      .ok () { world with environment := world.environment.make name value, log } := by
  have hmake : make name value world = .ok ()
      { world.note .trace fun world => "make " ++ name ++ " " ++ (world.view value).source with
        environment := (world.note .trace fun world =>
          "make " ++ name ++ " " ++ (world.view value).source).environment.make name value } :=
    rfl
  rw [hmake, note_eq]
  exact ⟨_, rfl⟩

end World

def Frame.isDeclaration (frame : Frame) : Bool :=
  match frame.definition.kind with
  | .special .declare | .special .declareMake => true
  | _ => false

def Frame.declaredIn (frame : Frame) (scope : Scope) (word : String) : Scope :=
  let key := Text.lowercase word
  match frame.definition.kind with
  | .special .declareMake => (scope.declare key).set key (frame.arguments.getD 1 .nil)
  | _ => scope.declare key

namespace Machine

variable {maxDepth : Nat} {machine : Machine} {frame owner : Frame} {below : List Frame}
  {word : String} {scope : Scope} {outer : List Scope}

/-- The next step performs `local` or `localmake` with a name. -/
structure Declares (machine : Machine) (frame : Frame) (word : String) : Prop where
  performs : machine.Performs frame
  declaration : frame.isDeclaration = true
  name : (frame.arguments.getD 0 .nil).text? = some word

section

variable (hdeclares : machine.Declares frame word)

include hdeclares

theorem Declares.form :
    frame.definition.kind = .special .declare ∨ frame.definition.kind = .special .declareMake := by
  have hdeclaration := hdeclares.declaration
  rw [Frame.isDeclaration] at hdeclaration
  split at hdeclaration
  · exact .inl ‹_›
  · exact .inr ‹_›
  · cases hdeclaration

theorem Declares.contains_declaredIn (scope : Scope) :
    (frame.declaredIn scope word).contains (Text.lowercase word) = true := by
  rw [Frame.declaredIn]
  obtain hkind | hkind := hdeclares.form
  · rw [hkind]
    exact scope.contains_declare _
  · rw [hkind]
    exact Scope.contains_set_of_contains (scope.contains_declare _) _ _

variable [Segmentation]

/-- The form declares in the innermost scope, whatever call that belongs to. -/
theorem Declares.exists_runSpecial_eq (hinner : machine.world.environment.inner = scope :: outer) :
    ∃ form value log, frame.definition.kind = .special form ∧
      World.runSpecial form frame.arguments frame.continuation frame.result machine.world =
        .ok (.done value) { machine.world with
          environment := { machine.world.environment with
            inner := frame.declaredIn scope word :: outer }
          log } := by
  have hname : World.expectName (frame.arguments.getD 0 .nil) machine.world =
      .ok (Text.lowercase word) machine.world := by
    rw [World.expectName, hdeclares.name]
    rfl
  obtain ⟨log, hdeclare⟩ := machine.world.exists_declare_eq (Text.lowercase word)
  rw [Environment.declare_of_inner hinner, Text.lowercase_lowercase] at hdeclare
  rw [Frame.declaredIn]
  obtain hkind | hkind := hdeclares.form
  · refine ⟨.declare, .none, log, hkind, ?_⟩
    rw [hkind, World.runSpecial, bind_of_ok hname, bind_of_ok hdeclare]
    rfl
  · obtain ⟨final, hmake⟩ := World.exists_make_eq
      { machine.world with
        environment := { machine.world.environment with
          inner := scope.declare (Text.lowercase word) :: outer }
        log } (Text.lowercase word) (frame.arguments.getD 1 .nil)
    have hknown := scope.contains_declare (Text.lowercase word)
    rw [Environment.make_of_inner rfl (by rwa [Text.lowercase_lowercase]),
      Text.lowercase_lowercase] at hmake
    refine ⟨.declareMake, frame.arguments.getD 1 .nil, final, hkind, ?_⟩
    rw [hkind, World.runSpecial, bind_of_ok hname, bind_of_ok hdeclare, bind_of_ok hmake]
    rfl

theorem Declares.exists_tick_eq (hinner : machine.world.environment.inner = scope :: outer) :
    ∃ next : Frame, next.call = frame.call ∧ next.definition = frame.definition ∧
      ∃ log, tick machine = .ok true (machine.withTop next { machine.world with
        environment := { machine.world.environment with
          inner := frame.declaredIn scope word :: outer }
        log }) := by
  obtain ⟨form, value, log, hkind, hrun⟩ := hdeclares.exists_runSpecial_eq hinner
  have hperforms := hdeclares.performs
  refine ⟨Frame.finish { frame with bound := true, continuation := none, result := none } value,
    rfl, rfl, log, tick_of_step hperforms.running ?_ (Stack.top?_replaceTop hperforms.top _)⟩
  rw [step_of_special hperforms.top hperforms.unevaluated hperforms.complete hperforms.enough hkind,
    hrun, proceed]

end

/-- The call `owner` is active with the calls `below` outside it, and its own scope has a variable
of this name. To read the name, no scope is looked at that lies outside it. -/
def HasLocal (machine : Machine) (owner : Frame) (below : List Frame) (word : String) : Prop :=
  ∃ inside same within scope outside,
    machine.allFrames = inside ++ same :: below ∧
    same.call = owner.call ∧ same.definition = owner.definition ∧
    machine.world.environment.inner = within ++ scope :: outside ∧
    within.map (·.name) = (inside.filter (!·.definition.isSpecial)).map (·.definition.name) ∧
    scope.name = owner.definition.name ∧
    outside.map (·.name) = (below.filter (!·.definition.isSpecial)).map (·.definition.name) ∧
    (scope.get? (Text.lowercase word)).isSome = true ∧
    machine.world.environment.thing? word =
      (within.findSome? (·.get? (Text.lowercase word))).or (scope.get? (Text.lowercase word))

theorem Lasts.hasLocal (hlasts : machine.Lasts owner below (Text.lowercase word))
    (hbooks : Books maxDepth machine []) (hscope : owner.definition.isSpecial = false) :
    machine.HasLocal owner below word := by
  obtain ⟨⟨inside, same, hframes, hcall, hdefinition⟩, hknown⟩ := hlasts
  obtain ⟨within, scope, outside, hinner, hlength, hcontains⟩ := hknown
  have hnames := scopeNames_of_frames hbooks (hdefinition ▸ hscope) hframes
  rw [hinner, List.map_append, List.map_cons] at hnames
  obtain ⟨hwithin, hrest⟩ := List.append_inj' hnames (by
    rw [List.length_cons, List.length_cons, List.length_map, List.length_map, hlength,
      List.countP_eq_length_filter])
  obtain ⟨hname, houtside⟩ := List.cons.inj hrest
  have hsome : (scope.get? (Text.lowercase word)).isSome = true := by
    rwa [Scope.get?, Option.isSome_map]
  refine ⟨inside, same, within, scope, outside, hframes, hcall, hdefinition, hinner, hwithin,
    hdefinition ▸ hname, houtside, hsome, ?_⟩
  obtain ⟨value, hvalue⟩ := Option.isSome_iff_exists.mp hsome
  rw [Environment.thing?_eq_findSome?, Environment.scopes, hinner, List.append_assoc,
    List.findSome?_append, List.cons_append, List.findSome?_cons, hvalue]

/-- The calls inside `owner` have no scopes of their own, so that the innermost one is that of
`owner`. -/
theorem exists_scope_of_dropWhile (hbooks : Books maxDepth machine [])
    (hsplit : machine.allFrames.dropWhile (·.definition.isSpecial) = owner :: below) :
    owner.definition.isSpecial = false ∧ ∃ scope outer,
      machine.world.environment.inner = scope :: outer ∧ scope.name = owner.definition.name ∧
      outer.map (·.name) =
        (below.filter (!·.definition.isSpecial)).map (·.definition.name) := by
  have hscope : owner.definition.isSpecial = false := by
    have hfirst := List.head?_dropWhile_not (fun other : Frame => other.definition.isSpecial)
      machine.allFrames
    rw [hsplit] at hfirst
    simpa using hfirst
  have hframes := (List.takeWhile_append_dropWhile
    (p := fun other : Frame => other.definition.isSpecial) (l := machine.allFrames)).symm
  rw [hsplit] at hframes
  have hnames := scopeNames_of_frames hbooks hscope hframes
  have hnone : (machine.allFrames.takeWhile (·.definition.isSpecial)).filter
      (!·.definition.isSpecial) = [] := by
    rw [List.filter_eq_nil_iff]
    intro other hmem
    rw [List.mem_takeWhile_imp hmem]
    exact Bool.false_ne_true
  rw [hnone, List.map_nil, List.nil_append] at hnames
  obtain ⟨scope, outer, hinner, hname, houter⟩ := List.map_eq_cons_iff.mp hnames
  exact ⟨hscope, scope, outer, hinner, hname, houter⟩

/-- A special form is never the procedure that is under way. -/
theorem find?_isUnderWay_of_special
    (hsplit : machine.allFrames.dropWhile (·.definition.isSpecial) = owner :: below) :
    machine.allFrames.find? Frame.isUnderWay = (owner :: below).find? Frame.isUnderWay := by
  have hforms : (machine.allFrames.takeWhile (·.definition.isSpecial)).find? Frame.isUnderWay =
      none := by
    rw [List.find?_eq_none]
    intro other hmem hunderWay
    have hspecial := List.mem_takeWhile_imp hmem
    rw [Frame.isUnderWay, Bool.and_eq_true] at hunderWay
    rw [Procedure.isSpecial_of_userDefined hunderWay.1] at hspecial
    cases hspecial
  rw [← hsplit]
  calc machine.allFrames.find? Frame.isUnderWay
      = (machine.allFrames.takeWhile (·.definition.isSpecial) ++
          machine.allFrames.dropWhile (·.definition.isSpecial)).find? Frame.isUnderWay := by
        rw [List.takeWhile_append_dropWhile]
    _ = (machine.allFrames.dropWhile (·.definition.isSpecial)).find? Frame.isUnderWay := by
        rw [List.find?_append, hforms, Option.none_or]

section

variable [Segmentation]

/-- The step that declares the name. -/
theorem Declares.exists_after (hbooks : Books maxDepth machine [])
    (hdeclares : machine.Declares frame word)
    (hsplit : machine.allFrames.dropWhile (·.definition.isSpecial) = owner :: below)
    (hinner : machine.world.environment.inner = scope :: outer)
    (houter : outer.map (·.name) =
      (below.filter (!·.definition.isSpecial)).map (·.definition.name)) :
    ∃ after, tick machine = .ok true after ∧ Books maxDepth after [] ∧
      after.world.environment =
        { machine.world.environment with inner := frame.declaredIn scope word :: outer } ∧
      after.Lasts owner below (Text.lowercase word) := by
  obtain ⟨next, hcall, hdefinition, log, htick⟩ := hdeclares.exists_tick_eq hinner
  have hafter := (Books.lasting maxDepth).tick machine hbooks
  rw [htick] at hafter
  have hframes : machine.allFrames =
      machine.allFrames.takeWhile (·.definition.isSpecial) ++ owner :: below := by
    rw [← hsplit, List.takeWhile_append_dropWhile]
  have hfirst : FirstChanges (fun frame later =>
      later.call = frame.call ∧ later.definition = frame.definition) machine.allFrames _ :=
    .replaceTop hdeclares.performs.top ⟨hcall, hdefinition⟩
      (machine.bounded.flatMap (·.frames.toList))
  refine ⟨_, htick, hafter, rfl, hfirst.exists_same id hframes, [], _, outer, rfl, ?_,
    hdeclares.contains_declaredIn scope⟩
  have hlength := congrArg List.length houter
  rwa [List.length_map, List.length_map, ← List.countP_eq_length_filter] at hlength

/-- On every machine that can be met, `local` and `localmake` declare their name in the scope of the
innermost call that has one, and nothing else changes in the environment. From then on that scope
knows the name, whatever is done, until this call is over. If the call is one of a user-defined
procedure that has all its inputs, it is the procedure that is under way. If not, the procedure
under way is one outside of it, whose scope stays as it is; and if the call still waits for an
input, its own work has not begun. -/
theorem declaration_stays_with_innermost_scoped_call (maxDepth : Nat) (console : Console)
    (log : Log) (operations : List Operation) :
    let machine := (Machine.new maxDepth console log).performAll operations
    ∀ frame word owner below, machine.Declares frame word →
      machine.allFrames.dropWhile (·.definition.isSpecial) = owner :: below →
      (∃ scope outer after,
        machine.world.environment.inner = scope :: outer ∧ scope.name = owner.definition.name ∧
        outer.map (·.name) = (below.filter (!·.definition.isSpecial)).map (·.definition.name) ∧
        tick machine = .ok true after ∧
        after.world.environment =
          { machine.world.environment with inner := frame.declaredIn scope word :: outer } ∧
        ∀ later, (∀ met ∈ after.passedAll later, below.length < met.depth) →
          (after.performAll later).HasLocal owner below word) ∧
      (owner.isUnderWay = true → machine.allFrames.find? Frame.isUnderWay = some owner) ∧
      (owner.isUnderWay = false →
        machine.allFrames.find? Frame.isUnderWay = below.find? Frame.isUnderWay) ∧
      (owner.needsArguments = true → owner.bound = false ∧ owner.cursor = 0) := by
  intro machine frame word owner below hdeclares hsplit
  have hbooks : Books maxDepth machine [] := Books.performAll maxDepth console log operations
  have hunbegun : ∀ frame ∈ machine.allFrames, frame.Unbegun :=
    frames_performAll (fun _ _ _ => ⟨rfl, rfl⟩) Frame.Unbegun.continues maxDepth console log
      operations
  have hmem : owner ∈ machine.allFrames := by
    apply (List.dropWhile_sublist _).subset
    rw [hsplit]
    exact List.mem_cons_self
  obtain ⟨hscope, scope, outer, hinner, hname, houter⟩ := exists_scope_of_dropWhile hbooks hsplit
  obtain ⟨after, htick, hafter, henvironment, hlasts⟩ :=
    hdeclares.exists_after hbooks hsplit hinner houter
  refine ⟨⟨scope, outer, after, hinner, hname, houter, htick, henvironment, ?_⟩, ?_, ?_,
    hunbegun owner hmem⟩
  · intro later hmet
    obtain ⟨hfinal, hstill⟩ := hlasts.performAll hafter hscope hmet
    exact hstill.hasLocal hfinal hscope
  · intro hunderWay
    rw [find?_isUnderWay_of_special hsplit, List.find?_cons_of_pos hunderWay]
  · intro hnot
    rw [find?_isUnderWay_of_special hsplit, List.find?_cons_of_neg]
    rw [hnot]
    exact Bool.false_ne_true

end

open scoped Graphemes

/-- In the body of `g`, the `localmake` in a block declares for `g` itself, and the next line of `g`
knows the name. -/
theorem declaration_in_block_stays_with_procedure :
    let machine := (Machine.new 10 (.new []) (.new none)).performAll
      [.read "to g\nif true [localmake \"x 5]\nprint :x\nend\ng", .run 8 (.list ⟨0, none⟩)]
    ∃ frame owner after, machine.Declares frame "x" ∧ owner.definition.name = "g" ∧
      machine.allFrames.find? Frame.isUnderWay = some owner ∧ tick machine = .ok true after ∧
      (after.performAll [.resume 5]).HasLocal owner [] "x" := by
  intro machine
  have hmachine : (machine.paused = false ∧ (machine.frames.top?.any fun frame =>
      !frame.evaluated && !frame.needsArguments && frame.isDeclaration &&
        decide (frame.definition.arity ≤ frame.arguments.length) &&
        (frame.arguments.getD 0 .nil).text? == some "x") = true) ∧
      ((machine.allFrames.dropWhile (·.definition.isSpecial)).head?.any fun owner =>
        owner.isUnderWay && owner.definition.name == "g") = true ∧
      (machine.allFrames.dropWhile (·.definition.isSpecial)).tail.isEmpty = true ∧
      (((tick machine).state.passedAll [.resume 5]).all fun met => decide (0 < met.depth)) =
        true := by
    decide +kernel
  obtain ⟨⟨hrunning, hframe⟩, howner, hbelow, hmet⟩ := hmachine
  obtain ⟨frame, htop, hframe⟩ := (Option.any_eq_true ..).mp hframe
  obtain ⟨owner, hhead, howner⟩ := (Option.any_eq_true ..).mp howner
  obtain ⟨below, hsplit⟩ := List.head?_eq_some_iff.mp hhead
  simp only [Bool.and_eq_true, Bool.not_eq_true', decide_eq_true_eq, beq_iff_eq] at hframe howner
  rw [hsplit, List.tail_cons, List.isEmpty_iff] at hbelow
  subst hbelow
  obtain ⟨⟨⟨⟨hopen, hcomplete⟩, hdeclaration⟩, henough⟩, hname⟩ := hframe
  have hdeclares : machine.Declares frame "x" :=
    ⟨⟨hrunning, htop, hopen, hcomplete, henough⟩, hdeclaration, hname⟩
  obtain ⟨⟨scope, outer, after, -, -, -, htick, -, hlater⟩, hunderWay, -, -⟩ :=
    declaration_stays_with_innermost_scoped_call 10 (.new []) (.new none) _ frame "x" owner []
      hdeclares hsplit
  rw [htick, EStateM.Result.state_ok, List.all_eq_true] at hmet
  exact ⟨frame, owner, after, hdeclares, howner.2, hunderWay howner.1, htick,
    hlater [.resume 5] fun met hmem => of_decide_eq_true (hmet met hmem)⟩

/-- But a `localmake` among the inputs of `print` declares for that call alone, and the next line of
`g` does not know the name. -/
theorem declaration_among_inputs_is_lost :
    let final := runScript 200 "to g\nprint localmake \"x 5\nprint :x\nend\ng"
      (.new 10 (.new []) (.new none))
    final.answer.toOption.isNone = true ∧ final.state.world.console.output = "5\n" ∧
      final.state.backtrace = ["thing", "print", "g"] ∧
      (final.state.world.environment.thing? "x").isNone = true := by
  decide +kernel

end Machine

end Logo
