import Logo.Proofs.ReadBack
import Logo.Proofs.RunOrBranch
import Logo.Text.Cluster

/-!
# The template that is a question mark

`map [?]` of a list puts each item in the place of the question mark, reads what comes out as code
and runs it on a stack of its own. Where the items are read back as literals, each run is one step
that gives the item again. Here such an evaluation is followed from its start to its end, and with
it what is under way at every moment.
-/

namespace Logo

/-! ## Values that stay as they are -/

namespace Store

variable {store later : Store} {value : Value} {datum : Datum}

/-- More lists change no list that there was. -/
theorem Acyclic.view_extends (hstore : store.Acyclic) (hlater : later.Acyclic)
    (hextends : store.Extends later)
    (hvalue : ∀ address ∈ value.address?, address < store.cells.size) :
    later.view value = store.view value :=
  ((hstore.matched_self.extend_right hextends).view_eq hstore hlater
    (Value.alike_self hvalue)).symm

theorem Extends.size_le (hextends : store.Extends later) :
    store.cells.size ≤ later.cells.size := by
  by_contra hless
  have hbound : later.cells.size < store.cells.size := Nat.lt_of_not_le hless
  have hcell := hextends _ _ (Array.getElem?_eq_getElem hbound)
  rw [Array.getElem?_eq_none (Nat.le_refl _)] at hcell
  cases hcell

structure Reveals (store : Store) (value : Value) (datum : Datum) : Prop where
  known : ∀ address ∈ value.address?, address < store.cells.size
  view : store.view value = datum

theorem Reveals.mono (hreveals : store.Reveals value datum) (hstore : store.Acyclic)
    (hlater : later.Acyclic) (hextends : store.Extends later) : later.Reveals value datum where
  known address haddress := Nat.lt_of_lt_of_le (hreveals.known address haddress) hextends.size_le
  view := (hstore.view_extends hlater hextends hreveals.known).trans hreveals.view

theorem reveals_place (store : Store) (datum : Datum) :
    (store.place datum).2.Reveals (store.place datum).1 datum where
  known := by
    intro address haddress
    have hshows := store.shows_place datum
    generalize (store.place datum).1 = value at haddress hshows
    cases hshows with
    | atom _ | call _ | procedure _ => cases haddress
    | list hcell =>
      cases haddress
      exact (Array.getElem?_eq_some_iff.mp hcell).1
  view := store.view_place datum

/-- The items of a list are seen as its data. -/
theorem Reveals.items (hstore : store.Acyclic) {handle : ListHandle} {items : List Datum}
    {text : Option String} {place : Option Span}
    (hreveals : store.Reveals (.list handle) (.list items text place)) :
    List.Forall₂ store.Reveals (store.items handle) items := by
  have hunfolds := (hstore.unfolds_iff _ _).mpr hreveals.view
  cases hunfolds with
  | list hitems =>
    have hboth := (List.forall₂_and_left _ _).mpr ⟨hstore.items handle, hitems⟩
    exact hboth.imp fun _ _ hitem => ⟨hitem.1, (hstore.unfolds_iff _ _).mp hitem.2⟩

/-- A built list shows what its items show. -/
theorem reveals_build (hstore : store.Acyclic) {values : List Value} {data : List Datum}
    (hvalues : List.Forall₂ store.Reveals values data) :
    (store.build values).2.Acyclic ∧
      (store.build values).2.Reveals (store.build values).1 (.list data none none) := by
  have hknown : ∀ value ∈ values, ∀ address ∈ value.address?, address < store.cells.size :=
    ((List.forall₂_and_left _ _).mp (hvalues.imp fun _ _ hreveals => ⟨hreveals.known, hreveals⟩)).1
  have hlater := hstore.build hknown
  have hextends : store.Extends (store.build values).2 := store.extends_allocate _ _
  refine ⟨hlater, ?_, ?_⟩
  · intro address haddress
    cases haddress
    simp [build, allocate]
  · apply (hlater.unfolds_iff _ _).mp
    have hcell : (store.build values).2.cells[store.cells.size]? = some ⟨values, none⟩ :=
      Array.getElem?_push_size
    have hitems : (store.build values).2.items ⟨store.cells.size, none⟩ = values := by
      rw [items, hcell]
    have hsource : (store.build values).2.source? ⟨store.cells.size, none⟩ = none := by
      rw [source?, hcell]
      rfl
    have hunfolds : List.Forall₂ (store.build values).2.Unfolds
        ((store.build values).2.items ⟨store.cells.size, none⟩) data := by
      rw [hitems]
      exact hvalues.imp fun _ _ hreveals =>
        (hlater.unfolds_iff _ _).mpr (hreveals.mono hstore hlater hextends).view
    have hlist := Unfolds.list hunfolds
    rwa [hsource] at hlist

end Store

/-! ## Worlds that only grow -/

/-- The later world differs in lists that have been added, and in the log. -/
structure World.Grown (world later : World) : Prop where
  same : ∃ store log, later = { world with store, log }
  stores : world.store.Extends later.store
  acyclic : later.store.Acyclic

namespace World.Grown

variable {world later : World}

theorem refl (hacyclic : world.store.Acyclic) : world.Grown world :=
  ⟨⟨world.store, world.log, rfl⟩, .refl _, hacyclic⟩

variable (hgrown : world.Grown later)

include hgrown

theorem store_set {store : Store} (hextends : later.store.Extends store)
    (hacyclic : store.Acyclic) :
    world.Grown { later with store } := by
  obtain ⟨⟨former, log, rfl⟩, hstores, -⟩ := hgrown
  exact ⟨⟨store, log, rfl⟩, hstores.trans hextends, hacyclic⟩

theorem log_set (log : Log) : world.Grown { later with log } := by
  obtain ⟨⟨store, former, rfl⟩, hstores, hacyclic⟩ := hgrown
  exact ⟨⟨store, log, rfl⟩, hstores, hacyclic⟩

theorem placed (datum : Datum) : world.Grown (later.placed datum) :=
  hgrown.store_set (later.store.extends_place datum) (hgrown.acyclic.place datum)

theorem sight_eq (hcovers : acyclicity.Covers world) : later.sight = world.sight := by
  have halike := World.alike_self hcovers
  obtain ⟨⟨store, log, rfl⟩, hstores, hacyclic⟩ := hgrown
  have hlater : World.Alike (fun _ _ => False) (.same world.store.cells.size) world
      { world with store, log } :=
    ⟨halike.environment, halike.store.extend_right hstores, halike.acyclicLeft, hacyclic, rfl, rfl,
      rfl⟩
  exact hlater.sight_eq.symm

end World.Grown

/-! ## Evaluations that meet nothing else -/

namespace Machine

variable [Segmentation] {machine after later : Machine} {depth : Nat}

theorem Turns.unique {other : Machine} {more : Bool} (hrunning : machine.paused = false)
    (htick : tick machine = .ok more after) (hturns : Turns depth machine other) :
    other = after := by
  cases hturns with
  | steps _ _ hother =>
    rw [htick] at hother
    cases hother
    rfl
  | resumes _ hpaused =>
    rw [hrunning] at hpaused
    cases hpaused

/-- The evaluation passes from the one machine to the other without a pause, and all machines that
it meets before are such ones. -/
structure Strides (depth : Nat) (holds : Machine → Prop) (machine later : Machine) : Prop where
  passes : Passes depth machine later
  between : ∀ met, Relation.ReflTransGen (Turns depth) machine met →
    holds met ∨ Relation.ReflTransGen (Turns depth) later met

namespace Strides

variable {holds : Machine → Prop}

theorem trans (hfirst : Strides depth holds machine after)
    (hsecond : Strides depth holds after later) : Strides depth holds machine later :=
  ⟨hfirst.passes.trans hsecond.passes, fun met hmet =>
    (hfirst.between met hmet).elim .inl (hsecond.between met)⟩

theorem step (hopen : ¬machine.Over depth) (hrunning : machine.paused = false)
    (hholds : holds machine) (hstep : Machine.step machine = .ok () after) :
    Strides depth holds machine after := by
  refine ⟨.step hopen hrunning hstep, fun met hmet => ?_⟩
  obtain rfl | ⟨next, hturns, hrest⟩ := hmet.cases_head
  · exact .inl hholds
  · rw [hturns.unique hrunning (tick_of_step_ok hrunning hstep)] at hrest
    exact .inr hrest

/-- An evaluation that comes to its end so meets no other machines at all. -/
theorem holds_of_over {met : Machine} (hstrides : Strides depth holds machine later)
    (hover : later.Over depth) (hlater : holds later)
    (hmet : Relation.ReflTransGen (Turns depth) machine met) : holds met := by
  obtain hholds | hbehind := hstrides.between met hmet
  · exact hholds
  · obtain rfl | ⟨next, hturns, -⟩ := hbehind.cases_head
    · exact hlater
    · cases hturns with
      | steps hopen _ _ => exact absurd hover hopen
      | resumes hopen _ => exact absurd hover hopen

end Strides

/-- Of what has been started since, only the call itself is under way, and the world has only
grown. -/
structure Stays (start : Machine) (call : Call) (machine : Machine) : Prop where
  running : machine.paused = false
  world : start.world.Grown machine.world
  frames : ∃ frame, frame.call = call ∧ machine.allFrames = frame :: start.allFrames

structure At (start : Machine) (call : Call) (frame : Frame) (machine : Machine) : Prop where
  running : machine.paused = false
  world : start.world.Grown machine.world
  ground : machine.ground = start.ground.push [frame]
  call_eq : frame.call = call

namespace At

variable {start : Machine} {call : Call} {frame next : Frame} {world : World}

variable (hat : At start call frame machine)

include hat

omit [Segmentation] in
theorem stays : Stays start call machine :=
  ⟨hat.running, hat.world, frame, hat.call_eq, congrArg Ground.allFrames hat.ground⟩

omit [Segmentation] in
theorem withTop (hworld : start.world.Grown world) (hcall : next.call = call) :
    At start call next (machine.withTop next world) :=
  ⟨hat.running, hworld, ground_withTop hat.ground next world, hcall⟩

theorem step (hevaluated : frame.evaluated = false) (hstep : Machine.step machine = .ok () after) :
    Strides depth (Stays start call) machine after :=
  .step (not_over_of_top? (top?_of_ground hat.ground) hevaluated) hat.running hat.stays hstep

/-- The next input is a literal and is placed. -/
theorem input {literal : Datum} (hevaluated : frame.evaluated = false)
    (hinput : frame.nextInput? = some literal) (hliteral : ∀ site, literal ≠ .call site) :
    let placed : Frame :=
      { frame with arguments := frame.arguments ++ [(machine.world.store.place literal).1] }
    let later := machine.withTop placed (machine.world.placed literal)
    Strides depth (Stays start call) machine later ∧ At start call placed later :=
  ⟨hat.step hevaluated
      (step_of_literal (top?_of_ground hat.ground) hevaluated hinput hliteral),
    hat.withTop (hat.world.placed literal) hat.call_eq⟩

end At

structure Under (start : Machine) (call : Call) (frame : Frame) (lines : List Value)
    (machine : Machine) : Prop where
  running : machine.paused = false
  world : start.world.Grown machine.world
  ground : machine.ground = (start.ground.push [frame]).under lines
  call_eq : frame.call = call

namespace Under

variable {start : Machine} {call : Call} {frame : Frame} {lines : List Value}

section

variable (hunder : Under start call frame lines machine)

include hunder

omit [Segmentation] in
theorem stays : Stays start call machine :=
  ⟨hunder.running, hunder.world, frame, hunder.call_eq, congrArg Ground.allFrames hunder.ground⟩

omit [Segmentation] in
theorem top? : machine.frames.top? = none :=
  congrArg (fun ground : Ground => ground.frames.head?) hunder.ground

theorem step (hadvance : advanceProgram machine = .ok () after) :
    Strides depth (Stays start call) machine after := by
  have hopen : ¬machine.Over depth := by
    rintro ⟨other, hother, -⟩
    rw [hunder.top?] at hother
    cases hother
  refine .step hopen hunder.running hunder.stays ?_
  rw [← hadvance]
  simp only [Machine.step, hunder.top?]

end

/-- A line that is a value is run. -/
theorem literal {line : Datum} {value : Value} {store : Store}
    (hunder : Under start call frame (value :: lines) machine) (hliteral : line.isLiteral = true)
    (hshows : store.Shows value line) :
    Strides depth (Stays start call) machine
        { machine with program := lines, lastResult := value } ∧
      Under start call frame lines { machine with program := lines, lastResult := value } := by
  have hprogram : machine.program = value :: lines := congrArg Ground.program hunder.ground
  constructor
  · apply hunder.step
    rw [advanceProgram_apply, hprogram]
    cases hshows with
    | call site => cases hliteral
    | procedure definition => cases hliteral
    | list hcell => rfl
    | atom atom => cases atom <;> first | rfl | cases hliteral
  · obtain ⟨hframes, -, hbounded⟩ := Ground.mk.inj hunder.ground
    refine ⟨hunder.running, hunder.world, ?_, hunder.call_eq⟩
    rw [Machine.ground, hframes, hbounded]
    rfl

/-- The bounded run ends, and the frame gets the last value. -/
theorem finish (hunder : Under start call frame [] machine) :
    ∃ after, Strides depth (Stays start call) machine after ∧
      At start call { frame with result := some machine.lastResult } after ∧
      after.world.store = machine.world.store := by
  obtain ⟨-, hprogram, hbounded⟩ := Ground.mk.inj hunder.ground
  let saved : Segment := ⟨.ofList (frame :: start.ground.frames), start.ground.program⟩
  refine ⟨machine.endBounded saved start.ground.bounded, hunder.step ?_, ⟨?_, ?_, ?_, ?_⟩, ?_⟩
  · rw [advanceProgram_apply, hprogram]
    dsimp only
    rw [hbounded]
    rfl
  · rw [endBounded_eq, note_apply]
    exact hunder.running
  · rw [endBounded_eq, note_apply]
    exact hunder.world.log_set _
  · rw [endBounded_eq]
    rfl
  · exact hunder.call_eq
  · rw [endBounded_eq, note_apply]

end Under

end Machine

/-! ## The template that is a question mark -/

namespace World

variable {world : World}

variable {line : Datum} {template : ListHandle} {results : List Value}

/-- A text that reads as one literal has it placed, and changes nothing else. -/
theorem readText_of_line {text : String}
    (hread : ∀ procedures, readProgram procedures text = .ok ([line], procedures)) :
    readText text world = .ok [line] world := by
  rw [readText_apply, hread]
  rfl

/-- The run of the template for a value that is read back. -/
theorem nextIteration_of_readsAs {text : Option String} {place : Option Span} {datum : Datum}
    {current : Value} {pending : List Value}
    (htemplate : world.view (.list template) = .list [.symbol "?"] text place)
    (hcurrent : world.view current = datum) (hreads : datum.ReadsAs line) :
    nextIteration .map template false results (current :: pending) world =
      .ok (.bounded [(world.store.place line).1] (.iterating ⟨current, pending, results, false⟩))
        (world.placed line) := by
  have htext : realize (world.view (.list template)) (world.view current) =
      (asLiteral datum).source := by
    rw [htemplate, hcurrent]
    rfl
  rw [nextIteration, get_bind_apply, htext, bind_of_ok (readText_of_line hreads.read),
    bind_of_ok (placeLines_apply [line] world)]
  rfl

/-- The end of the iteration. -/
theorem nextIteration_nil :
    nextIteration .map template false results [] world =
      .ok (.done (world.store.build results.reverse).1)
        { world with store := (world.store.build results.reverse).2 } := rfl

end World

/-- The frame of a `map` is about to run its template for the first of the values that are left. -/
structure Mapping [Segmentation] (start : Machine) (call : Call) (template : ListHandle)
    (results pending : List Value) (frame : Frame) (machine : Machine) : Prop extends
    Machine.At start call frame machine where
  awaits : frame.Awaits (.iterate .map)
  input : frame.arguments.getD 0 .nil = .list template
  runs : World.runSpecial (.iterate .map) frame.arguments frame.continuation frame.result
    machine.world = World.nextIteration .map template false results pending machine.world

namespace Mapping

variable [Segmentation]
variable {start machine : Machine} {call : Call} {template : ListHandle} {frame : Frame}
  {current : Value} {results pending : List Value} {depth : Nat} {lines : List Datum}

variable {text : Option String} {place : Option Span}

theorem step_eq (hmapping : Mapping start call template results pending frame machine) :
    Machine.step machine =
      machine.proceed { frame with bound := true, continuation := none, result := none }
        (World.nextIteration .map template false results pending machine.world) := by
  rw [Machine.step_of_awaits (Machine.top?_of_ground hmapping.ground) hmapping.awaits,
    hmapping.runs]

/-- One round: the template is run for the current value, and what has been read back becomes a
result. -/
theorem round (hmapping : Mapping start call template results (current :: pending) frame machine)
    {datum line : Datum}
    (htemplate : machine.world.view (.list template) = .list [.symbol "?"] text place)
    (hcurrent : machine.world.view current = datum) (hreads : datum.ReadsAs line) :
    ∃ after next value, Machine.Strides depth (Machine.Stays start call) machine after ∧
      Mapping start call template (value :: results) pending next after ∧
      after.world.store = (machine.world.store.place line).2 ∧
      value = (machine.world.store.place line).1 := by
  have hstep := hmapping.step_eq
  rw [World.nextIteration_of_readsAs htemplate hcurrent hreads] at hstep
  let state : IterationState := ⟨current, pending, results, false⟩
  let waiting : Frame :=
    { frame with bound := true, continuation := some (.iterating state), result := none }
  let value := (machine.world.store.place line).1
  have hat : Machine.At start call waiting (machine.withTop waiting (machine.world.placed line)) :=
    hmapping.toAt.withTop (hmapping.world.placed line) hmapping.call_eq
  have hunder : Machine.Under start call waiting [value]
      ((machine.withTop waiting (machine.world.placed line)).beginBounded [value]) := by
    refine ⟨?_, ?_, ?_, hmapping.call_eq⟩
    · rw [Machine.beginBounded, Machine.note_apply]
      exact hat.running
    · rw [Machine.beginBounded, Machine.note_apply]
      exact hat.world.log_set _
    · rw [Machine.ground_beginBounded, hat.ground]
  have hfirst : Machine.Strides depth (Machine.Stays start call) machine _ :=
    hmapping.toAt.step hmapping.awaits.unevaluated hstep
  obtain ⟨hsecond, hrest⟩ :=
    hunder.literal hreads.literal (machine.world.store.shows_place line)
  obtain ⟨after, hthird, hafter, hstore⟩ := hrest.finish
  refine ⟨after, _, value, (hfirst.trans hsecond).trans hthird, ⟨hafter, ?_, hmapping.input, ?_⟩,
    hstore.trans ?_, rfl⟩
  · exact ⟨hmapping.awaits.kind, hmapping.awaits.unevaluated, hmapping.awaits.complete,
      hmapping.awaits.enough⟩
  · rw [World.runSpecial]
    dsimp only
    rw [hmapping.input]
    rfl
  · rw [Machine.beginBounded, Machine.note_apply]
    rfl

/-- All rounds: the results are what has been read back. -/
theorem run (hmapping : Mapping start call template results pending frame machine)
    {items found : List Datum} (hreads : List.Forall₂ Datum.ReadsAs items lines)
    (htemplate : machine.world.store.Reveals (.list template) (.list [.symbol "?"] text place))
    (hpending : List.Forall₂ machine.world.store.Reveals pending items)
    (hresults : List.Forall₂ machine.world.store.Reveals results.reverse found) :
    ∃ after last value, Machine.Strides depth (Machine.Stays start call) machine after ∧
      Machine.At start call last after ∧ last.evaluated = true ∧ last.result = some value ∧
      after.view value = .list (found ++ lines) none none := by
  induction hreads generalizing machine frame results pending found with
  | nil =>
    cases hpending
    have hstep := hmapping.step_eq
    rw [World.nextIteration_nil] at hstep
    obtain ⟨hacyclic, hbuilt⟩ := Store.reveals_build hmapping.world.acyclic hresults
    have hworld := hmapping.world.store_set (machine.world.store.extends_allocate _ _) hacyclic
    refine ⟨_, _, _, hmapping.toAt.step hmapping.awaits.unevaluated hstep,
      hmapping.toAt.withTop hworld hmapping.call_eq, rfl, rfl, ?_⟩
    rw [List.append_nil]
    exact hbuilt.view
  | @cons item line items lines hitem _ ih =>
    obtain ⟨current, others, hcurrent, hothers, rfl⟩ := List.forall₂_cons_right_iff.mp hpending
    obtain ⟨middle, next, value, hstrides, hnext, hstore, hvalue⟩ :=
      hmapping.round htemplate.view hcurrent.view hitem
    have hmono : ∀ {value : Value} {datum : Datum}, machine.world.store.Reveals value datum →
        middle.world.store.Reveals value datum := by
      intro value datum hreveals
      rw [hstore]
      exact hreveals.mono hmapping.world.acyclic (hmapping.world.acyclic.place line)
        (machine.world.store.extends_place line)
    have hlast : middle.world.store.Reveals value line := by
      rw [hstore, hvalue]
      exact machine.world.store.reveals_place line
    have hfound : List.Forall₂ middle.world.store.Reveals (value :: results).reverse
        (found ++ [line]) := by
      rw [List.reverse_cons]
      exact List.rel_append (hresults.imp fun _ _ => hmono) (.cons hlast .nil)
    obtain ⟨after, last, final, hrest, hat, hover, hresult, hview⟩ :=
      ih hnext (hmono htemplate) (hothers.imp fun _ _ => hmono) hfound
    refine ⟨after, last, final, hstrides.trans hrest, hat, hover, hresult, ?_⟩
    rw [hview, List.append_assoc]
    rfl

end Mapping

def Ending.value? : Ending → Option Datum
  | .over _ value => some value
  | .failed _ => none

def Ending.cause? : Ending → Option RuntimeError
  | .over _ _ => none
  | .failed cause => some cause

def mapProcedure : Procedure :=
  specialProcedure "map" ["template", "values"] (.iterate .map)

theorem find?_map : Procedures.standard.find? "map" = some mapProcedure :=
  Procedures.find?_of_provides (by decide +kernel)

def mapCall (template list : Datum) (here : Span) : Call :=
  ⟨"map", [template, list], here⟩

namespace Machine

section

variable [Segmentation] {machine : Machine} {items lines : List Datum} {mark text : Option String}
  {markPlace place : Option Span} {here : Span}

/-- When the call has been started and its inputs placed, the rounds begin. -/
theorem exists_mapping (hrunning : machine.paused = false) (hacyclic : machine.world.store.Acyclic)
    (mark text : Option String) (markPlace place : Option Span) (items : List Datum) (here : Span)
    (depth : Nat) :
    let call := mapCall (.list [.symbol "?"] mark markPlace) (.list items text place) here
    ∃ template frame pending later,
      Strides depth (Stays machine call) (machine.enter call mapProcedure) later ∧
      Mapping machine call template [] pending frame later ∧
      later.world.store.Reveals (.list template) (.list [.symbol "?"] mark markPlace) ∧
      List.Forall₂ later.world.store.Reveals pending items := by
  intro call
  have hat : At machine call (.new call mapProcedure) (machine.enter call mapProcedure) := by
    refine ⟨?_, ?_, ground_enter machine call mapProcedure, rfl⟩
    · rw [enter_eq]
      exact hrunning
    · rw [enter_eq]
      exact (World.Grown.refl hacyclic).log_set _
  obtain ⟨hfirst, hplaced⟩ := hat.input rfl rfl (by simp)
  obtain ⟨hsecond, hready⟩ := hplaced.input rfl rfl (by simp)
  have htemplate := (Store.reveals_place _ (.list [.symbol "?"] mark markPlace)).mono
    hplaced.world.acyclic hready.world.acyclic (Store.extends_place _ _)
  have hlist := Store.reveals_place
    (machine.enter call mapProcedure |>.world.placed (.list [.symbol "?"] mark markPlace)).store
    (.list items text place)
  exact ⟨_, _, _, _, hfirst.trans hsecond,
    ⟨hready, ⟨rfl, rfl, rfl, Nat.le_refl 2⟩, rfl, rfl⟩, htemplate,
    Store.Reveals.items hready.world.acyclic hlist⟩

/-- The call comes to its end with what has been read back, and meets nothing else. -/
theorem evaluates_map {maxDepth : Nat} (hbooks : Books maxDepth machine [])
    (hcovers : acyclicity.Covers machine.world)
    (hmap : machine.world.environment.procedures.find? "map" = Procedures.standard.find? "map")
    (hrunning : machine.paused = false) (hfits : machine.depth < maxDepth)
    (hreads : List.Forall₂ Datum.ReadsAs items lines) :
    let call := mapCall (.list [.symbol "?"] mark markPlace) (.list items text place) here
    machine.Evaluates call
        ⟨[], .over (machine.depth + 1) (.list lines none none), machine.world.sight⟩ ∧
      ∀ met, machine.Meets call met → Stays machine call met := by
  intro call
  rw [← hbooks.maxDepth_eq] at hfits
  have hschedule : schedule call machine = .ok () (machine.enter call mapProcedure) :=
    schedule_of_fits (hmap.trans find?_map) hfits
  obtain ⟨template, frame, pending, middle, hbegin, hmapping, htemplate, hpending⟩ :=
    exists_mapping hrunning hcovers.store mark text markPlace place items here (machine.depth + 1)
  obtain ⟨after, last, value, hrest, hat, hevaluated, hresult, hview⟩ :=
    hmapping.run hreads htemplate hpending .nil
  have hstrides := hbegin.trans hrest
  have hbooksAfter : Books maxDepth after [] := by
    have hstarted := hbooks.schedule call
    rw [hschedule] at hstarted
    exact hstarted.passes hstrides.passes
  have hdepth : after.depth = machine.depth + 1 := by
    obtain ⟨other, -, hframes⟩ := hat.stays.frames
    rw [← hbooksAfter.length_allFrames, hframes, List.length_cons, hbooks.length_allFrames]
  have htop := top?_of_ground hat.ground
  constructor
  · rw [Evaluates, hschedule]
    dsimp only
    rw [hstrides.passes.settles, settles_of_over htop hevaluated hdepth.le, hdepth, hresult,
      Option.getD_some, hview, hat.world.sight_eq hcovers]
    rfl
  · rintro met ⟨started, hstarted, hmet⟩
    rw [hschedule] at hstarted
    cases hstarted
    exact hstrides.holds_of_over ⟨last, htop, hevaluated, hdepth.le⟩ hat.stays hmet

/-- For every list that is read from a text, `map [?]` of the list gives an equal list, if its own
words are numerals that do not end in their point or have no colons and parentheses; these are the
words that are read back as one literal equal to them, and lists in the list may hold any words. The
value is the same on all machines that can be met, if they are not paused, know `map` as it is built
in and have room for one more call. No variable or procedure, no output and no turtle can be seen to
change at any moment, and apart from the call itself, no call is ever under way: so no procedure is
called, and as variables are read by calls, no variable is read. -/
theorem map_of_question_mark_gives_equal_list (source : String) (data items : List Datum)
    (origin place : Option Span) (hread : readList source = .ok (.list data (some source) origin))
    (hitems : Datum.unplacedAll items = Datum.unplacedAll data) :
    (∀ item ∈ items, item.readsBack = true ↔ ∃ line, item.ReadsAs line) ∧
    ((∀ item ∈ items, item.readsBack = true) →
      ∃ value : Datum, value.equal (.list items (some source) place) = true ∧
        ∀ (maxDepth : Nat) (console : Console) (log : Log) (operations : List Operation)
          (mark : Option String) (markPlace : Option Span) (here : Span),
          let machine := (Machine.new maxDepth console log).performAll operations
          let call := mapCall (.list [.symbol "?"] mark markPlace)
            (.list items (some source) place) here
          machine.world.environment.procedures.find? "map" = Procedures.standard.find? "map" →
          machine.paused = false → machine.depth < maxDepth →
          machine.Evaluates call ⟨[], .over (machine.depth + 1) value, machine.world.sight⟩ ∧
          ∀ met, machine.Meets call met → met.paused = false ∧
            met.world.sight = machine.world.sight ∧
            ∃ frame, frame.call = call ∧ met.allFrames = frame :: machine.allFrames) := by
  have htext : ListText source.toList (Datum.unplacedAll items) :=
    hitems ▸ listText_of_readList hread
  have hiff : ∀ item ∈ items, item.readsBack = true ↔ ∃ line, item.ReadsAs line :=
    fun item hmem => htext.readsBack_iff hmem
  refine ⟨hiff, fun hback => ?_⟩
  obtain ⟨lines, hreads⟩ :=
    Datum.exists_readsAs_all fun item hmem => (hiff item hmem).mp (hback item hmem)
  refine ⟨.list lines none none, Datum.equalAll_of_readsAs hreads, ?_⟩
  intro maxDepth console log operations mark markPlace here machine call hmap hrunning hfits
  have hbooks : Books maxDepth machine [] := Books.performAll maxDepth console log operations
  have hguards : acyclicity.Guards machine := guards_performAll maxDepth console log operations
  obtain ⟨hevaluates, hmeets⟩ := evaluates_map hbooks hguards.world hmap hrunning hfits hreads
  refine ⟨hevaluates, fun met hmet => ?_⟩
  have hstays := hmeets met hmet
  exact ⟨hstays.running, hstays.world.sight_eq hguards.world, hstays.frames⟩

end

open scoped Graphemes

/-- While a procedure is under way, a list of several kinds of words is mapped to an equal one. The
list inside it holds words that would not be read back. -/
theorem map_of_question_mark_in_procedure :
    let machine := (Machine.new 10 (.new []) (.new none)).performAll
      [.read "to f :a\nprint :a\nend\nf 5", .run 4 (.list ⟨0, none⟩)]
    let list : Datum := .list [.symbol "007", .symbol "a;b", .symbol "1.50",
      .list [.symbol "x:a", .symbol "1."] (some "x:a 1.") none] (some "007 a;b 1.50 [x:a 1.]") none
    machine.depth = 2 ∧
      ∃ value, value.equal list = true ∧
        machine.Evaluates (mapCall (.list [.symbol "?"] none none) list .nowhere)
          ⟨[], .over 3 value, machine.world.sight⟩ := by
  intro machine list
  have hread : readList "007 a;b 1.50 [x:a 1.]" = .ok
      (.list [.symbol "007", .symbol "a;b", .symbol "1.50",
        .list [.symbol "x:a", .symbol "1."] (some "x:a 1.") (some ⟨14, 22, 1, 15⟩)]
        (some "007 a;b 1.50 [x:a 1.]") (some ⟨0, 23, 1, 1⟩)) := by
    with_unfolding_all rfl
  have hmachine : machine.world.environment.procedures.provides "map" ["template", "values"]
      (.iterate .map) = true ∧ machine.paused = false ∧ machine.depth = 2 := by
    decide +kernel
  obtain ⟨hmap, hrunning, hdepth⟩ := hmachine
  obtain ⟨-, hgives⟩ := map_of_question_mark_gives_equal_list _ _
    [.symbol "007", .symbol "a;b", .symbol "1.50",
      .list [.symbol "x:a", .symbol "1."] (some "x:a 1.") none] _ none hread rfl
  have hback : ∀ item ∈ [.symbol "007", .symbol "a;b", .symbol "1.50",
      .list [.symbol "x:a", .symbol "1."] (some "x:a 1.") none],
      Datum.readsBack item = true :=
    List.all_eq_true.mp (by decide +kernel)
  obtain ⟨value, hequal, hevaluates⟩ := hgives hback
  have hall := hevaluates 10 (.new []) (.new none)
    [.read "to f :a\nprint :a\nend\nf 5", .run 4 (.list ⟨0, none⟩)] none none .nowhere
    ((Procedures.find?_of_provides hmap).trans find?_map.symm) hrunning
    (Nat.lt_of_le_of_lt hdepth.le (by decide))
  refine ⟨hdepth, value, hequal, ?_⟩
  have hover := hall.1
  rw [show Machine.depth _ = 2 from hdepth] at hover
  exact hover

/-- A word with a colon is read back as two lines, the second of which reads a variable: it gives
another list, or fails. And a numeral that ends in its point cannot be read back at all. -/
theorem map_of_question_mark_reads_variable :
    let machine := (Machine.new 10 (.new []) (.new none)).performAll
      [.read "to f :a\nprint :a\nend\nf 5", .run 4 (.list ⟨0, none⟩)]
    let mapped := fun word : String => mapCall (.list [.symbol "?"] none none)
      (.list [.symbol word] (some word) none) .nowhere
    (∀ word ∈ ["x:a", "x:b", "1."], ∃ place,
      readList word = .ok (.list [.symbol word] (some word) place)) ∧
    (∃ report, machine.Evaluates (mapped "x:a") report ∧
      report.ending.value?.map Datum.display = some "[5]") ∧
    (∃ report, machine.Evaluates (mapped "x:b") report ∧
      report.ending.cause?.map RuntimeError.message = some "b has no value") ∧
    (∃ report, machine.Evaluates (mapped "1.") report ∧
      report.ending.cause?.map RuntimeError.message =
        some "Lexical error at line 1, column 2: Unexpected character: '.' in [1.]") := by
  intro machine mapped
  have hreports :
      (machine.evaluate? (mapped "x:a") 30).any
        (fun report => report.ending.value?.map Datum.display = some "[5]") = true ∧
      (machine.evaluate? (mapped "x:b") 30).any (fun report =>
        report.ending.cause?.map RuntimeError.message = some "b has no value") = true ∧
      (machine.evaluate? (mapped "1.") 30).any (fun report =>
        report.ending.cause?.map RuntimeError.message =
          some "Lexical error at line 1, column 2: Unexpected character: '.' in [1.]") = true := by
    decide +kernel
  have hread : ∀ word ∈ ["x:a", "x:b", "1."], ∃ place,
      readList word = .ok (.list [.symbol word] (some word) place) := by
    simp only [List.forall_mem_cons]
    refine ⟨⟨some ⟨0, 5, 1, 1⟩, ?_⟩, ⟨some ⟨0, 5, 1, 1⟩, ?_⟩, ⟨some ⟨0, 4, 1, 1⟩, ?_⟩,
      List.forall_mem_nil _⟩
    all_goals with_unfolding_all rfl
  obtain ⟨hother, hnone, hpoint⟩ := hreports
  obtain ⟨first, hfirst, hdisplay⟩ := exists_evaluates hother
  obtain ⟨second, hsecond, hcause⟩ := exists_evaluates hnone
  obtain ⟨third, hthird, hfault⟩ := exists_evaluates hpoint
  exact ⟨hread, ⟨first, hfirst, of_decide_eq_true hdisplay⟩,
    ⟨second, hsecond, of_decide_eq_true hcause⟩, third, hthird, of_decide_eq_true hfault⟩

end Machine

end Logo
