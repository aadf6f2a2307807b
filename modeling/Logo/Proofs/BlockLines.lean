import Logo.Proofs.Abreast

/-!
# From line to line

Between two calls of a block lie literals. Where the block is a bounded run, each of them is a line
of its own, and its lists have been placed at the beginning. Where the block is kept, all of them
are passed in one step, and their lists are placed then. When the one machine has caught up with the
other, both make the next call, or both have come to the end of the block.
-/

namespace Logo

/-! ## Lists that have been put aside -/

namespace Store

variable {store later : Store} {start stop address : Nat} {value : Value} {values : List Value}
  {datum : Datum} {data : List Datum}

/-- Only the cells of the region matter. -/
theorem Laid.transfer (hlaid : store.Laid start values data stop)
    (hcells : ∀ address cell, start ≤ address → address < stop →
      store.cells[address]? = some cell → later.cells[address]? = some cell) :
    later.Laid start values data stop := by
  induction hlaid with
  | nil start => exact .nil start
  | atom value _ ih => exact .atom value (ih hcells)
  | call site _ ih => exact .call site (ih hcells)
  | procedure definition _ ih => exact .procedure definition (ih hcells)
  | list hinside hcell hrest ihInside ihRest =>
    have hbefore := hinside.le
    have hbehind := hrest.le
    refine .list (ihInside ?_) (hcells _ _ hbefore (by omega) hcell) (ihRest ?_)
    · exact fun address cell hstart hstop => hcells address cell hstart (by omega)
    · exact fun address cell hstart hstop => hcells address cell (by omega) hstop

theorem Laid.exists_cell (hlaid : store.Laid start values data stop) (hstart : start ≤ address)
    (hstop : address < stop) : ∃ cell, store.cells[address]? = some cell := by
  induction hlaid with
  | nil start => omega
  | atom _ _ ih | call _ _ ih | procedure _ _ ih => exact ih hstart hstop
  | @list start middle stop _ _ _ _ _ _ hinside hcell hrest ihInside ihRest =>
    rcases Nat.lt_trichotomy address middle with hbefore | rfl | hbehind
    · exact ihInside hstart hbefore
    · exact ⟨_, hcell⟩
    · exact ihRest hbehind hstop

/-- The lists of the first line lie before those of the others. -/
theorem Laid.uncons (hlaid : store.Laid start (value :: values) (datum :: data) stop) :
    ∃ middle, store.Laid start [value] [datum] middle ∧ store.Laid middle values data stop := by
  cases hlaid with
  | atom value hrest => exact ⟨start, .atom value (.nil _), hrest⟩
  | call site hrest => exact ⟨start, .call site (.nil _), hrest⟩
  | procedure definition hrest => exact ⟨start, .procedure definition (.nil _), hrest⟩
  | list hinside hcell hrest => exact ⟨_, .list hinside hcell (.nil _), hrest⟩

theorem Matched.weaken {reserve less : Reserve} {pairs : Matching} {left right : Store}
    (hmatched : left.Matched reserve pairs right)
    (hless : ∀ address cell, less address cell → reserve address cell) :
    left.Matched less pairs right :=
  ⟨hmatched.forward, hmatched.backward, hmatched.cells,
    fun hkept => hmatched.kept (hless _ _ hkept), fun hkept => hmatched.free (hless _ _ hkept)⟩

end Store

/-! ## Where the stacks are joined -/

/-- Two calls that run the same block above the same ground. The one has made a bounded run of it,
whose lines are values; the other keeps the lines that are left. -/
structure Seam where
  run : Frame
  branch : Frame
  base : Ground
  values : List Value
  block : Block
  /-- The lists of the values lie in a region of this store. -/
  store : Store
  start : Nat
  stop : Nat
  laid : store.Laid start values block.lines stop
  /-- No line is a definition. -/
  plain : ∀ definition, Datum.procedure definition ∉ block.lines
  run_awaits : run.Awaits .run
  run_kept : run.continuation = some .running
  branch_awaits : branch.Awaits .ifElse
  branch_fresh : { branch with bound := true, continuation := none, result := none } = branch
  branch_inputs : branch.arguments.getD 0 .nil = .boolean true ∧
    ∃ handle, branch.arguments.getD 1 .nil = .list handle

namespace Seam

variable (seam : Seam)

/-- The lists of the lines that are left, which the program has not got hold of. -/
def reserve : Reserve := fun address cell =>
  seam.start ≤ address ∧ address < seam.stop ∧ seam.store.cells[address]? = some cell

def left : Ground :=
  (seam.base.push [seam.run]).under seam.values

def right : Ground :=
  seam.base.push [{ seam.branch with continuation := some (.block seam.block) }]

def junction : Junction where
  base := seam.base
  left := seam.left
  right := seam.right
  height_eq := by
    rw [left, right, Ground.height_under, Ground.height_push, Ground.height_push]
    rfl
  height_lt := by
    rw [left, Ground.height_under, Ground.height_push, List.length_singleton]
    omega
  unwinds huser := by
    have hrun := Ground.primitive_singleton seam.run_awaits.isUserDefined
    rw [left, Ground.allFrames_under] at huser
    -- The calls of the block are passed themselves, and below them the grounds are the same.
    obtain ⟨passed, target, rest, hunwinds⟩ :=
      Ground.exists_unwinds (Ground.exists_userDefined_below huser hrun)
    exact ⟨_, _, target, rest, .outward (List.forall_mem_nil _) (hunwinds.push hrun),
      hunwinds.push (Ground.primitive_singleton seam.branch_awaits.isUserDefined),
      .cons (seam.run_awaits.isSpecial.trans seam.branch_awaits.isSpecial.symm)
        (Frame.closeAlike_self passed), hunwinds.height_lt⟩

abbrev Above (left right : Machine) : Prop :=
  seam.junction.Above (.alike seam.reserve) left right

abbrev Onward (left right : Machine) : Prop :=
  seam.junction.Onward (.alike seam.reserve) left right

abbrev Steps (first second : EStateM.Result RuntimeError Machine Unit) : Prop :=
  StepsAlike (.alike seam.reserve) seam.Onward first second

end Seam

theorem Likeness.hosts_alike (reserve : Reserve) : (Likeness.alike reserve).Hosts where
  builds := alike_builds reserve
  code _ := trivial
  setLog log other hworlds := World.Alike.log_set hworlds log other
  push name hworlds := World.Alike.environment_set hworlds (hworlds.environment.push name)
  pop hworlds := World.Alike.environment_set hworlds hworlds.environment.pop
  sight_eq hworlds := World.Alike.sight_eq hworlds

namespace Seam

variable (seam : Seam) {line : Value} {values : List Value} {datum : Datum} {lines : List Datum}

def next (middle : Nat) (hlaid : seam.store.Laid middle values lines seam.stop)
    (hlines : seam.block.lines = datum :: lines) (value : Value) : Seam :=
  { seam with
    values
    block := ⟨lines, value⟩
    start := middle
    laid := hlaid
    plain := fun definition hmem =>
      seam.plain definition (hlines ▸ List.mem_cons_of_mem datum hmem) }

/-- The lists of the next line, which the one program gets hold of now, belong to those that the
other places now. -/
theorem claim {middle : Nat} (hfirst : seam.store.Laid seam.start [line] [datum] middle)
    (hrest : seam.store.Laid middle values lines seam.stop)
    (hlines : seam.block.lines = datum :: lines) {pairs : Matching} {left right : World}
    (hworld : left.Alike seam.reserve pairs right) (value : Value) :
    ∃ later : Matching, pairs.Grows later ∧
      left.Alike (seam.next middle hrest hlines value).reserve later (right.placed datum) ∧
      line.Alike later (right.store.place datum).1 := by
  have hbefore := hfirst.le
  have hbehind := hrest.le
  have hlaid : left.store.Laid seam.start [line] [datum] middle := by
    apply hfirst.transfer
    intro address cell hstart hstop hcell
    exact hworld.store.kept ⟨hstart, by omega, hcell⟩
  have hmatched : left.store.Matched (seam.next middle hrest hlines value).reserve pairs
      right.store := by
    apply hworld.store.weaken
    rintro address cell ⟨hstart, hstop, hcell⟩
    exact ⟨Nat.le_trans hbefore hstart, hstop, hcell⟩
  obtain ⟨later, hgrows, -, hafter, halike⟩ := Store.Matched.placeAll hlaid hmatched
    (by
      rintro first second hpair ⟨hstart, hstop⟩
      obtain ⟨cell, hcell⟩ := hfirst.exists_cell hstart hstop
      exact hworld.store.free ⟨hstart, by omega, hcell⟩ hpair)
    (by
      rintro address cell ⟨hstart, -⟩ hbounds
      exact absurd hstart (Nat.not_le.mpr hbounds.2))
  simp only [Store.placeAll] at hafter halike
  obtain ⟨hvalue, -⟩ := List.forall₂_cons.mp halike
  exact ⟨later, hgrows, ⟨hworld.environment.mono hgrows, hafter, hworld.acyclicLeft,
    hworld.acyclicRight.place datum, hworld.console, hworld.turtle, hworld.symbols⟩, hvalue⟩

end Seam

/-! ## The lines of a block -/

namespace World

def runLines (value : Value) (lines : List Datum) : Action Progress := do
  match ← stepLines value lines with
  | .calls site block => return .call site (.block block)
  | .ends value => return .done value

theorem runLines_literal {literal : Datum} (hcall : ∀ site, literal ≠ .call site)
    (hsymbol : ∀ name, literal ≠ .atom (.symbol name))
    (hprocedure : ∀ definition, literal ≠ .procedure definition) (value : Value)
    (lines : List Datum) (world : World) :
    runLines value (literal :: lines) world =
      runLines (world.store.place literal).1 lines (world.placed literal) := by
  rw [runLines, stepLines]
  · rfl
  · exact hcall
  · exact hsymbol
  · exact hprocedure

end World

namespace Machine

variable [Segmentation] {machine : Machine} {frame : Frame} {form : Special}

/-- A form that has all its inputs is run. -/
theorem step_of_awaits (htop : machine.frames.top? = some frame) (hawaits : frame.Awaits form) :
    step machine =
      machine.proceed { frame with bound := true, continuation := none, result := none }
        (World.runSpecial form frame.arguments frame.continuation frame.result machine.world) :=
  step_of_special htop hawaits.unevaluated hawaits.complete hawaits.enough hawaits.kind

end Machine

variable [Segmentation]

/-- The one machine is between two lines of its bounded run. The other is about to run the same
lines in one step; of those that the first one has run, `value` is the last value, and `world` is
what it will find then. -/
structure Crossing (seam : Seam) (pairs : Matching) (value : Value) (world : World)
    (left right : Machine) : Prop where
  groundLeft : left.ground = seam.left
  groundRight : ∃ frame, right.ground = seam.base.push [frame] ∧ frame.evaluated = false
  step : Machine.step right =
    right.proceed seam.branch (World.runLines value seam.block.lines world)
  last : left.lastResult.Alike pairs value
  world : left.world.Alike seam.reserve pairs world
  running : left.paused = false ∧ right.paused = false
  maxDepth : left.maxDepth = right.maxDepth

/-- The one machine has left its bounded run, and the other is about to come to the end of the
block. -/
structure Settling (seam : Seam) (pairs : Matching) (value : Value) (world : World)
    (left right : Machine) : Prop where
  groundLeft : ∃ last, left.ground = seam.base.push [{ seam.run with result := some last }] ∧
    last.Alike pairs value
  groundRight : ∃ frame, right.ground = seam.base.push [frame] ∧ frame.evaluated = false
  step : Machine.step right = .ok () (right.withTop (seam.branch.finish value) world)
  world : left.world.Alike seam.reserve pairs world
  running : left.paused = false ∧ right.paused = false

variable {seam : Seam} {pairs : Matching} {value : Value} {left right : Machine}

/-- A block that has waited for a call goes on with the next line. -/
theorem Seam.crossing {finished : Value}
    (hback : seam.junction.Back (.alike seam.reserve) pairs value finished left right) :
    Crossing seam pairs finished right.world left right := by
  have hcomplete : Frame.needsArguments { seam.branch with
      continuation := some (.block seam.block) } = false := seam.branch_awaits.complete
  have hground : right.ground = seam.base.push [{ seam.branch with
      continuation := some (.block seam.block)
      result := some finished }] := by
    refine hback.groundRight.trans ?_
    change seam.base.push [Frame.receive _ _] = _
    rw [Frame.receive, hcomplete]
    rfl
  have hawaits : Frame.Awaits { seam.branch with
      continuation := some (.block seam.block)
      result := some finished } .ifElse :=
    ⟨seam.branch_awaits.kind, seam.branch_awaits.unevaluated, seam.branch_awaits.complete,
      seam.branch_awaits.enough⟩
  have hruns : World.runSpecial .ifElse seam.branch.arguments (some (.block seam.block))
      (some finished) = World.runLines finished seam.block.lines := by
    obtain ⟨htrue, handle, hlist⟩ := seam.branch_inputs
    rw [World.runSpecial]
    dsimp only
    rw [htrue, hlist]
    rfl
  refine ⟨hback.groundLeft, ⟨_, hground, seam.branch_awaits.unevaluated⟩, ?_, ?_, hback.akin.world,
    ⟨hback.running, hback.akin.paused.symm.trans hback.running⟩, hback.akin.maxDepth⟩
  · rw [Machine.step_of_awaits (Machine.top?_of_ground hground) hawaits]
    dsimp only
    rw [hruns, seam.branch_fresh]
  · rw [hback.last.1]
    exact hback.values

namespace Crossing

variable {seam : Seam} {pairs : Matching} {value : Value} {world : World} {left right : Machine}

variable (hcrossing : Crossing seam pairs value world left right)

variable {lines : List Datum} {values : List Value}

include hcrossing

theorem step_left : Machine.step left = Machine.advanceProgram left := by
  have htop : left.frames.top? = none :=
    congrArg (fun ground : Ground => ground.frames.head?) hcrossing.groundLeft
  simp only [Machine.step, htop]

theorem program_eq : left.program = seam.values :=
  congrArg Ground.program hcrossing.groundLeft

/-- The one machine takes a literal from its lines. The other will have passed it too. -/
theorem literal {literal : Datum} {line : Value} (hlines : seam.block.lines = literal :: lines)
    (hvalues : seam.values = line :: values) (hcall : ∀ site, literal ≠ .call site)
    (hsymbol : ∀ name, literal ≠ .atom (.symbol name)) :
    ∃ (later : Seam) (final : Matching), later.base = seam.base ∧ later.block.lines = lines ∧
      Crossing later final (world.store.place literal).1 (world.placed literal)
        { left with program := values, lastResult := line } right := by
  have hprocedure : ∀ definition, literal ≠ .procedure definition := by
    rintro definition rfl
    apply seam.plain definition
    rw [hlines]
    exact List.mem_cons_self
  have hlaid := seam.laid
  rw [hlines, hvalues] at hlaid
  obtain ⟨middle, hfirst, hrest⟩ := hlaid.uncons
  obtain ⟨final, -, hworld, hvalue⟩ := seam.claim hfirst hrest hlines hcrossing.world value
  obtain ⟨hframes, -, hbounded⟩ := Ground.mk.inj hcrossing.groundLeft
  refine ⟨seam.next middle hrest hlines value, final, rfl, rfl, ?_, hcrossing.groundRight, ?_,
    hvalue, hworld, hcrossing.running, hcrossing.maxDepth⟩
  · rw [Machine.ground, hframes, hbounded]
    rfl
  · rw [hcrossing.step, hlines, World.runLines_literal hcall hsymbol hprocedure]
    rfl

/-- Both machines make the next call. -/
theorem call (hdepth : left.depth = right.depth) {site : Call}
    (hlines : seam.block.lines = .call site :: lines)
    (hlaid : seam.store.Laid seam.start values lines seam.stop) :
    ∃ later : Seam, later.base = seam.base ∧
      later.Steps (Machine.schedule site { left with program := values })
        (Machine.step right) := by
  -- A call has no lists of its own to be placed, so the region stays as it is.
  let later := seam.next seam.start hlaid hlines value
  obtain ⟨hframes, -, hbounded⟩ := Ground.mk.inj hcrossing.groundLeft
  obtain ⟨frame, hgroundRight, -⟩ := hcrossing.groundRight
  let waiting := right.withTop { seam.branch with continuation := some (.block ⟨lines, value⟩) } world
  have hakin : Machine.Akin (.alike later.reserve) pairs { left with program := values } waiting :=
    ⟨hcrossing.world, hcrossing.running.1.trans hcrossing.running.2.symm, hcrossing.maxDepth⟩
  have hlinked : (Machine.ground { left with program := values }).Linked (.alike later.reserve)
      later.junction pairs waiting.ground := by
    rw [Machine.ground, hframes, hbounded, Machine.ground_withTop hgroundRight]
    exact .junction
  refine ⟨later, rfl, ?_⟩
  rw [hcrossing.step, hlines]
  exact Junction.schedule (Likeness.hosts_alike _) hlinked hakin hdepth site

/-- The bounded run of the one machine ends. The other will have come to the end of the block. -/
theorem finish (hlines : seam.block.lines = []) :
    Settling seam pairs value world
      (left.endBounded ⟨.ofList (seam.run :: seam.base.frames), seam.base.program⟩
        seam.base.bounded) right where
  groundLeft := by
    rw [Machine.endBounded_eq]
    exact ⟨left.lastResult, rfl, hcrossing.last⟩
  groundRight := hcrossing.groundRight
  step := by
    rw [hcrossing.step, hlines]
    rfl
  world := by
    rw [Machine.endBounded_eq, Machine.note_apply]
    exact hcrossing.world.log_set _ world.log
  running := by
    rw [Machine.endBounded_eq, Machine.note_apply]
    exact hcrossing.running

/-- The first machine takes a step towards the second, or both make the same step. -/
theorem advance (hdepth : left.depth = right.depth) :
    (∃ next, Machine.step left = .ok () next ∧
      ((∃ later final last found, later.base = seam.base ∧
          later.block.lines.length < seam.block.lines.length ∧
          Crossing later final last found next right) ∨
        Settling seam pairs value world next right)) ∨
    ∃ later : Seam, later.base = seam.base ∧
      later.Steps (Machine.step left) (Machine.step right) := by
  have hlaid := seam.laid
  rw [hcrossing.step_left, Machine.advanceProgram_apply, hcrossing.program_eq]
  have hpasses : ∀ {literal : Datum} {lines : List Datum} {line : Value} {values : List Value},
      seam.block.lines = literal :: lines → seam.values = line :: values →
      (∀ site, literal ≠ .call site) → (∀ name, literal ≠ .atom (.symbol name)) →
      ∃ later final last found, later.base = seam.base ∧
        later.block.lines.length < seam.block.lines.length ∧
        Crossing later final last found { left with program := values, lastResult := line }
          right := by
    intro literal lines line values hlines hvalues hcall hsymbol
    obtain ⟨later, final, hbase, hlater, hcrossing⟩ :=
      hcrossing.literal hlines hvalues hcall hsymbol
    refine ⟨later, final, _, _, hbase, ?_, hcrossing⟩
    rw [hlater, hlines]
    exact Nat.lt_succ_self _
  -- The way in which the lines have been placed tells what stands first among them.
  generalize hlines : seam.block.lines = lines at hlaid
  generalize hvalues : seam.values = values at hlaid
  generalize hstop : seam.stop = stop at hlaid
  cases hlaid with
  | nil =>
    have hbounded : left.bounded = ⟨.ofList (seam.run :: seam.base.frames),
        seam.base.program⟩ :: seam.base.bounded := congrArg Ground.bounded hcrossing.groundLeft
    dsimp only
    rw [hbounded]
    exact .inl ⟨_, rfl, .inr (hcrossing.finish hlines)⟩
  | call site hrest =>
    subst hstop
    exact .inr (hcrossing.call hdepth hlines hrest)
  | procedure definition hrest =>
    refine absurd ?_ (seam.plain definition)
    rw [hlines]
    exact List.mem_cons_self
  | list hinside hcell hrest =>
    refine .inl ⟨_, rfl, .inl ?_⟩
    rw [← hlines]
    exact hpasses hlines hvalues (fun _ hsame => by cases hsame) (fun _ hsame => by cases hsame)
  | atom value hrest =>
    cases value with
    | symbol name =>
      refine .inr ⟨seam, rfl, ?_⟩
      rw [hcrossing.step, hlines]
      exact .error _ hcrossing.world
    | number _ | boolean _ | quote _ | nil | none =>
      refine .inl ⟨_, rfl, .inl ?_⟩
      rw [← hlines]
      exact hpasses hlines hvalues (fun _ hsame => by cases hsame)
        (fun _ hsame => by cases hsame)

end Crossing

/-- Both calls end with the value of the last line. -/
theorem Settling.steps {world : World} (hsettling : Settling seam pairs value world left right) :
    StepsAlike (.alike seam.reserve) (Closing (.alike seam.reserve) (seam.base.height + 1) pairs)
      (Machine.step left) (Machine.step right) := by
  obtain ⟨last, hgroundLeft, hlast⟩ := hsettling.groundLeft
  obtain ⟨frame, hgroundRight, -⟩ := hsettling.groundRight
  have hawaits : Frame.Awaits { seam.run with result := some last } .run :=
    ⟨seam.run_awaits.kind, seam.run_awaits.unevaluated, seam.run_awaits.complete,
      seam.run_awaits.enough⟩
  rw [hsettling.step, Machine.step_of_awaits (Machine.top?_of_ground hgroundLeft) hawaits]
  dsimp only
  rw [seam.run_kept]
  have hleft := Machine.ground_withTop hgroundLeft
    (Frame.finish { seam.run with bound := true, continuation := none, result := none } last)
    left.world
  have hright := Machine.ground_withTop hgroundRight (seam.branch.finish value) world
  have hheightLeft := (congrArg Ground.height hleft).trans (Ground.height_push _ _)
  have hheightRight := (congrArg Ground.height hright).trans (Ground.height_push _ _)
  refine .ok ⟨⟨_, _, Machine.top?_of_ground hleft, Machine.top?_of_ground hright, rfl, rfl, hlast⟩,
    ⟨hheightLeft.trans hheightRight.symm, ?_⟩, hsettling.world⟩
  refine hheightLeft.le.trans ?_
  rw [List.length_singleton, Nat.add_comm]

end Logo
