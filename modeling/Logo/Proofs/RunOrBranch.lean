import Logo.Proofs.BlockRuns
import Logo.Text.Cluster

/-!
# Blocks run and blocks chosen

`run [...]` and `ifelse true [...] []` evaluate their inputs, read the same block and run it. Nobody
who looks at variables, procedures, the console and the turtle can tell the two apart, at any pause
or in the end.
-/

namespace Logo

/-! ## A world is like itself -/

/-- Every address of a store belongs to itself. -/
def Matching.same (size : Nat) : Matching := fun left right =>
  left = right ∧ left < size

theorem Value.alike_self {size : Nat} {value : Value}
    (hvalue : ∀ address ∈ value.address?, address < size) : value.Alike (.same size) value := by
  cases value with
  | atom value => exact .atom value
  | list handle => exact .list ⟨rfl, hvalue _ rfl⟩ rfl
  | call site => exact .call site
  | procedure definition => exact .procedure definition

/-- A store matches itself. -/
theorem Store.Acyclic.matched_self {store : Store} (hstore : store.Acyclic) :
    store.Matched (fun _ _ => False) (.same store.cells.size) store where
  forward := by
    rintro address _ _ ⟨rfl, -⟩ ⟨rfl, -⟩
    rfl
  backward := by
    rintro _ _ address ⟨rfl, -⟩ ⟨rfl, -⟩
    rfl
  cells := by
    rintro address _ ⟨rfl, hbound⟩
    have hcell := Array.getElem?_eq_getElem hbound
    have hitems := hstore.items ⟨address, none⟩
    rw [Store.items_of_cell hcell] at hitems
    exact ⟨_, _, hcell, hcell, rfl, List.forall₂_same.mpr fun value hmem =>
      Value.alike_self (hitems value hmem)⟩
  kept := False.elim
  free := False.elim

theorem Scope.alike_self {size : Nat} {scope : Scope}
    (hscope : scope.All fun value => ∀ address ∈ value.address?, address < size) :
    scope.Alike (.same size) scope := by
  refine ⟨rfl, fun key => ?_⟩
  cases hget : scope.members.get? key with
  | none => exact .none
  | some binding =>
    cases binding with
    | declared => exact .some .declared
    | assigned value =>
      refine .some (.assigned (Value.alike_self (hscope key value ?_)))
      rw [Scope.get?, hget]
      rfl

theorem World.alike_self {world : World} (hcovers : acyclicity.Covers world) :
    world.Alike (fun _ _ => False) (.same world.store.cells.size) world where
  environment := by
    refine ⟨List.forall₂_same.mpr fun scope hmem => ?_, ?_, rfl⟩
    · exact Scope.alike_self (hcovers.bindings.inner scope hmem)
    · exact Scope.alike_self hcovers.bindings.global
  store := Store.Acyclic.matched_self hcovers.store
  acyclicLeft := hcovers.store
  acyclicRight := hcovers.store
  console := rfl
  turtle := rfl
  symbols := rfl

/-! ## Inputs that are literals -/

namespace Machine

variable {machine : Machine} {frame : Frame} {depth : Nat}

def withInputs (machine : Machine) (frame : Frame) (inputs : List Datum) : Machine :=
  machine.withTop { frame with
    arguments := frame.arguments ++ (machine.world.store.placeAll inputs).1 }
    { machine.world with store := (machine.world.store.placeAll inputs).2 }

variable [Segmentation]

theorem step_of_literal {literal : Datum} (htop : machine.frames.top? = some frame)
    (hopen : frame.evaluated = false) (hinput : frame.nextInput? = some literal)
    (hliteral : ∀ site, literal ≠ .call site) :
    step machine = .ok () (machine.withTop
      { frame with arguments := frame.arguments ++ [(machine.world.store.place literal).1] }
      (machine.world.placed literal)) := by
  have hneeds : frame.needsArguments = true :=
    decide_eq_true (List.getElem?_eq_some_iff.mp hinput).1
  have hevaluates : step machine = evaluateInput frame machine := by
    simp only [step, htop, hopen, hneeds, Bool.false_eq_true, if_false, if_true]
  rw [hevaluates, evaluateInput_apply, hinput]
  cases literal with
  | call site => exact absurd rfl (hliteral site)
  | atom _ | list _ _ _ | procedure _ => rfl

/-- Inputs that are literals are placed one after the other. -/
theorem passes_inputs {inputs : List Datum} (htop : machine.frames.top? = some frame)
    (hrunning : machine.paused = false) (hopen : frame.evaluated = false)
    (hinputs : frame.call.inputs.drop frame.arguments.length = inputs)
    (hliterals : ∀ site, Datum.call site ∉ inputs) :
    Passes depth machine (machine.withInputs frame inputs) := by
  induction inputs generalizing machine frame with
  | nil =>
    have hsame : machine.withInputs frame [] = machine := by
      rw [withInputs]
      simp only [Store.placeAll, List.append_nil]
      exact withTop_self htop
    rw [hsame]
    exact .refl depth machine
  | cons literal inputs ih =>
    have hinput : frame.nextInput? = some literal := by
      rw [Frame.nextInput?, ← List.head?_drop, hinputs]
      rfl
    have hliteral : ∀ site, literal ≠ .call site := by
      rintro site rfl
      exact hliterals site List.mem_cons_self
    have hstep := step_of_literal htop hopen hinput hliteral
    have hopenNow : ¬machine.Over depth := not_over_of_top? htop hopen
    let value := (machine.world.store.place literal).1
    let next : Frame := { frame with arguments := frame.arguments ++ [value] }
    have hrest : next.call.inputs.drop next.arguments.length = inputs := by
      rw [List.length_append, List.length_singleton, ← List.drop_drop, hinputs]
      rfl
    have hpasses := (Passes.step hopenNow hrunning hstep).trans
      (ih (Stack.top?_replaceTop htop next) hrunning hopen hrest
        fun site hmem => hliterals site (List.mem_cons_of_mem _ hmem))
    have hsame : (machine.withTop next (machine.world.placed literal)).withInputs next inputs =
        machine.withInputs frame (literal :: inputs) := by
      rw [withInputs, withTop_withTop, withInputs, Store.placeAll, List.append_assoc]
      rfl
    rw [← hsame]
    exact hpasses

end Machine

/-! ## The beginning of the block -/

namespace Store

theorem Acyclic.placeAll {store : Store} (hstore : store.Acyclic) (data : List Datum) :
    (store.placeAll data).2.Acyclic := by
  induction data generalizing store with
  | nil => exact hstore
  | cons datum data ih =>
    rw [Store.placeAll]
    exact ih (hstore.place datum)

namespace Matched

variable {reserve : Reserve} {pairs : Matching} {left right later : Store}

/-- More lists on the right make no difference. -/
theorem extend_right (hmatched : left.Matched reserve pairs right)
    (hextends : right.Extends later) : left.Matched reserve pairs later where
  forward := hmatched.forward
  backward := hmatched.backward
  cells hpair := by
    obtain ⟨leftCell, rightCell, hleft, hright, halike⟩ := hmatched.cells hpair
    exact ⟨leftCell, rightCell, hleft, hextends _ _ hright, halike⟩
  kept := hmatched.kept
  free := hmatched.free

/-- New lists on the left are put aside. -/
theorem put_aside (hmatched : left.Matched reserve pairs right) (data : List Datum) :
    (left.placeAll data).2.Matched
      (fun address cell => left.cells.size ≤ address ∧
        address < (left.placeAll data).2.cells.size ∧
        (left.placeAll data).2.cells[address]? = some cell) pairs right where
  forward := hmatched.forward
  backward := hmatched.backward
  cells := (hmatched.extend (left.extends_placeAll data)).cells
  kept hkept := hkept.2.2
  free hkept hpair := Nat.not_le.mpr (hmatched.lt_left hpair) hkept.1

end Matched

end Store

namespace World

theorem placeLines_apply (lines : List Datum) (world : World) :
    placeLines lines world = .ok (world.store.placeAll lines).1
      { world with store := (world.store.placeAll lines).2 } := by
  induction lines generalizing world with
  | nil => rfl
  | cons line lines ih =>
    rw [placeLines, bind_of_ok (show place line world = .ok _ (world.placed line) from rfl),
      bind_of_ok (ih _), Store.placeAll]
    rfl

/-- A list that has just been placed is read as it was written. -/
theorem readBlock_of_view {handle : ListHandle} {items : List Datum} {text : Option String}
    {span : Option Span} {world : World}
    (hview : world.view (.list handle) = .list items text span) :
    readBlock handle world = readText (Datum.blockText items text) world := by
  rw [readBlock, get_bind_apply, show world.store.view (.list handle) = _ from hview]

/-- Lines that have been read are those of the text. -/
theorem readProgram_of_readText {text : String} {lines : List Datum} {world after : World}
    (hread : readText text world = .ok lines after) :
    ∃ procedures, readProgram world.environment.procedures text = .ok (lines, procedures) := by
  rw [readText_apply] at hread
  cases hprogram : readProgram world.environment.procedures text with
  | error cause =>
    rw [hprogram] at hread
    cases hread
  | ok read =>
    rw [hprogram] at hread
    cases hread
    exact ⟨read.2, rfl⟩

variable [Segmentation]

/-- What `run` does with a list. -/
theorem runSpecial_run (handle : ListHandle) (world : World) :
    runSpecial .run [.list handle] none none world =
      match readBlock handle world with
      | .ok lines world => .ok (.bounded (world.store.placeAll lines).1 .running)
        { world with store := (world.store.placeAll lines).2 }
      | .error cause world => .error cause world := by
  change (do
    let lines ← readBlock handle
    return Progress.bounded (← placeLines lines) .running : Action Progress) world = _
  rw [bind_apply]
  cases readBlock handle world with
  | error cause world => rfl
  | ok lines world => exact bind_of_ok (placeLines_apply lines world)

/-- What `ifelse` does with the list that it has chosen. -/
theorem runSpecial_branch (handle : ListHandle) (other : Value) (world : World) :
    runSpecial .ifElse [.boolean true, .list handle, other] none none world =
      match readBlock handle world with
      | .ok lines world => runLines .nil lines world
      | .error cause world => .error cause world := by
  change ((do return ⟨← readBlock handle, .nil⟩ : Action Block) >>= fun block => _) world = _
  rw [bind_apply, bind_apply]
  cases readBlock handle world <;> rfl

end World

def runProcedure : Procedure :=
  specialProcedure "run" ["block"] .run

def branchProcedure : Procedure :=
  specialProcedure "ifelse" ["condition", "iftrue", "iffalse"] .ifElse

def runCall (list : Datum) (here : Span) : Call :=
  ⟨"run", [list], here⟩

def branchCall (list : Datum) (empty : Option String) (place : Option Span) (here : Span) : Call :=
  ⟨"ifelse", [.boolean true, list, .list [] empty place], here⟩

def runFrame (list : Datum) (here : Span) (handle : ListHandle) : Frame :=
  { Frame.new (runCall list here) runProcedure with arguments := [.list handle] }

def branchFrame (list : Datum) (empty : Option String) (place : Option Span) (here : Span)
    (handle : ListHandle) (other : Value) : Frame :=
  { Frame.new (branchCall list empty place here) branchProcedure with
    arguments := [.boolean true, .list handle, other] }

section Opening

variable {list : Datum} {empty : Option String} {place : Option Span} {here there : Span}
  {handle other : ListHandle} {rest : Value} {base : Ground} {left right : Machine}
  {pairs : Matching} {lines : List Datum} {maxDepth : Nat} {report : Report}

theorem awaits_runFrame : (runFrame list here handle).Awaits .run :=
  ⟨rfl, rfl, rfl, Nat.le_refl 1⟩

theorem awaits_branchFrame : (branchFrame list empty place there handle rest).Awaits .ifElse :=
  ⟨rfl, rfl, rfl, Nat.le_refl 3⟩

def Seam.opening (base : Ground) (run branch : Frame) (store : Store) (lines : List Datum)
    (hrun : run.Awaits .run) (hbranch : branch.Awaits .ifElse)
    (hfresh : branch.continuation = none ∧ branch.result = none)
    (hinputs : branch.arguments.getD 0 .nil = .boolean true ∧
      ∃ handle, branch.arguments.getD 1 .nil = .list handle)
    (hplain : ∀ definition, Datum.procedure definition ∉ lines) : Seam where
  run := { run with bound := true, continuation := some .running, result := none }
  branch := { branch with bound := true }
  base
  values := (store.placeAll lines).1
  block := ⟨lines, .nil⟩
  store := (store.placeAll lines).2
  start := store.cells.size
  stop := (store.placeAll lines).2.cells.size
  laid := Store.laid_place_and_placeAll.2 store lines
  plain := hplain
  run_awaits := ⟨hrun.kind, hrun.unevaluated, hrun.complete, hrun.enough⟩
  run_kept := rfl
  branch_awaits := ⟨hbranch.kind, hbranch.unevaluated, hbranch.complete, hbranch.enough⟩
  branch_fresh := by rw [hfresh.1, hfresh.2]
  branch_inputs := hinputs

/-- The same list has been placed among the inputs of both calls. -/
theorem placed_alike {first second : World} (hworld : first.Alike (fun _ _ => False) pairs second)
    (list behind : Datum) :
    ∃ later : Matching,
      World.Alike (fun _ _ => False) later (first.placed list)
        ((second.placed list).placed behind) ∧
      (first.store.place list).1.Alike later (second.store.place list).1 := by
  have hplaces : (Comparison.alike fun _ _ => False).Acts pairs Value.Alike (World.place list)
    (World.place list) := (Likeness.alike _).place trivial
  have hends := hplaces pairs (.refl pairs) first second hworld
  cases hends with
  | @ok later _ _ _ _ hgrows hafter hvalue =>
    refine ⟨later, ⟨hafter.environment, ?_, hafter.acyclicLeft, ?_, hafter.console,
      hafter.turtle, hafter.symbols⟩, hvalue⟩
    · exact hafter.store.extend_right (Store.extends_place _ behind)
    · exact hafter.acyclicRight.place behind

variable [Segmentation]

/-- The lines have been read. The one machine has put them aside as values and opened a bounded run;
the other is about to run them. -/
theorem crossing_opening (hgroundLeft : left.ground = base.push [runFrame list here handle])
    (hgroundRight : right.ground = base.push [branchFrame list empty place there other rest])
    {first second : World} (hworld : first.Alike (fun _ _ => False) pairs second)
    (hstep : Machine.step right = right.proceed
      { branchFrame list empty place there other rest with bound := true }
      (World.runLines .nil lines second))
    (hrunning : left.paused = false ∧ right.paused = false)
    (hmaxDepth : left.maxDepth = right.maxDepth)
    (hplain : ∀ definition, Datum.procedure definition ∉ lines) :
    Crossing (.opening base (runFrame list here handle)
        (branchFrame list empty place there other rest) first.store lines awaits_runFrame
        awaits_branchFrame ⟨rfl, rfl⟩ ⟨rfl, other, rfl⟩ hplain) pairs .nil second
      ((left.withTop { runFrame list here handle with bound := true, continuation := some .running }
        { first with store := (first.store.placeAll lines).2 }).beginBounded
          (first.store.placeAll lines).1) right where
  groundLeft := by
    rw [Machine.ground_beginBounded, Machine.ground_withTop hgroundLeft]
    rfl
  groundRight := ⟨_, hgroundRight, rfl⟩
  step := hstep
  last := .atom .nil
  world := by
    rw [Machine.beginBounded, Machine.note_apply]
    exact ⟨hworld.environment, hworld.store.put_aside lines, hworld.acyclicLeft.placeAll lines,
      hworld.acyclicRight, hworld.console, hworld.turtle, hworld.symbols⟩
  running := by
    rw [Machine.beginBounded, Machine.note_apply]
    exact hrunning
  maxDepth := by
    rw [Machine.beginBounded, Machine.note_apply]
    exact hmaxDepth

/-- When the inputs have been placed, what is reported of `run` is reported of `ifelse`. -/
theorem settles_iff_of_inputs (hgroundLeft : left.ground = base.push [runFrame list here handle])
    (hgroundRight : right.ground = base.push [branchFrame list empty place there other rest])
    (hworld : left.world.Alike (fun _ _ => False) pairs right.world)
    (hhandles : (Value.list handle).Alike pairs (.list other))
    (hrunning : left.paused = false ∧ right.paused = false)
    (hmaxDepth : left.maxDepth = right.maxDepth)
    (hplain : ∀ lines world, World.readBlock handle left.world = .ok lines world →
      ∀ definition, Datum.procedure definition ∉ lines)
    (hleft : Books maxDepth left []) (hright : Books maxDepth right [])
    (hinside : left.StaysInside (base.height + 1)) :
    left.Settles (base.height + 1) report ↔ right.Settles (base.height + 1) report := by
  have htopLeft := Machine.top?_of_ground hgroundLeft
  have htopRight := Machine.top?_of_ground hgroundRight
  have hopenLeft : ¬left.Over (base.height + 1) := Machine.not_over_of_top? htopLeft rfl
  have hopenRight : ¬right.Over (base.height + 1) := Machine.not_over_of_top? htopRight rfl
  have hstepLeft := Machine.step_of_awaits htopLeft awaits_runFrame
  have hstepRight := Machine.step_of_awaits htopRight awaits_branchFrame
  simp only [runFrame, branchFrame, Frame.new, World.runSpecial_run, World.runSpecial_branch]
    at hstepLeft hstepRight
  have hreads := (Likeness.alike fun _ _ => False).readBlock hhandles
  obtain ⟨_, lines, _, first, second, hreadLeft, hreadRight, -, hafter, rfl, -⟩ |
    ⟨_, cause, first, second, hreadLeft, hreadRight, -, hafter, -⟩ :=
    (hreads pairs (.refl pairs) _ _ hworld).cases
  · rw [hreadLeft] at hstepLeft
    rw [hreadRight] at hstepRight
    have hpasses := Machine.Passes.step hopenLeft hrunning.1 hstepLeft
    have hcrossing := crossing_opening hgroundLeft hgroundRight hafter hstepRight hrunning
      hmaxDepth (hplain lines first hreadLeft)
    have htandem := Tandem.crossing rfl hcrossing
    rw [hpasses.settles]
    exact ⟨htandem.settles_right (hleft.passes hpasses) hright (hinside.passes hpasses),
      htandem.settles_left (hleft.passes hpasses) hright (hinside.passes hpasses)⟩
  · rw [hreadLeft] at hstepLeft
    rw [hreadRight] at hstepRight
    rw [Machine.settles_of_error hopenLeft hrunning.1
        (Machine.tick_of_step_error hrunning.1 hstepLeft),
      Machine.settles_of_error hopenRight hrunning.2
        (Machine.tick_of_step_error hrunning.2 hstepRight)]
    exact Eq.congr_right (congrArg (Report.mk [] (.failed cause)) hafter.sight_eq)

variable {items : List Datum} {text : Option String} {span : Option Span}
  (hgroundLeft : left.ground =
    base.push [.new (runCall (.list items text span) here) runProcedure])
  (hgroundRight : right.ground =
    base.push [.new (branchCall (.list items text span) empty place there) branchProcedure])
  (hworld : left.world.Alike (fun _ _ => False) pairs right.world)
  (hmaxDepth : left.maxDepth = right.maxDepth)
  (hplain : ∀ program later,
    readProgram left.world.environment.procedures (Datum.blockText items text) =
      .ok (program, later) → ∀ definition, Datum.procedure definition ∉ program)
  (hleft : Books maxDepth left []) (hright : Books maxDepth right [])
  (hinside : left.StaysInside (base.height + 1))

include hgroundLeft hgroundRight hworld hmaxDepth hplain hleft hright hinside

/-- When the calls have been started, what is reported of `run` is reported of `ifelse`. -/
theorem settles_iff_of_start (hrunning : left.paused = false ∧ right.paused = false) :
    left.Settles (base.height + 1) report ↔ right.Settles (base.height + 1) report := by
  have hpassesLeft : Machine.Passes (base.height + 1) left
      (left.withInputs _ [.list items text span]) :=
    Machine.passes_inputs (Machine.top?_of_ground hgroundLeft) hrunning.1 rfl rfl (by simp)
  have hpassesRight : Machine.Passes (base.height + 1) right
      (right.withInputs _ [.boolean true, .list items text span, .list [] empty place]) :=
    Machine.passes_inputs (Machine.top?_of_ground hgroundRight) hrunning.2 rfl rfl
      (by simp [Datum.boolean])
  obtain ⟨later, hafter, hvalue⟩ :=
    placed_alike hworld (.list items text span) (.list [] empty place)
  rw [hpassesLeft.settles, hpassesRight.settles]
  refine settles_iff_of_inputs (Machine.ground_withTop hgroundLeft _ _)
    (Machine.ground_withTop hgroundRight _ _) hafter hvalue hrunning hmaxDepth ?_
    (hleft.passes hpassesLeft) (hright.passes hpassesRight) (hinside.passes hpassesLeft)
  intro lines world hread
  have hview : (left.world.placed (.list items text span)).view
      (.list ⟨(left.world.store.placeAll items).2.cells.size, span⟩) = .list items text span :=
    left.world.store.view_place (.list items text span)
  obtain ⟨procedures, hprogram⟩ :=
    World.readProgram_of_readText ((World.readBlock_of_view hview).symm.trans hread)
  exact hplain lines procedures hprogram

/-- The same holds if the calls have been started on machines that are paused. -/
theorem settles_iff_of_calls (hpaused : left.paused = right.paused) :
    left.Settles (base.height + 1) report ↔ right.Settles (base.height + 1) report := by
  cases hwaits : left.paused with
  | false =>
    exact settles_iff_of_start hgroundLeft hgroundRight hworld hmaxDepth hplain hleft hright
      hinside ⟨hwaits, hpaused.symm.trans hwaits⟩
  | true =>
    have hopenLeft : ¬left.Over (base.height + 1) :=
      Machine.not_over_of_top? (Machine.top?_of_ground hgroundLeft) rfl
    have hopenRight : ¬right.Over (base.height + 1) :=
      Machine.not_over_of_top? (Machine.top?_of_ground hgroundRight) rfl
    have hdepth : left.depth = right.depth := by
      rw [← hleft.length_allFrames, ← hright.length_allFrames]
      change left.ground.height = right.ground.height
      rw [hgroundLeft, hgroundRight, Ground.height_push, Ground.height_push]
      rfl
    obtain ⟨log, hliftedLeft⟩ := left.exists_lifted_eq
    obtain ⟨otherLog, hliftedRight⟩ := right.exists_lifted_eq
    have hlifted : ∀ rest, left.lifted.Settles (base.height + 1) rest ↔
        right.lifted.Settles (base.height + 1) rest := by
      have hnext := hinside.turns (.resumes hopenLeft hwaits)
      have hbooks := hleft.lifted
      have hbooksRight := hright.lifted
      rw [hliftedLeft] at hnext hbooks ⊢
      rw [hliftedRight] at hbooksRight ⊢
      exact fun rest => settles_iff_of_start hgroundLeft hgroundRight (hworld.log_set _ _)
        hmaxDepth hplain hbooks hbooksRight hnext ⟨rfl, rfl⟩
    rw [Machine.settles_of_paused hopenLeft hwaits,
      Machine.settles_of_paused hopenRight (hpaused.symm.trans hwaits)]
    refine exists_congr fun rest => and_congr (hlifted rest) ?_
    rw [Report.behind, Report.behind, hdepth, hworld.sight_eq]

end Opening

/-! ## The two calls -/

def Datum.isDefinition : Datum → Bool
  | .procedure _ => true
  | _ => false

/-- No line of the text, if it can be read, is a definition. -/
def Procedures.readsPlain (procedures : Procedures) (text : String) : Bool :=
  match readProgram procedures text with
  | .ok (program, _) => program.all (!·.isDefinition)
  | .error _ => true

theorem Procedures.not_mem_of_readsPlain {procedures later : Procedures} {text : String}
    {program : List Datum} (hplain : procedures.readsPlain text = true)
    (hread : readProgram procedures text = .ok (program, later)) (definition : Procedure) :
    Datum.procedure definition ∉ program := by
  intro hmem
  rw [readsPlain, hread] at hplain
  have hline := List.all_eq_true.mp hplain _ hmem
  cases hline

def Procedures.provides (procedures : Procedures) (name : String) (params : List String)
    (form : Special) : Bool :=
  (procedures.find? name).any fun found =>
    found.name == name && found.params == params && decide (found.kind = .special form) &&
      found.body.isEmpty && found.source.isNone

theorem Procedures.find?_of_provides {procedures : Procedures} {name : String}
    {params : List String} {form : Special} (hprovides : procedures.provides name params form) :
    procedures.find? name = some (specialProcedure name params form) := by
  rw [provides] at hprovides
  cases hfind : procedures.find? name with
  | none =>
    rw [hfind] at hprovides
    cases hprovides
  | some found =>
    obtain ⟨foundName, foundParams, kind, body, source⟩ := found
    rw [hfind] at hprovides
    simp only [Option.any_some, Bool.and_eq_true, beq_iff_eq, decide_eq_true_eq,
      List.isEmpty_iff, Option.isNone_iff_eq_none] at hprovides
    obtain ⟨⟨⟨⟨rfl, rfl⟩, rfl⟩, rfl⟩, rfl⟩ := hprovides
    rfl

theorem find?_run : Procedures.standard.find? "run" = some runProcedure :=
  Procedures.find?_of_provides (by decide +kernel)

theorem find?_branch : Procedures.standard.find? "ifelse" = some branchProcedure :=
  Procedures.find?_of_provides (by decide +kernel)

namespace Machine

variable {machine : Machine}

theorem schedule_of_fits {call : Call} {definition : Procedure}
    (hfind : machine.world.environment.procedures.find? call.name = some definition)
    (hfits : machine.depth < machine.maxDepth) :
    schedule call machine = .ok () (machine.enter call definition) := by
  rw [schedule_apply, hfind]
  exact if_neg (Nat.not_le.mpr hfits)

/-- Special forms open no scope, so the worlds in which they are started are alike. -/
theorem enter_alike (hcovers : acyclicity.Covers machine.world) {call other : Call}
    {definition next : Procedure} (hspecial : definition.isSpecial = true)
    (hnext : next.isSpecial = true) :
    (machine.enter call definition).world.Alike (fun _ _ => False)
      (.same machine.world.store.cells.size) (machine.enter other next).world := by
  rw [enter_eq, enter_eq, hspecial, hnext]
  exact (World.alike_self hcovers).log_set _ _

section Calls

variable {maxDepth : Nat} (hbooks : Books maxDepth machine [])
  {items : List Datum} {text empty : Option String} {span place : Option Span} {here there : Span}
  (hrun : machine.world.environment.procedures.find? "run" = Procedures.standard.find? "run")
  (hbranch : machine.world.environment.procedures.find? "ifelse" =
    Procedures.standard.find? "ifelse")

include hbooks hrun hbranch

variable [Segmentation]

/-- Where the calls fit, they have the same reports. -/
theorem evaluates_iff_of_fits (hcovers : acyclicity.Covers machine.world)
    (hplain : machine.world.environment.procedures.readsPlain (Datum.blockText items text) = true)
    (hinside : ∀ met, machine.Meets (runCall (.list items text span) here) met → ¬met.Escapes)
    (hfits : machine.depth < maxDepth) (report : Report) :
    machine.Evaluates (runCall (.list items text span) here) report ↔
      machine.Evaluates (branchCall (.list items text span) empty place there) report := by
  rw [← hbooks.maxDepth_eq] at hfits
  have hruns : schedule (runCall (.list items text span) here) machine =
      .ok () (machine.enter _ runProcedure) := schedule_of_fits (hrun.trans find?_run) hfits
  have hbranches : schedule (branchCall (.list items text span) empty place there) machine =
      .ok () (machine.enter _ branchProcedure) :=
    schedule_of_fits (hbranch.trans find?_branch) hfits
  have hleft := hbooks.schedule (runCall (.list items text span) here)
  have hright := hbooks.schedule (branchCall (.list items text span) empty place there)
  rw [hruns] at hleft
  rw [hbranches] at hright
  have hheight : machine.ground.height = machine.depth := hbooks.length_allFrames
  have hprocedures : (machine.enter (runCall (.list items text span) here)
      runProcedure).world.environment.procedures = machine.world.environment.procedures := by
    rw [enter_eq]
    rfl
  rw [Evaluates, hruns, Evaluates, hbranches]
  dsimp only
  rw [← hheight]
  refine settles_iff_of_calls (ground_enter machine _ _) (ground_enter machine _ _)
    (enter_alike hcovers rfl rfl) ?_ ?_ hleft hright ?_ ?_
  · rw [enter_eq, enter_eq]
  · rw [hprocedures]
    exact fun program later hread => Procedures.not_mem_of_readsPlain hplain hread
  · rw [hheight]
    exact fun met hmet => hinside met ⟨_, hruns, hmet⟩
  · rw [enter_eq, enter_eq]

omit hrun hbranch in
/-- At the bound, a call fails before it has begun. -/
theorem evaluates_iff_of_bound {call : Call} {definition : Procedure}
    (hfind : machine.world.environment.procedures.find? call.name = some definition)
    (hbound : machine.depth = maxDepth) (report : Report) :
    machine.Evaluates call report ↔
      report = ⟨[], .failed (.tooDeep definition.name maxDepth), machine.world.sight⟩ := by
  have hle : machine.maxDepth ≤ machine.depth := (hbooks.maxDepth_eq.trans hbound.symm).le
  rw [Evaluates, schedule_apply, hfind]
  dsimp only
  rw [if_pos hle, hbound]

end Calls

section

variable [Segmentation]

/-- On every machine that can be met on which `run` and `ifelse` are the built-in procedures, and
for every list without definitions, `run [...]` and `ifelse true [...] []` have the same reports:
the same value or the same error, after the same pauses, with the same variables, procedures and
output. This needs two things. Every `output` or `stop` that is performed while the block runs, by
the block itself or by a block inside it, has to find a procedure to end. And one more call has to
fit: at the bound on nested calls, each of the two fails with an error that names it. -/
theorem run_agrees_with_true_branch (maxDepth : Nat) (console : Console) (log : Log)
    (operations : List Operation) (items : List Datum) (text empty : Option String)
    (span place : Option Span) (here there : Span) :
    let machine := (Machine.new maxDepth console log).performAll operations
    let procedures := machine.world.environment.procedures
    let runs := runCall (.list items text span) here
    let branches := branchCall (.list items text span) empty place there
    procedures.find? "run" = Procedures.standard.find? "run" →
    procedures.find? "ifelse" = Procedures.standard.find? "ifelse" →
    procedures.readsPlain (Datum.blockText items text) = true →
    (∀ met, machine.Meets runs met → ¬met.Escapes) →
    (machine.depth < maxDepth →
      ∀ report, machine.Evaluates runs report ↔ machine.Evaluates branches report) ∧
    (machine.depth = maxDepth →
      ∀ report,
        (machine.Evaluates runs report ↔
          report = ⟨[], .failed (.tooDeep "run" maxDepth), machine.world.sight⟩) ∧
        (machine.Evaluates branches report ↔
          report = ⟨[], .failed (.tooDeep "ifelse" maxDepth), machine.world.sight⟩)) := by
  intro machine procedures runs branches hrun hbranch hplain hinside
  have hbooks : Books maxDepth machine [] := Books.performAll maxDepth console log operations
  have hguards : acyclicity.Guards machine := guards_performAll maxDepth console log operations
  refine ⟨evaluates_iff_of_fits hbooks hrun hbranch hguards.world hplain hinside, ?_⟩
  intro hbound report
  have hfindRun : procedures.find? runs.name = some runProcedure := hrun.trans find?_run
  have hfindBranch : procedures.find? branches.name = some branchProcedure :=
    hbranch.trans find?_branch
  exact ⟨evaluates_iff_of_bound hbooks hfindRun hbound report,
    evaluates_iff_of_bound hbooks hfindBranch hbound report⟩

end

open scoped Graphemes

/-- A block that is run while a procedure is paused prints an input of that procedure, pauses once
more and then ends the procedure. -/
theorem block_ends_paused_procedure :
    let machine := (Machine.new 10 (.new []) (.new none)).performAll
      [.read "to f :a\npause\nprint 7\nend\nf 5", .run 100 (.list ⟨0, none⟩)]
    let block : Datum := .list [.symbol "print", .symbol ":a", .symbol "pause", .symbol "stop"]
      (some "print :a pause stop") none
    machine.paused = true ∧ machine.depth = 2 ∧
      ∃ report, machine.Evaluates (runCall block .nowhere) report ∧
        machine.Evaluates (branchCall block none none .nowhere) report ∧
        report.pauses.map Prod.fst = [3, 4] ∧ report.sight.console.output = "5\n" := by
  intro machine block
  have hfacts : (machine.paused = true ∧ machine.depth = 2) ∧
      machine.world.environment.procedures.provides "run" ["block"] .run = true ∧
      machine.world.environment.procedures.provides "ifelse" ["condition", "iftrue", "iffalse"]
        .ifElse = true ∧
      machine.world.environment.procedures.readsPlain "print :a pause stop" = true ∧
      (schedule (runCall block .nowhere) machine).state.confined 3 30 = true ∧
      (machine.evaluate? (runCall block .nowhere) 30).any (fun report =>
        report.pauses.map Prod.fst = [3, 4] ∧ report.sight.console.output = "5\n") = true := by
    decide +kernel
  obtain ⟨⟨hpaused, hdepth⟩, hrun, hbranch, hplain, hconfined, hreport⟩ := hfacts
  obtain ⟨report, hevaluates, hseen⟩ := exists_evaluates hreport
  have hagrees := run_agrees_with_true_branch 10 (.new []) (.new none)
    [.read "to f :a\npause\nprint 7\nend\nf 5", .run 100 (.list ⟨0, none⟩)]
    [.symbol "print", .symbol ":a", .symbol "pause", .symbol "stop"]
    (some "print :a pause stop") none none none .nowhere .nowhere
    ((Procedures.find?_of_provides hrun).trans find?_run.symm)
    ((Procedures.find?_of_provides hbranch).trans find?_branch.symm) hplain
  have hinside : ∀ met, machine.Meets (runCall block .nowhere) met → ¬met.Escapes := by
    rintro met ⟨started, hstarted, hmet⟩
    rw [hstarted] at hconfined
    rw [hdepth] at hmet
    exact staysInside_of_confined hconfined met hmet
  have hfits : machine.depth < 10 := by
    rw [hdepth]
    decide
  exact ⟨hpaused, hdepth, report, hevaluates, ((hagrees hinside).1 hfits report).mp hevaluates,
    of_decide_eq_true hseen⟩

/-- The errors of the two calls differ where no call fits. And where no procedure is active, a
`stop` in a block inside the block ends all of the block under `run`, and only the inner block under
`ifelse`. -/
theorem run_differs_from_true_branch :
    let full := Machine.new 0 (.new []) (.new none)
    let free := Machine.new 10 (.new []) (.new none)
    let one : Datum := .list [.symbol "1"] (some "1") none
    let nested : Datum :=
      .list [.symbol "run", .list [.symbol "stop"] (some "stop") none, .symbol "print",
        .symbol "1"] (some "run [stop] print 1") none
    (∃ report other, full.Evaluates (runCall one .nowhere) report ∧
      full.Evaluates (branchCall one none none .nowhere) other ∧
      report.ending = .failed (.tooDeep "run" 0) ∧
      other.ending = .failed (.tooDeep "ifelse" 0)) ∧
    (∃ report other, free.Evaluates (runCall nested .nowhere) report ∧
      free.Evaluates (branchCall nested none none .nowhere) other ∧
      report.sight.console.output = "" ∧ other.sight.console.output = "1\n") := by
  intro full free one nested
  have houtputs :
      (free.evaluate? (runCall nested .nowhere) 30).any
        (fun report => report.sight.console.output = "") = true ∧
      (free.evaluate? (branchCall nested none none .nowhere) 30).any
        (fun report => report.sight.console.output = "1\n") = true := by
    decide +kernel
  constructor
  · have hbooks : Books 0 full [] := Books.performAll 0 (.new []) (.new none) []
    have hstandard : full.world.environment.procedures = Procedures.standard := rfl
    have hdepth : full.depth = 0 := rfl
    clear_value full
    have hrun : full.world.environment.procedures.find? (runCall one .nowhere).name =
        some runProcedure := hstandard ▸ find?_run
    have hbranch : full.world.environment.procedures.find?
        (branchCall one none none .nowhere).name = some branchProcedure := hstandard ▸ find?_branch
    exact ⟨_, _, (evaluates_iff_of_bound hbooks hrun hdepth _).mpr rfl,
      (evaluates_iff_of_bound hbooks hbranch hdepth _).mpr rfl, rfl, rfl⟩
  · obtain ⟨report, hreport, hempty⟩ := exists_evaluates houtputs.1
    obtain ⟨other, hother, hprinted⟩ := exists_evaluates houtputs.2
    exact ⟨report, other, hreport, hother, of_decide_eq_true hempty, of_decide_eq_true hprinted⟩

end Machine

end Logo
