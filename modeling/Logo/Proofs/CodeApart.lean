import Logo.Proofs.AlikeMachines
import Logo.Proofs.Planting
import Logo.Proofs.Replacing
import Logo.Text.Cluster

/-!
# Code and values apart

A machine whose code lies in the store does what the other machine does. No cell of a list of code
can be reached from a value that a program holds. So whatever a program does to its values, the
cells of its code stay as they are, and every list of code stands for what was read.
-/

namespace Logo

/-! ## What is held -/

def Continuation.values : Continuation → List Value
  | .block waiting | .repeating _ waiting => [waiting.value]
  | .running => []
  | .iterating state => state.current :: (state.pending ++ state.results)

def Frame.values (frame : Frame) : List Value :=
  frame.arguments ++ frame.result.toList ++ frame.continuation.elim [] Continuation.values

/-- What a program holds: its variables, what calls have got and kept, the lines that are still to
be run and the last result. -/
inductive Machine.Held (machine : Machine) : Value → Prop where
  | scope {scope : Scope} (hscope : scope ∈ machine.world.environment.scopes) {key : String}
      {value : Value} (hvalue : scope.get? key = some value) : Held machine value
  | call {frame : Frame} (hmem : frame ∈ machine.allFrames) {value : Value}
      (hvalue : value ∈ frame.values) : Held machine value
  | line {value : Value} (hmem : value ∈ machine.queue) : Held machine value
  | lastResult : Held machine machine.lastResult

theorem exists_of_mem_left {α β : Type} {same : α → β → Prop} {left : List α} {right : List β}
    (hsame : List.Forall₂ same left right) {element : α} (hmem : element ∈ left) :
    ∃ other, same element other := by
  induction hsame with
  | nil => cases hmem
  | cons hfirst _ ih =>
    obtain rfl | hmem := List.mem_cons.mp hmem
    · exact ⟨_, hfirst⟩
    · exact ih hmem

theorem flatMap_eq_of_forall₂ {α β γ : Type} {same : α → β → Prop} {left : List α} {right : List β}
    (hsame : List.Forall₂ same left right) {first : α → List γ} {second : β → List γ}
    (heq : ∀ element other, same element other → first element = second other) :
    left.flatMap first = right.flatMap second := by
  induction hsame with
  | nil => rfl
  | cons hhead _ ih => rw [List.flatMap_cons, List.flatMap_cons, heq _ _ hhead, ih]

namespace Frame.Alike

variable {related : Value → Value → Prop} {permitted : Datum → Prop} {left right : Frame}
  (halike : left.Alike related permitted right)

include halike

theorem code_eq : left.code = right.code := by
  rw [Frame.code, Frame.code, halike.call, halike.definition]
  obtain ⟨hleft, hright⟩ | ⟨_, _, hleft, hright, hkept⟩ := cases_rel halike.continuation
  · rw [hleft, hright]
  · rw [hleft, hright]
    cases hkept with
    | block hblock | repeating _ hblock =>
      dsimp only [Option.elim, Continuation.lines]
      rw [hblock.lines]
    | running | iterating _ _ _ _ => rfl

theorem values : List.Forall₂ related left.values right.values := by
  refine List.rel_append (List.rel_append halike.arguments ?_) ?_
  · obtain ⟨hleft, hright⟩ | ⟨_, _, hleft, hright, hvalue⟩ := cases_rel halike.result
    · rw [hleft, hright]
      exact .nil
    · rw [hleft, hright]
      exact .cons hvalue .nil
  · obtain ⟨hleft, hright⟩ | ⟨_, _, hleft, hright, hkept⟩ := cases_rel halike.continuation
    · rw [hleft, hright]
      exact .nil
    · rw [hleft, hright]
      cases hkept with
      | block hblock | repeating _ hblock => exact .cons hblock.value .nil
      | running => exact .nil
      | iterating _ hcurrent hpending hresults =>
        exact .cons hcurrent (List.rel_append hpending hresults)

end Frame.Alike

namespace Machine.Twins

variable {reserve other : Reserve} {pairs : Matching} {left right : Machine}

variable (htwins : left.Twins (.alike reserve) pairs right)

include htwins

theorem allFrames :
    List.Forall₂ (Frame.Alike (Value.Alike pairs) fun _ => True) left.allFrames right.allFrames :=
  List.rel_append htwins.current.frames
    (List.rel_flatMap htwins.bounded fun _ _ hsaved => hsaved.frames)

theorem queue : List.Forall₂ (Value.Alike pairs) left.queue right.queue :=
  List.rel_append htwins.current.program
    (List.rel_flatMap htwins.bounded fun _ _ hsaved => hsaved.program)

theorem code_eq : left.code = right.code := by
  have hprocedures : left.world.environment.procedures = right.world.environment.procedures :=
    World.Alike.environment htwins.world |>.procedures
  rw [Machine.code, Machine.code, hprocedures,
    flatMap_eq_of_forall₂ htwins.allFrames fun _ _ hframe => hframe.code_eq,
    flatMap_eq_of_forall₂ htwins.queue fun _ _ hvalue => by cases hvalue <;> rfl]

/-- What the one machine holds has its counterpart in the other one. -/
theorem held {value : Value} (hheld : left.Held value) : ∃ copy, value.Alike pairs copy := by
  cases hheld with
  | @scope scope hscope key value hvalue =>
    have halike := World.Alike.environment htwins.world
    have hscopes := List.rel_append halike.inner (.cons halike.global .nil)
    obtain ⟨counterpart, hsame⟩ := exists_of_mem_left hscopes hscope
    obtain ⟨hnone, -⟩ | ⟨_, copy, hfound, -, hvalues⟩ := cases_rel (hsame.get? key)
    · rw [hvalue] at hnone
      cases hnone
    · rw [hvalue] at hfound
      cases hfound
      exact ⟨copy, hvalues⟩
  | call hmem hvalue =>
    obtain ⟨_, hframe⟩ := exists_of_mem_left htwins.allFrames hmem
    exact exists_of_mem_left hframe.values hvalue
  | line hmem => exact exists_of_mem_left htwins.queue hmem
  | lastResult => exact ⟨_, htwins.lastResult⟩

theorem reserve_set {world : World} (hworld : world.Alike other pairs right.world) :
    Twins (.alike other) pairs { left with world } right :=
  ⟨⟨hworld, htwins.paused, htwins.maxDepth⟩, ⟨htwins.current.frames, htwins.current.program⟩,
    htwins.bounded.imp fun _ _ hsaved => ⟨hsaved.frames, hsaved.program⟩, htwins.suspended,
    htwins.lastResult⟩

/-! ## What is done between steps -/

theorem reset : left.reset.Twins (.alike reserve) pairs right.reset := by
  have hworld : left.world.Alike reserve pairs right.world := htwins.world
  have hscopes : left.world.environment.truncate.Alike pairs right.world.environment.truncate :=
    ⟨.nil, hworld.environment.global, hworld.environment.procedures⟩
  exact ⟨⟨hworld.environment_set hscopes, rfl, htwins.maxDepth⟩, ⟨.nil, .nil⟩, .nil, rfl,
    htwins.lastResult⟩

theorem started {program lines : Value} (hprogram : program.Alike pairs lines) :
    (left.started program).Twins (.alike reserve) pairs (right.started lines) := by
  have hlines : List.Forall₂ (Value.Alike pairs) (left.linesOf program) (right.linesOf lines) := by
    cases hprogram with
    | list hpair hspan => exact (Likeness.alike reserve).items htwins.world (.list hpair hspan)
    | atom value => exact .cons (.atom value) .nil
    | call site => exact .cons (.call site) .nil
    | procedure definition => exact .cons (.procedure definition) .nil
  have hloaded := List.rel_append htwins.current.program hlines
  rw [Machine.started, Machine.started, htwins.hasWork_eq, load_eq, load_eq]
  split
  · exact htwins.withProgram (Likeness.hosts_alike reserve) hloaded htwins.lastResult _ _
  · exact htwins.withProgram (Likeness.hosts_alike reserve) hloaded (.atom .none) _ _

/-- A script is read on both sides, and its lines are put behind the others. -/
theorem load [Segmentation] (tick : Engine Bool) (source : String) :
    Joint (.alike reserve) pairs (Deed.perform tick (.load source) left)
      (Deed.perform tick (.load source) right) := by
  have hworld : left.world.Alike reserve pairs right.world := htwins.world
  rw [Deed.perform, bind_apply, bind_apply]
  obtain ⟨error, hread, hright⟩ | ⟨lines, procedures, hread, hright⟩ :=
    readProgramList_cases source right
  all_goals rw [← hworld.environment.procedures] at hread
  · have hleft : readProgramList source left = .error (.read error) left := by
      rw [readProgramList, read, readSource_apply, hread]
      rfl
    rw [hleft, hright]
    exact .error _ (.refl pairs) htwins
  · have hleft : readProgramList source left =
        .ok ((left.withProcedures procedures).place (.built lines)).1
          ((left.withProcedures procedures).place (.built lines)).2 := by
      rw [readProgramList, read, readSource_apply, hread]
    rw [hleft, hright]
    have hbuilt : (Likeness.alike reserve).fine (.built lines) := trivial
    have hends := (Likeness.alike reserve).place hbuilt pairs (.refl pairs) _ _
      (hworld.procedures_set procedures)
    cases hends with
    | ok hgrows hplaced hvalue =>
      exact .ok () hgrows ((htwins.world_set hgrows hplaced).started hvalue)

/-- Whatever is done to twins, they are twins afterwards. -/
theorem perform [Segmentation] (deed : Deed) :
    Joint (.alike reserve) pairs (deed.perform Machine.tick left)
      (deed.perform Machine.tick right) := by
  have hhosts := Likeness.hosts_alike reserve
  cases deed with
  | load source => exact htwins.load Machine.tick source
  | tick =>
    have htick := htwins.tick hhosts
    rw [Deed.perform, bind_apply, bind_apply, running, running]
    generalize Machine.tick left = first at htick ⊢
    generalize Machine.tick right = second at htick ⊢
    cases htick with
    | ok _ hgrows hnext => exact .ok () hgrows hnext
    | error cause hgrows hnext => exact .error _ hgrows hnext
  | pause => exact .ok () (.refl pairs) (htwins.pause hhosts)
  | lift => exact .ok () (.refl pairs) (htwins.lifted hhosts)
  | reset => exact .ok () (.refl pairs) htwins.reset

end Machine.Twins

/-! ## Cells of code -/

/-- The cell is there, and no list that a program holds is in it. -/
def Store.Spare (store : Store) (pairs : Matching) : Reserve := fun address cell =>
  store.cells[address]? = some cell ∧ ∀ other, ¬pairs address other

/-- Cells without a partner can be put in reserve. -/
theorem World.Alike.spare {reserve : Reserve} {pairs : Matching} {left right : World}
    (halike : left.Alike reserve pairs right) :
    left.Alike (left.store.Spare pairs) pairs right where
  environment := halike.environment
  store :=
    { forward := halike.store.forward
      backward := halike.store.backward
      cells := halike.store.cells
      kept := And.left
      free := fun hspare => hspare.2 _ }
  acyclicLeft := halike.acyclicLeft
  acyclicRight := halike.acyclicRight
  console := halike.console
  turtle := halike.turtle
  symbols := halike.symbols

/-- The list has its cells in a region of its own, of which programs hold nothing. -/
def Store.Shelters (store : Store) (pairs : Matching) (literal : Datum) (handle : ListHandle) :
    Prop :=
  ∃ start stop, store.Laid start [.list handle] [literal] stop ∧
    ∀ address, start ≤ address → address < stop → ∀ other, ¬pairs address other

namespace Store.Shelters

variable {store later : Store} {pairs more : Matching} {literal : Datum} {handle : ListHandle}

theorem mono (hshelters : store.Shelters pairs literal handle)
    (hkept : ∀ address cell, store.Spare pairs address cell → later.Spare more address cell) :
    later.Shelters more literal handle := by
  obtain ⟨start, stop, hlaid, hfree⟩ := hshelters
  refine ⟨start, stop, ?_, fun address hstart hstop => ?_⟩
  · apply hlaid.transfer
    intro address cell hstart hstop hcell
    exact (hkept address cell ⟨hcell, hfree address hstart hstop⟩).1
  · obtain ⟨cell, hcell⟩ := hlaid.exists_cell hstart hstop
    exact (hkept address cell ⟨hcell, hfree address hstart hstop⟩).2

theorem view (hshelters : store.Shelters pairs literal handle) :
    store.view (.list handle) = literal := by
  obtain ⟨start, stop, hlaid, -⟩ := hshelters
  have hstop : stop ≤ store.cells.size := by
    cases hlaid with
    | list _ hcell hrest =>
      cases hrest
      exact (Array.getElem?_eq_some_iff.mp hcell).1
  exact (List.cons.inj (hlaid.map_viewTo hstop)).1

/-- What is found in a list of code is in cells of which programs hold nothing. -/
theorem exists_spare (hshelters : store.Shelters pairs literal handle) {address : Nat}
    (hholds : store.Holds (.list handle) address) : ∃ cell, store.Spare pairs address cell := by
  obtain ⟨start, stop, hlaid, hfree⟩ := hshelters
  have hbounds : start ≤ address ∧ address < stop := by
    have hpath := Store.holds_list_iff.mp hholds
    clear hholds
    induction hpath using Relation.ReflTransGen.head_induction_on with
    | refl => exact hlaid.address_bounds List.mem_cons_self rfl
    | head hitem _ ih =>
      obtain ⟨index, hitem⟩ := hitem
      obtain ⟨hstart, hless⟩ := hlaid.item_bounds ih.1 ih.2 hitem
      exact ⟨hstart, Nat.lt_trans hless ih.2⟩
  obtain ⟨cell, hcell⟩ := hlaid.exists_cell hbounds.1 hbounds.2
  exact ⟨cell, hcell, hfree address hbounds.1 hbounds.2⟩

end Store.Shelters

/-! ## Planting -/

theorem Datum.isList_of_mem_literals :
    (∀ datum : Datum, ∀ literal ∈ datum.literals,
      ∃ items source span, literal = .list items source span) ∧
      ∀ data : List Datum, ∀ literal ∈ literalsOf data,
        ∃ items source span, literal = .list items source span := by
  apply literals.mutual_induct
  case case1 => exact fun _ => List.forall_mem_nil _
  case case2 =>
    exact fun items source span => List.forall_mem_singleton.mpr ⟨items, source, span, rfl⟩
  case case3 => exact fun _ _ _ ih => ih
  case case4 => exact fun _ _ _ _ _ ih => ih
  case case5 => exact List.forall_mem_nil _
  case case6 => exact fun datum data hdatum hdata => List.forall_mem_append.mpr ⟨hdatum, hdata⟩

namespace Memory

section

variable [DecidableEq Datum] {memory next : Memory} {machine : Machine}
  {pairs later final : Matching}

/-- The machine does what the other one does, and lists of code have cells of their own. -/
structure Safe (memory : Memory) (pairs : Matching) (machine : Machine) : Prop where
  twins : memory.machine.Twins (.alike fun _ _ => False) pairs machine
  shelters : ∀ literal handle, memory.pool.cells? literal = some handle →
    memory.store.Shelters pairs literal handle

structure Follows (memory : Memory) (pairs : Matching) (machine : Machine) : Prop
    extends Safe memory pairs machine where
  planted : ∀ literal ∈ Datum.literalsOf memory.machine.code, (memory.pool.cells? literal).isSome

/-- The cells of which programs hold nothing have stayed as they were, and so has where the lists of
code are. -/
structure Leads (memory : Memory) (pairs : Matching) (next : Memory) (later : Matching) : Prop where
  kept : ∀ address cell, memory.store.Spare pairs address cell → next.store.Spare later address cell
  cells : ∀ literal handle, memory.pool.cells? literal = some handle →
    next.pool.cells? literal = some handle

theorem Leads.refl (memory : Memory) (pairs : Matching) : memory.Leads pairs memory pairs :=
  ⟨fun _ _ => id, fun _ _ => id⟩

theorem Leads.trans {last : Memory} (hfirst : memory.Leads pairs next later)
    (hsecond : next.Leads later last final) : memory.Leads pairs last final :=
  ⟨fun _ _ hspare => hsecond.kept _ _ (hfirst.kept _ _ hspare),
    fun _ _ hcells => hsecond.cells _ _ (hfirst.cells _ _ hcells)⟩

/-- A list that has no cells gets some, and nothing else is done. -/
theorem plant_cases (memory : Memory) (literal : Datum) :
    (memory.plant literal = memory ∧ ∀ items source span, literal = .list items source span →
      (memory.pool.cells? literal).isSome) ∨
    ∃ handle, memory.pool.cells? literal = none ∧
      (memory.store.place literal).1 = .list handle ∧
      memory.plant literal = ⟨{ memory.machine with world := memory.machine.world.placed literal },
        (literal, handle) :: memory.pool⟩ := by
  have hplace : memory.machine.place literal = ((memory.store.place literal).1,
      { memory.machine with world := memory.machine.world.placed literal }) := rfl
  rw [plant, hplace]
  cases hcells : memory.pool.cells? literal with
  | some handle => exact .inl ⟨rfl, fun _ _ _ _ => rfl⟩
  | none =>
    dsimp only
    cases hvalue : (memory.store.place literal).1 with
    | list handle => exact .inr ⟨handle, rfl, rfl, rfl⟩
    | atom _ | call _ | procedure _ =>
      refine .inl ⟨rfl, ?_⟩
      rintro items source span rfl
      rw [Store.place] at hvalue
      cases hvalue

/-- A list that is planted gets cells that nobody holds, and keeps them. -/
theorem Safe.plant (hsafe : memory.Safe pairs machine) (literal : Datum) :
    (memory.plant literal).Safe pairs machine ∧
      memory.Leads pairs (memory.plant literal) pairs ∧
      (memory.plant literal).machine.code = memory.machine.code ∧
      ∀ items source span, literal = .list items source span →
        ((memory.plant literal).pool.cells? literal).isSome := by
  obtain ⟨hsame, hcells⟩ | ⟨handle, hnone, hvalue, hplant⟩ := memory.plant_cases literal
  · rw [hsame]
    exact ⟨hsafe, .refl memory pairs, rfl, hcells⟩
  · have hworld : memory.machine.world.Alike (fun _ _ => False) pairs machine.world :=
      hsafe.twins.world
    have hextends := memory.store.extends_place literal
    have hleads : memory.Leads pairs (memory.plant literal) pairs := by
      rw [hplant]
      refine ⟨fun address cell hspare => ⟨hextends address cell hspare.1, hspare.2⟩, ?_⟩
      intro other found hfound
      rw [Pool.cells?_cons, if_neg]
      · exact hfound
      · rintro rfl
        rw [hnone] at hfound
        cases hfound
    refine ⟨⟨?_, fun other found hfound => ?_⟩, hleads, ?_, ?_⟩
    · rw [hplant]
      exact hsafe.twins.reserve_set ⟨hworld.environment, hworld.store.extend hextends,
        hworld.acyclicLeft.place literal, hworld.acyclicRight, hworld.console, hworld.turtle,
        hworld.symbols⟩
    · by_cases hother : memory.pool.cells? other = some found
      · exact (hsafe.shelters other found hother).mono hleads.kept
      · rw [hplant, Pool.cells?_cons] at hfound
        split at hfound
        · rename_i hliteral
          subst hliteral
          cases hfound
          have hlaid := memory.store.laid_place literal
          rw [hvalue] at hlaid
          rw [hplant]
          exact ⟨_, _, hlaid, fun address hstart _ mate hpair =>
            absurd (hworld.store.lt_left hpair) (Nat.not_lt.mpr hstart)⟩
        · exact absurd hfound hother
    · rw [hplant]
      rfl
    · intro _ _ _ _
      rw [hplant, Pool.cells?_cons, if_pos rfl]
      rfl

/-- Every list literal gets cells. -/
theorem Safe.plantAll (hsafe : memory.Safe pairs machine) (literals : List Datum) :
    (literals.foldl Memory.plant memory).Safe pairs machine ∧
      memory.Leads pairs (literals.foldl Memory.plant memory) pairs ∧
      (literals.foldl Memory.plant memory).machine.code = memory.machine.code ∧
      ∀ items source span, .list items source span ∈ literals →
        ((literals.foldl Memory.plant memory).pool.cells? (.list items source span)).isSome := by
  induction literals generalizing memory with
  | nil => exact ⟨hsafe, .refl memory pairs, rfl, fun _ _ _ hmem => by cases hmem⟩
  | cons literal literals ih =>
    obtain ⟨hfirst, hleads, hcode, hcells⟩ := hsafe.plant literal
    obtain ⟨hlast, hlater, hsame, hplanted⟩ := ih hfirst
    refine ⟨hlast, hleads.trans hlater, hsame.trans hcode, fun items source span hmem => ?_⟩
    obtain rfl | hmem := List.mem_cons.mp hmem
    · obtain ⟨handle, hhandle⟩ := Option.isSome_iff_exists.mp (hcells _ _ _ rfl)
      rw [List.foldl_cons, hlater.cells _ _ hhandle]
      rfl
    · exact hplanted _ _ _ hmem

theorem Safe.settle (hsafe : memory.Safe pairs machine) :
    memory.settle.Follows pairs machine ∧ memory.Leads pairs memory.settle pairs := by
  obtain ⟨hafter, hleads, hcode, hcells⟩ := hsafe.plantAll (Datum.literalsOf memory.machine.code)
  refine ⟨⟨hafter, fun literal hmem => ?_⟩, hleads⟩
  rw [Memory.settle, hcode] at hmem
  obtain ⟨items, source, span, rfl⟩ := Datum.isList_of_mem_literals.2 _ literal hmem
  exact hcells items source span hmem

theorem Safe.sound (hsafe : memory.Safe pairs machine) : memory.pool.Sound memory.store :=
  fun literal handle hcells => (hsafe.shelters literal handle hcells).view

/-- What twins do together keeps the code safe: its cells are among those that nobody holds. -/
theorem Follows.settle (hfollows : memory.Follows pairs machine) {left right : Machine}
    (htwins : left.Twins (.alike (memory.store.Spare pairs)) later right) :
    (settle ⟨left, memory.pool⟩).Follows later right ∧
      memory.Leads pairs (settle ⟨left, memory.pool⟩) later := by
  have hworld : left.world.Alike (memory.store.Spare pairs) later right.world := htwins.world
  have hleads : memory.Leads pairs ⟨left, memory.pool⟩ later :=
    ⟨fun _ _ hspare => ⟨hworld.store.kept hspare, fun _ => hworld.store.free hspare⟩, fun _ _ => id⟩
  have hforgot : left.world.Alike (fun _ _ => False) later right.world :=
    ⟨hworld.environment, hworld.store.weaken fun _ _ => False.elim, hworld.acyclicLeft,
      hworld.acyclicRight, hworld.console, hworld.turtle, hworld.symbols⟩
  have hsafe : Safe ⟨left, memory.pool⟩ later right :=
    ⟨htwins.reserve_set hforgot, fun literal handle hcells =>
      (hfollows.shelters literal handle hcells).mono hleads.kept⟩
  obtain ⟨hsettled, hlater⟩ := hsafe.settle
  exact ⟨hsettled, hleads.trans hlater⟩

/-- A new memory follows a new machine. -/
theorem follows_new (maxDepth : Nat) (console : Console) (log : Log) :
    (Memory.new maxDepth console log).Follows (fun _ _ => False) (.new maxDepth console log) := by
  have hworld : (Machine.new maxDepth console log).world.Alike (fun _ _ => False) (fun _ _ => False)
      (Machine.new maxDepth console log).world :=
    ⟨⟨.nil, .new _ _, rfl⟩, ⟨False.elim, False.elim, False.elim, False.elim, False.elim⟩,
      Store.acyclic_empty, Store.acyclic_empty, rfl, rfl, rfl⟩
  refine ⟨⟨⟨⟨hworld, rfl, rfl⟩, ⟨.nil, .nil⟩, .nil, rfl, .atom .none⟩, ?_⟩, ?_⟩
  · intro literal handle hcells
    cases hcells
  · have hbodies : Procedures.standard.entries.all (·.2.body.isEmpty) = true := by decide +kernel
    have hempty : Procedures.standard.entries.flatMap (·.2.body) = [] :=
      List.flatMap_eq_nil_iff.mpr fun entry hmem =>
        List.isEmpty_iff.mp (List.all_eq_true.mp hbodies entry hmem)
    have hcode : (Machine.new maxDepth console log).code = [] := by
      rw [Machine.code, show Machine.world _ = _ from rfl]
      exact congrArg (· ++ [] ++ []) hempty
    rw [new, hcode]
    exact List.forall_mem_nil _

variable [Segmentation]

/-- Whatever is done, both machines fail for the same reason or both do it. -/
theorem Follows.perform (hfollows : memory.Follows pairs machine) (deed : Deed) :
    (∃ next after later, Memory.perform deed memory = .ok () next ∧
      deed.perform Machine.tick machine = .ok () after ∧ memory.Leads pairs next later ∧
      next.Follows later after) ∨
    ∃ cause next after later, Memory.perform deed memory = .error cause next ∧
      deed.perform Machine.tick machine = .error cause after ∧ memory.Leads pairs next later ∧
      next.Follows later after := by
  have hspare := World.Alike.spare hfollows.twins.world
  have hjoint := (hfollows.twins.reserve_set hspare).perform deed
  rw [Memory.perform, Pool.perform_eq hfollows.sound deed rfl]
  generalize deed.perform Machine.tick memory.machine = first at hjoint ⊢
  generalize deed.perform Machine.tick machine = second at hjoint ⊢
  cases hjoint with
  | ok _ _ htwins =>
    obtain ⟨hnext, hleads⟩ := hfollows.settle htwins
    exact .inl ⟨_, _, _, rfl, rfl, hleads, hnext⟩
  | error cause _ htwins =>
    obtain ⟨hnext, hleads⟩ := hfollows.settle htwins
    exact .inr ⟨cause, _, _, _, rfl, rfl, hleads, hnext⟩

/-- The memory follows the machine through all deeds. -/
theorem Follows.performAll (hfollows : memory.Follows pairs machine) (deeds : List Deed) :
    let planted := Deed.performAll Memory.perform memory deeds
    let plain := Deed.performAll (Deed.perform Machine.tick) machine deeds
    planted.1 = plain.1 ∧
      ∃ later, memory.Leads pairs planted.2 later ∧ planted.2.Follows later plain.2 := by
  induction deeds generalizing memory pairs machine with
  | nil => exact ⟨rfl, pairs, .refl memory pairs, hfollows⟩
  | cons deed deeds ih =>
    dsimp only
    rw [Deed.performAll, Deed.performAll]
    obtain ⟨_, _, _, hmemory, hmachine, hleads, hnext⟩ |
      ⟨cause, _, _, _, hmemory, hmachine, hleads, hnext⟩ := hfollows.perform deed
    · obtain ⟨hanswers, later, hlater, hfinal⟩ := ih hnext
      rw [hmemory, hmachine]
      exact ⟨congrArg (none :: ·) hanswers, later, hleads.trans hlater, hfinal⟩
    · obtain ⟨hanswers, later, hlater, hfinal⟩ := ih hnext
      rw [hmemory, hmachine]
      exact ⟨congrArg (some cause :: ·) hanswers, later, hleads.trans hlater, hfinal⟩

/-! ## Scripts -/

/-- Whatever scripts are run, the machine whose code lies in the store does what the other one does:
the same deeds fail, for the same reasons, its code is the same, and so is all that programs can
see. Every list of its code has cells, and they show the list. These stay its cells for good, and
they do not change, for what is found in them is found in no value that a program holds. So at any
later time the list that is handed out is the one that was read. -/
theorem running_keeps_code_apart (maxDepth : Nat) (console : Console) (log : Log)
    (deeds further : List Deed) :
    let planted := Deed.performAll Memory.perform (Memory.new maxDepth console log) deeds
    let plain := Deed.performAll (Deed.perform Machine.tick) (Machine.new maxDepth console log) deeds
    let memory := planted.2
    let later := (Deed.performAll Memory.perform memory further).2
    (planted.1 = plain.1 ∧ memory.machine.code = plain.2.code ∧
      memory.machine.world.sight = plain.2.world.sight ∧
      memory.machine.view memory.machine.lastResult = plain.2.view plain.2.lastResult) ∧
    (∀ literal ∈ Datum.literalsOf memory.machine.code, (memory.pool.cells? literal).isSome) ∧
    ∀ literal handle, memory.pool.cells? literal = some handle →
      (∀ address, memory.store.Holds (.list handle) address →
        (∀ value, memory.machine.Held value → ¬memory.store.Holds value address) ∧
        later.store.cells[address]? = memory.store.cells[address]?) ∧
      memory.store.view (.list handle) = literal ∧
      later.pool.cells? literal = some handle ∧ later.store.view (.list handle) = literal ∧
      (later.pool.hand later.store literal).2.view (later.pool.hand later.store literal).1 =
        literal := by
  intro planted plain memory later
  obtain ⟨hanswers, pairs, -, hfollows⟩ := (follows_new maxDepth console log).performAll deeds
  obtain ⟨-, final, hleads, hlater⟩ := hfollows.performAll further
  have htwins := hfollows.twins
  have hworld : memory.machine.world.Alike (fun _ _ => False) pairs plain.2.world := htwins.world
  refine ⟨⟨hanswers, htwins.code_eq, hworld.sight_eq, hworld.view_eq htwins.lastResult⟩,
    hfollows.planted, fun literal handle hcells => ?_⟩
  have hstays := hleads.cells literal handle hcells
  refine ⟨fun address hholds => ?_, hfollows.sound literal handle hcells, hstays,
    hlater.sound literal handle hstays, ?_⟩
  · obtain ⟨cell, hspare⟩ := (hfollows.shelters literal handle hcells).exists_spare hholds
    have hkept := (hleads.kept address cell hspare).1
    refine ⟨fun value hheld hreached => ?_, hkept.trans hspare.1.symm⟩
    obtain ⟨outer, houter, hpath⟩ := hreached
    obtain ⟨copy, halike⟩ := htwins.held hheld
    cases halike with
    | list hpair hspan =>
      cases houter
      obtain ⟨mate, hmate, -⟩ := hworld.store.path_right hpath hpair
      exact hspare.2 mate hmate
    | atom _ | call _ | procedure _ => cases houter
  · rw [Pool.view_hand hstays]
    exact hlater.sound literal handle hstays

end

open scoped Graphemes Classical

/-- A program changes the list that it has got from `f`, and `f` gives the same list again. -/
theorem literal_stands_after_setItem :
    let deeds := .load "to f\noutput [1 2]\nend\nmake \"a f\nsetitem 1 :a 9\nshow :a\nshow f" ::
      List.replicate 40 Deed.tick
    let memory := (Deed.performAll Memory.perform (.new 10 (.new []) (.new none)) deeds).2
    memory.machine.world.console.output = "[9 2]\n[1 2]\n" ∧
      ∃ literal handle, literal.display = "[1 2]" ∧ memory.pool.cells? literal = some handle ∧
        memory.store.view (.list handle) = literal ∧
        ∀ value, memory.machine.Held value → ¬memory.store.Holds value handle.address := by
  intro deeds memory
  obtain ⟨⟨-, hcode, hsight, -⟩, hplanted, hapart⟩ :=
    running_keeps_code_apart 10 (.new []) (.new none) deeds []
  have hplain : (Deed.performAll (Deed.perform Machine.tick) (.new 10 (.new []) (.new none))
        deeds).2.world.console.output = "[9 2]\n[1 2]\n" ∧
      (Datum.literalsOf (Deed.performAll (Deed.perform Machine.tick) (.new 10 (.new []) (.new none))
        deeds).2.code).any (·.display == "[1 2]") = true := by
    decide +kernel
  obtain ⟨literal, hmem, hdisplay⟩ := List.any_eq_true.mp hplain.2
  rw [← hcode] at hmem
  obtain ⟨handle, hcells⟩ := Option.isSome_iff_exists.mp (hplanted literal hmem)
  obtain ⟨haway, hview, -⟩ := hapart literal handle hcells
  refine ⟨(congrArg (·.console.output) hsight).trans hplain.1, literal, handle,
    beq_iff_eq.mp hdisplay, hcells, hview, ?_⟩
  exact (haway handle.address ⟨_, rfl, .refl⟩).1

end Memory

end Logo
