import Logo.Proofs.BlockLines
import Logo.Proofs.BoundedRuns
import Logo.Proofs.Reports
import Logo.Text.Cluster

/-!
# One value after another

`map`, `filter` and `find` run a template for the items of a list or for the pieces of a word. The
values are those that there are at the beginning. An iteration can be followed from the end of one
run to the end of the next: which run comes next, and what becomes of the whole, hangs on nothing
but the values and the results so far.
-/

namespace Logo

/-! ## What an iteration makes of the results -/

/-- What a result means for an iteration. -/
inductive Verdict where
  | goesOn
  /-- The value of the run is the one that has been looked for. -/
  | found
  /-- The result had to be a truth value. -/
  | refused
  deriving DecidableEq

def Value.isTrue : Value → Bool
  | .atom (.boolean truth) => truth
  | _ => false

namespace Iteration

def verdict : Iteration → Value → Verdict
  | .map, _ => .goesOn
  | .filter, .atom (.boolean _) => .goesOn
  | .find, .atom (.boolean true) => .found
  | .find, .atom (.boolean false) => .goesOn
  | _, _ => .refused

/-- What is gathered from values whose runs have had these results: the results themselves, or the
values whose result is true. -/
def gathered : Iteration → List Value → List Value → List Value
  | .map, _, results => results
  | .filter, items, results => ((items.zip results).filter fun pair => pair.2.isTrue).map Prod.fst
  | .find, _, _ => []

/-- The value of an iteration for all whose values the template has run, and the store that it
leaves: a new list of what has been gathered, or a word that is made up of it as it is printed. -/
def Produces (mode : Iteration) (word : Bool) (gathered : List Value) (world : World)
    (value : Value) (store : Store) : Prop :=
  match mode, word with
  | .find, _ => value = .nil ∧ store = world.store
  | _, false => ∃ handle : ListHandle, value = .list handle ∧
      handle.address = world.store.cells.size ∧ store.items handle = gathered ∧
      world.store.Extends store
  | .map, true => store = world.store ∧
      value = .atom (.symbol (String.join (gathered.map fun value => (world.view value).display)))
  | .filter, true => store = world.store ∧
      value = .atom (.quote (String.join (gathered.map fun value => (world.view value).display)))

/-- What an iteration keeps while the template runs for a value, after runs with these results. -/
def kept (mode : Iteration) (word : Bool) (items results : List Value) (current : Value) :
    Continuation :=
  .iterating
    ⟨current, items.drop (results.length + 1), (mode.gathered items results).reverse, word⟩

variable {mode : Iteration}

theorem gathered_nil (items : List Value) : mode.gathered items [] = [] := by
  cases mode <;> simp [gathered]

/-- One more result adds to what has been gathered what it gathers alone. -/
theorem gathered_concat {items earlier : List Value} {current : Value}
    (hcurrent : items[earlier.length]? = some current) (result : Value) :
    mode.gathered items (earlier ++ [result]) =
      mode.gathered items earlier ++ mode.gathered [current] [result] := by
  cases mode with
  | map => rfl
  | filter =>
    have hzip : items.zip (earlier ++ [result]) = items.zip earlier ++ [(current, result)] := by
      induction earlier generalizing items with
      | nil => cases items <;> simp_all
      | cons other earlier ih => cases items <;> simp_all
    rw [gathered, hzip, List.filter_append, List.map_append]
    rfl
  | find => rfl

end Iteration

namespace World

variable {mode : Iteration} {template : ListHandle} {word : Bool} {world later : World}
  {current result values : Value} {pending results items lines : List Value}

def templateLines (template : ListHandle) (value : Value) : Action (List Value) := do
  let world ← get
  placeLines (← readText (realize (world.view (.list template)) (world.view value)))

/-- The values that an input offers to a template: the items that a list has now, or the pieces of a
word. -/
inductive Offers [Segmentation] (world : World) : Value → Bool → List Value → Prop where
  | list (handle : ListHandle) : Offers world (.list handle) false (world.store.items handle)
  | symbol (text : String) : Offers world (.atom (.symbol text)) true
      ((Segmentation.pieces text).map fun piece => .atom (.quote piece))
  | quote (text : String) : Offers world (.atom (.quote text)) true
      ((Segmentation.pieces text).map fun piece => .atom (.quote piece))

section

variable [Segmentation] (hoffers : world.Offers values word items)

include hoffers

theorem Offers.of_store (hstore : later.store = world.store) : later.Offers values word items := by
  cases hoffers with
  | list handle => exact hstore ▸ .list handle
  | symbol text => exact .symbol text
  | quote text => exact .quote text

theorem iterationValues_of_offers : iterationValues values world = .ok (items, word) world := by
  cases hoffers <;> rfl

theorem items_eq_pieces_of_offers {text : String}
    (htext : values = .atom (.symbol text) ∨ values = .atom (.quote text)) :
    items = (Segmentation.pieces text).map fun piece => .atom (.quote piece) := by
  obtain rfl | rfl := htext <;> cases hoffers <;> rfl

end

theorem nextIteration_cons :
    nextIteration mode template word results (current :: pending) = (do
      let lines ← templateLines template current
      return .bounded lines (.iterating ⟨current, pending, results, word⟩)) := by
  simp only [nextIteration, templateLines, bind_assoc]

theorem nextIteration_of_ok (hlines : templateLines template current world = .ok lines later) :
    nextIteration mode template word results (current :: pending) world =
      .ok (.bounded lines (.iterating ⟨current, pending, results, word⟩)) later := by
  rw [nextIteration_cons, bind_of_ok hlines]
  rfl

theorem nextIteration_of_error {cause : RuntimeError}
    (hlines : templateLines template current world = .error cause later) :
    nextIteration mode template word results (current :: pending) world = .error cause later := by
  rw [nextIteration_cons, bind_of_error hlines]

/-- The end of an iteration gives what its mode produces. -/
theorem exists_iterationResult_eq (mode : Iteration) (word : Bool) (results : List Value)
    (world : World) :
    ∃ value store, mode.Produces word results world value store ∧
      iterationResult mode word results world = .ok value { world with store } := by
  have hbuild : ∃ value store, (∃ handle : ListHandle, value = .list handle ∧
      handle.address = world.store.cells.size ∧ store.items handle = results ∧
      world.store.Extends store) ∧ build results world = .ok value { world with store } := by
    have hitems : (world.store.build results).2.items ⟨world.store.cells.size, none⟩ = results := by
      rw [Store.items, Store.build, Store.allocate, Array.getElem?_push_size]
    exact ⟨_, _, ⟨⟨world.store.cells.size, none⟩, rfl, rfl, hitems,
      world.store.extends_allocate _ none⟩, rfl⟩
  cases mode with
  | map =>
    cases word with
    | false => exact hbuild
    | true => exact ⟨_, _, ⟨rfl, rfl⟩, rfl⟩
  | filter =>
    cases word with
    | false => exact hbuild
    | true => exact ⟨_, _, ⟨rfl, rfl⟩, rfl⟩
  | find => exact ⟨_, _, ⟨rfl, rfl⟩, rfl⟩

variable [Segmentation]

theorem runSpecial_iterate (first second : Value) (more : List Value)
    (continuation : Option Continuation) (finished : Option Value) :
    runSpecial (.iterate mode) (first :: second :: more) continuation finished =
      iterate mode first second continuation finished := rfl

theorem iterate_fresh (hoffers : world.Offers values word items) (finished : Option Value) :
    iterate mode (.list template) values none finished world =
      nextIteration mode template word [] items world := by
  change (iterationValues values >>= _) world = _
  rw [bind_of_ok (iterationValues_of_offers hoffers)]

/-- An iteration that gets the result of a run takes it in and goes on, or comes to its end. -/
theorem iterate_resumed :
    iterate mode (.list template) values
        (some (.iterating ⟨current, pending, results, word⟩)) (some result) world =
      match mode.verdict result with
      | .goesOn => nextIteration mode template word
          ((mode.gathered [current] [result]).reverse ++ results) pending world
      | .found => .ok (.done current) world
      | .refused => .error (.typeMismatch [.boolean] (world.view (.list template))) world := by
  cases mode with
  | map => rfl
  | filter =>
    cases result with
    | atom atom =>
      cases atom with
      | boolean truth => cases truth <;> rfl
      | _ => rfl
    | _ => rfl
  | find =>
    cases result with
    | atom atom =>
      cases atom with
      | boolean truth => cases truth <;> rfl
      | _ => rfl
    | _ => rfl

end World

theorem Value.exists_list_of_address? {value : Value} {address : Nat}
    (haddress : value.address? = some address) :
    ∃ handle, value = .list handle ∧ handle.address = address := by
  cases value with
  | list handle => exact ⟨handle, rfl, Option.some.inj haddress⟩
  | _ => cases haddress

/-! ## From run to run -/

def Frame.returning (frame : Frame) (value : Value) : Frame :=
  { frame with bound := true, continuation := none }.finish value

/-- The frame of an iteration after runs that have had these results. All of them but the last have
been taken in. -/
inductive Stage (mode : Iteration) (word : Bool) (items : List Value) (frame : Frame) :
    List Value → Frame → Prop where
  | fresh : Stage mode word items frame [] frame
  | resumed {earlier : List Value} {current result : Value}
      (hcurrent : items[earlier.length]? = some current)
      (hearlier : ∀ result ∈ earlier, mode.verdict result = .goesOn) :
      Stage mode word items frame (earlier ++ [result])
        { frame.awaiting (mode.kept word items earlier current) with result := some result }

namespace Stage

variable {mode : Iteration} {word : Bool} {frame next : Frame} {template : ListHandle}
  {values : Value} {more items results : List Value} {world : World}

section

variable (hstage : Stage mode word items frame results next)

include hstage

theorem awaits (hawaits : frame.Awaits (.iterate mode)) : next.Awaits (.iterate mode) := by
  cases hstage with
  | fresh => exact hawaits
  | resumed _ _ => exact { hawaits with }

/-- What is left of the frame when its form is run. -/
theorem cleared : { next with bound := true, continuation := none, result := none } =
      { frame with bound := true, continuation := none, result := none } := by
  cases hstage <;> rfl

theorem arguments_eq : next.arguments = frame.arguments := by
  cases hstage <;> rfl

theorem awaiting_eq (continuation : Continuation) :
    next.awaiting continuation = frame.awaiting continuation := by
  cases hstage <;> rfl

theorem length_le : results.length ≤ items.length := by
  cases hstage with
  | fresh => exact Nat.zero_le _
  | resumed hcurrent _ =>
    rw [List.length_append, List.length_singleton]
    exact (List.getElem?_eq_some_iff.mp hcurrent).1

theorem goesOn_of_mem_dropLast : ∀ result ∈ results.dropLast, mode.verdict result = .goesOn := by
  cases hstage with
  | fresh => exact List.forall_mem_nil _
  | resumed _ hearlier => rwa [List.dropLast_concat]

/-- If an iteration does not go on, it is because of the last result. -/
theorem exists_last (hstops : ¬∀ result ∈ results, mode.verdict result = .goesOn) :
    ∃ earlier result item, results = earlier ++ [result] ∧ items[earlier.length]? = some item ∧
      mode.verdict result ≠ .goesOn := by
  cases hstage with
  | fresh => exact absurd (List.forall_mem_nil _) hstops
  | @resumed earlier current result hcurrent hearlier =>
    refine ⟨earlier, result, current, rfl, hcurrent, fun hverdict => hstops ?_⟩
    exact List.forall_mem_append.mpr ⟨hearlier, List.forall_mem_singleton.mpr hverdict⟩

variable [Segmentation]

/-- An iteration that goes on is about to take the values for which the template has not run yet. -/
theorem runs_of_goesOn (hinputs : frame.arguments = .list template :: values :: more)
    (hfirst : frame.continuation = none) (hoffers : results = [] → world.Offers values word items)
    (hgoes : ∀ result ∈ results, mode.verdict result = .goesOn) :
    World.runSpecial (.iterate mode) next.arguments next.continuation next.result world =
      World.nextIteration mode template word (mode.gathered items results).reverse
        (items.drop results.length) world := by
  rw [hstage.arguments_eq, hinputs]
  cases hstage with
  | fresh =>
    rw [hfirst, World.runSpecial_iterate, World.iterate_fresh (hoffers rfl),
      Iteration.gathered_nil]
    rfl
  | @resumed earlier current result hcurrent _ =>
    have hverdict := hgoes result (List.mem_append_right earlier (List.mem_singleton_self result))
    rw [World.runSpecial_iterate, Iteration.gathered_concat hcurrent, List.reverse_append,
      List.length_append, List.length_singleton]
    simp only [Frame.awaiting, Iteration.kept, World.iterate_resumed, hverdict]

end

variable [Segmentation]

/-- An iteration looks at the last result first. -/
theorem exists_runs_eq {earlier : List Value} {result : Value}
    (hstage : Stage mode word items frame (earlier ++ [result]) next)
    (hinputs : frame.arguments = .list template :: values :: more) :
    ∃ item, items[earlier.length]? = some item ∧
      World.runSpecial (.iterate mode) next.arguments next.continuation next.result world =
        World.iterate mode (.list template) values (some (mode.kept word items earlier item))
          (some result) world := by
  rw [hstage.arguments_eq, hinputs]
  generalize hresults : earlier ++ [result] = results at hstage
  cases hstage with
  | fresh => simp at hresults
  | resumed hcurrent _ =>
    obtain ⟨rfl, hsame⟩ := List.append_inj' hresults rfl
    cases hsame
    exact ⟨_, hcurrent, congrFun (World.runSpecial_iterate ..) world⟩

end Stage

namespace Machine

theorem hasWork_beginBounded (machine : Machine) (lines : List Value) :
    (machine.beginBounded lines).hasWork = true := by
  rw [beginBounded, hasWork, List.isEmpty_cons, Bool.not_false, Bool.or_true]

variable [Segmentation]

/-- The bounded run that the machine has started comes to its end: there are steps and pauses during
which it stays open, and after which nothing is left to do in it. -/
structure Completes (started : Machine) (operations : List Operation) (ended : Machine) : Prop where
  performs : started.performAll operations = ended
  steps : ∀ operation ∈ operations, operation.isStep = true
  stays : started.StaysOpen started.bounded.length operations
  exhausted : (ended.inside started.bounded.length).hasWork = false
  running : ended.paused = false

instance decidableCompletes (started : Machine) (operations : List Operation) :
    Decidable (started.Completes operations (started.performAll operations)) :=
  decidable_of_iff ((∀ operation ∈ operations, operation.isStep = true) ∧
      started.StaysOpen started.bounded.length operations ∧
      ((started.performAll operations).inside started.bounded.length).hasWork = false ∧
      (started.performAll operations).paused = false)
    ⟨fun hall => ⟨rfl, hall.1, hall.2.1, hall.2.2.1, hall.2.2.2⟩,
      fun hcompletes =>
        ⟨hcompletes.steps, hcompletes.stays, hcompletes.exhausted, hcompletes.running⟩⟩

/-- The machine after the step that ends a bounded run, apart from its world and its counts. -/
theorem Begins.ended_fields {machine started ended : Machine} {frame : Frame}
    {continuation : Continuation} {lines : List Value} {operations : List Operation}
    (hbegins : machine.Begins started frame continuation lines)
    (hcompletes : started.Completes operations ended) :
    (ended.perform .tick).frames = machine.frames.replaceTop
        { frame.awaiting continuation with result := some ended.lastResult } ∧
      (ended.perform .tick).program = machine.program ∧
      (ended.perform .tick).bounded = machine.bounded := by
  have hsuffix : started.bounded <:+ ended.bounded :=
    hcompletes.performs ▸ suffix_performAll hcompletes.steps List.suffix_rfl hcompletes.stays
  obtain ⟨hframes, hprogram, hbounded⟩ := exhausted_of_idle hsuffix hcompletes.exhausted
  obtain ⟨after, hends, hafter⟩ := tick_of_exhausted_of_waiting hbegins.top hframes hprogram
    (hbounded.trans hbegins.started_fields.2.2.1) hcompletes.running
  rw [perform, hends]
  exact hafter

end Machine

structure Visit where
  /-- The machine whose step has started the run. -/
  before : Machine
  started : Machine
  result : Value

namespace Machine

section

variable [Segmentation]

/-- Bounded runs that have come to their ends one after the other. Each has been started by the step
after the end of the one before, with no more than pauses between them. -/
inductive Visited (machine : Machine) : List Visit → Machine → Prop where
  | start : Visited machine [] machine
  | pause {visits : List Visit} {later : Machine} {operation : Operation}
      (hvisited : Visited machine visits later)
      (hpause : operation = .pause ∨ operation = .resume 0) :
      Visited machine visits (later.perform operation)
  | visit {visits : List Visit} {before ended : Machine} {operations : List Operation}
      (hvisited : Visited machine visits before)
      (hstarts : (before.perform .tick).bounded.length = before.bounded.length + 1)
      (hcompletes : (before.perform .tick).Completes operations ended) :
      Visited machine (visits ++ [⟨before, before.perform .tick, ended.lastResult⟩])
        (ended.perform .tick)

/-- The machine is about to run a template for the first of the values. -/
structure Iterates (machine : Machine) (frame : Frame) (mode : Iteration) (template : ListHandle)
    (values : Value) (word : Bool) (items : List Value) : Prop where
  top : machine.frames.top? = some frame
  awaits : frame.Awaits (.iterate mode)
  fresh : frame.continuation = none
  inputs : ∃ more, frame.arguments = .list template :: values :: more
  offers : machine.world.Offers values word items

/-- A step of the machine has started the run of the template for the value. -/
def RunsTemplate (machine : Machine) (template : ListHandle) (value : Value) (started : Machine) :
    Prop :=
  ∃ lines world waiting, World.templateLines template value machine.world = .ok lines world ∧
    started = (machine.withTop waiting world).beginBounded lines

/-- The machine after runs that have had these results. -/
structure Reaches (machine : Machine) (frame : Frame) (mode : Iteration) (word : Bool)
    (items results : List Value) (later : Machine) : Prop where
  frames : ∃ next, Stage mode word items frame results next ∧
    later.frames = machine.frames.replaceTop next
  program : later.program = machine.program
  bounded : later.bounded = machine.bounded
  store : results = [] → later.world.store = machine.world.store

section Iterations

variable {machine later : Machine} {frame : Frame} {mode : Iteration} {template : ListHandle}
  {values item result : Value} {word : Bool} {items results earlier lines : List Value}
  {world : World}

theorem Iterates.reaches (hiterates : machine.Iterates frame mode template values word items) :
    Reaches machine frame mode word items [] machine where
  frames := by
    refine ⟨frame, .fresh, ?_⟩
    rw [Stack.eq_push_of_top? hiterates.top, Stack.replaceTop_push]
  program := rfl
  bounded := rfl
  store _ := rfl

namespace Reaches

variable (hreaches : Reaches machine frame mode word items results later)

include hreaches

theorem perform_pause {operation : Operation}
    (hpause : operation = .pause ∨ operation = .resume 0) :
    Reaches machine frame mode word items results (later.perform operation) := by
  have hsame : ∃ log paused, later.perform operation =
      { later with world := { later.world with log }, paused } := by
    obtain rfl | rfl := hpause
    · obtain ⟨log, hpause⟩ := later.exists_pause_eq
      exact ⟨log, true, hpause⟩
    · obtain ⟨log, hlifted⟩ := later.exists_lifted_eq
      exact ⟨log, false, hlifted⟩
  obtain ⟨log, paused, hsame⟩ := hsame
  rw [hsame]
  exact ⟨hreaches.frames, hreaches.program, hreaches.bounded, hreaches.store⟩

variable (hiterates : machine.Iterates frame mode template values word items)

include hiterates

/-- The step that comes next runs the form of the frame. -/
theorem exists_step_eq :
    ∃ next, Stage mode word items frame results next ∧ later.frames.top? = some next ∧
      step later =
        later.proceed { frame with bound := true, continuation := none, result := none }
          (World.runSpecial (.iterate mode) next.arguments next.continuation next.result
            later.world) := by
  obtain ⟨next, hstage, hframes⟩ := hreaches.frames
  have htop : later.frames.top? = some next := hframes ▸ Stack.top?_replaceTop hiterates.top next
  refine ⟨next, hstage, htop, ?_⟩
  rw [step_of_awaits htop (hstage.awaits hiterates.awaits), hstage.cleared]

variable (hgoes : ∀ result ∈ results, mode.verdict result = .goesOn)

include hgoes

/-- As long as the iteration goes on, it takes the values in their order. -/
theorem step_of_goesOn :
    step later = later.proceed { frame with bound := true, continuation := none, result := none }
        (World.nextIteration mode template word (mode.gathered items results).reverse
          (items.drop results.length) later.world) := by
  obtain ⟨next, hstage, -, hstep⟩ := hreaches.exists_step_eq hiterates
  obtain ⟨more, hinputs⟩ := hiterates.inputs
  rw [hstep, hstage.runs_of_goesOn hinputs hiterates.fresh
    (fun hnone => hiterates.offers.of_store (hreaches.store hnone)) hgoes]

theorem step_of_lines (hitem : items[results.length]? = some item)
    (hlines : World.templateLines template item later.world = .ok lines world) :
    step later = .ok () ((later.withTop (frame.awaiting (mode.kept word items results item))
      world).beginBounded lines) := by
  obtain ⟨hbound, rfl⟩ := List.getElem?_eq_some_iff.mp hitem
  rw [hreaches.step_of_goesOn hiterates hgoes, List.drop_eq_getElem_cons hbound,
    World.nextIteration_of_ok hlines]
  rfl

theorem step_of_unreadable {cause : RuntimeError} (hitem : items[results.length]? = some item)
    (hlines : World.templateLines template item later.world = .error cause world) :
    ∃ waiting, step later = .error cause (later.withTop waiting world) := by
  obtain ⟨hbound, rfl⟩ := List.getElem?_eq_some_iff.mp hitem
  rw [hreaches.step_of_goesOn hiterates hgoes, List.drop_eq_getElem_cons hbound,
    World.nextIteration_of_error hlines]
  exact ⟨_, rfl⟩

theorem step_of_all (hall : results.length = items.length) :
    ∃ value store, mode.Produces word (mode.gathered items results) later.world value store ∧
      step later =
        .ok () (later.withTop (frame.returning value) { later.world with store }) := by
  obtain ⟨value, store, hproduces, hresult⟩ :=
    World.exists_iterationResult_eq mode word (mode.gathered items results) later.world
  refine ⟨value, store, hproduces, ?_⟩
  rw [hreaches.step_of_goesOn hiterates hgoes, hall, List.drop_length, World.nextIteration,
    List.reverse_reverse, bind_of_ok hresult]
  rfl

end Reaches

theorem Reaches.step_of_found (hreaches : Reaches machine frame mode word items
      (earlier ++ [result]) later)
    (hiterates : machine.Iterates frame mode template values word items)
    (hverdict : mode.verdict result = .found) (hitem : items[earlier.length]? = some item) :
    step later = .ok () (later.withTop (frame.returning item) later.world) := by
  obtain ⟨next, hstage, -, hstep⟩ := hreaches.exists_step_eq hiterates
  obtain ⟨more, hinputs⟩ := hiterates.inputs
  obtain ⟨other, hother, hruns⟩ := hstage.exists_runs_eq hinputs
  cases hitem.symm.trans hother
  rw [hstep, hruns, Iteration.kept, World.iterate_resumed, hverdict]
  rfl

theorem Reaches.step_of_refused (hreaches : Reaches machine frame mode word items
      (earlier ++ [result]) later)
    (hiterates : machine.Iterates frame mode template values word items)
    (hverdict : mode.verdict result = .refused) :
    ∃ waiting, step later = .error (.typeMismatch [.boolean] (later.view (.list template)))
      (later.withTop waiting later.world) := by
  obtain ⟨next, hstage, -, hstep⟩ := hreaches.exists_step_eq hiterates
  obtain ⟨more, hinputs⟩ := hiterates.inputs
  obtain ⟨item, -, hruns⟩ := hstage.exists_runs_eq hinputs
  rw [hstep, hruns, Iteration.kept, World.iterate_resumed, hverdict]
  exact ⟨_, rfl⟩

/-- A run has been started: then it is that of the template for the next value, and at its end the
frame has one more result. -/
theorem Reaches.visit (hreaches : Reaches machine frame mode word items results later)
    (hiterates : machine.Iterates frame mode template values word items)
    (hstarts : (later.perform .tick).bounded.length = later.bounded.length + 1) :
    ∃ item, items[results.length]? = some item ∧
      later.RunsTemplate template item (later.perform .tick) ∧
      ∀ {operations : List Operation} {ended : Machine},
        (later.perform .tick).Completes operations ended →
        Reaches machine frame mode word items (results ++ [ended.lastResult])
          (ended.perform .tick) := by
  have hrunning : later.paused = false := by
    by_contra hpaused
    rw [perform, tick_of_paused (eq_true_of_ne_false hpaused)] at hstarts
    exact absurd hstarts (Nat.lt_succ_self _).ne
  rw [perform, state_tick_of_running hrunning] at hstarts ⊢
  -- All other steps leave the segments as they are.
  have hgrows : (step later).state.bounded ≠ later.bounded := fun hsame =>
    absurd (hsame ▸ hstarts) (Nat.lt_succ_self _).ne
  obtain ⟨next, hstage, htop, -⟩ := hreaches.exists_step_eq hiterates
  by_cases hgoes : ∀ result ∈ results, mode.verdict result = .goesOn
  · cases hitem : items[results.length]? with
    | none =>
      have hall := Nat.le_antisymm hstage.length_le (List.getElem?_eq_none_iff.mp hitem)
      obtain ⟨value, store, -, hstep⟩ := hreaches.step_of_all hiterates hgoes hall
      rw [hstep] at hgrows
      exact absurd rfl hgrows
    | some item =>
      cases hlines : World.templateLines template item later.world with
      | error cause world =>
        obtain ⟨waiting, hstep⟩ := hreaches.step_of_unreadable hiterates hgoes hitem hlines
        rw [hstep] at hgrows
        exact absurd rfl hgrows
      | ok lines world =>
        have hstep := hreaches.step_of_lines hiterates hgoes hitem hlines
        rw [hstep, EStateM.Result.state_ok]
        refine ⟨item, rfl, ⟨lines, world, _, hlines, rfl⟩, fun hcompletes => ?_⟩
        have hbegins : later.Begins _ next (mode.kept word items results item) lines :=
          ⟨htop, (hstage.awaits hiterates.awaits).isSpecial,
            (hstage.awaits hiterates.awaits).unevaluated, world,
            by rw [hstage.awaiting_eq]⟩
        obtain ⟨hframes, hprogram, hbounded⟩ := hbegins.ended_fields hcompletes
        obtain ⟨_, -, hlater⟩ := hreaches.frames
        refine ⟨⟨_, .resumed hitem hgoes, ?_⟩, hprogram.trans hreaches.program,
          hbounded.trans hreaches.bounded, fun hnone => by simp at hnone⟩
        rw [hframes, hlater, Stack.replaceTop_replaceTop, hstage.awaiting_eq]
  · obtain ⟨earlier, result, item, rfl, hitem, hstops⟩ := hstage.exists_last hgoes
    cases hverdict : mode.verdict result with
    | goesOn => exact absurd hverdict hstops
    | found =>
      rw [hreaches.step_of_found hiterates hverdict hitem] at hgrows
      exact absurd rfl hgrows
    | refused =>
      obtain ⟨waiting, hstep⟩ := hreaches.step_of_refused hiterates hverdict
      rw [hstep] at hgrows
      exact absurd rfl hgrows

/-- Until a verdict is out, the template is run for the next value. -/
theorem Reaches.tick_of_goesOn (hreaches : Reaches machine frame mode word items results later)
    (hiterates : machine.Iterates frame mode template values word items)
    (hrunning : later.paused = false)
    (hgoes : ∀ result ∈ results, mode.verdict result = .goesOn)
    (hitem : items[results.length]? = some item) :
    (∃ started, tick later = .ok true started ∧ later.RunsTemplate template item started) ∨
      ∃ cause world failed, World.templateLines template item later.world = .error cause world ∧
        tick later = .error cause failed := by
  cases hlines : World.templateLines template item later.world with
  | ok lines world =>
    left
    have htick :=
      tick_of_step_ok hrunning (hreaches.step_of_lines hiterates hgoes hitem hlines)
    rw [hasWork_beginBounded] at htick
    exact ⟨_, htick, lines, world, _, hlines, rfl⟩
  | error cause world =>
    right
    obtain ⟨waiting, hstep⟩ := hreaches.step_of_unreadable hiterates hgoes hitem hlines
    exact ⟨cause, world, _, rfl, tick_of_step_error hrunning hstep⟩

theorem Visited.reaches {visits : List Visit} (hvisited : machine.Visited visits later)
    (hiterates : machine.Iterates frame mode template values word items) :
    Reaches machine frame mode word items (visits.map Visit.result) later ∧
      List.Forall₂ (fun visit item => visit.before.RunsTemplate template item visit.started) visits
        (items.take visits.length) := by
  induction hvisited with
  | start => exact ⟨hiterates.reaches, .nil⟩
  | pause _ hpause ih => exact ⟨ih.1.perform_pause hpause, ih.2⟩
  | @visit visits before ended operations _ hstarts hcompletes ih =>
    obtain ⟨hreaches, hruns⟩ := ih
    obtain ⟨item, hitem, hrun, hends⟩ := hreaches.visit hiterates hstarts
    rw [List.length_map] at hitem
    rw [List.map_append, List.length_append, List.length_singleton, List.take_add_one, hitem]
    exact ⟨hends hcompletes, List.rel_append hruns (.cons hrun .nil)⟩

/-- Of the runs of a template that have come to their ends, there is one for each of the first
values that the input has offered at the beginning, in their order, whatever has become of the list
since. For a word the values are the pieces into which texts are cut, however that is done: none of
them is empty, and they make the word up. No run comes after one whose result has ended the
iteration, and all that lies below the frame of the form is as it was. The next step runs the
template for the next value, unless its text cannot be read. After the last value it ends the call:
`map` gives the results, `filter` the values whose result is true, as a new list or joined to a
word, and `find` gives nil. As soon as a result is true, `find` gives its value. A result that is no
truth value makes `filter` and `find` fail, and the error names the template. -/
theorem template_runs_for_each_value_once {visits : List Visit}
    (hiterates : machine.Iterates frame mode template values word items)
    (hvisited : machine.Visited visits later) :
    let results := visits.map Visit.result
    (∀ text, values = .atom (.symbol text) ∨ values = .atom (.quote text) →
      items = (Segmentation.pieces text).map (fun piece => .atom (.quote piece)) ∧
        String.join (Segmentation.pieces text) = text ∧
        ∀ piece ∈ Segmentation.pieces text, piece ≠ "") ∧
    List.Forall₂ (fun visit item => visit.before.RunsTemplate template item visit.started) visits
      (items.take visits.length) ∧
    (∀ result ∈ results.dropLast, mode.verdict result = .goesOn) ∧
    ((∃ next, later.frames = machine.frames.replaceTop next) ∧
      later.program = machine.program ∧ later.bounded = machine.bounded) ∧
    (later.paused = false →
      ((∀ result ∈ results, mode.verdict result = .goesOn) →
        (∀ item, items[visits.length]? = some item →
          (∃ started, tick later = .ok true started ∧ later.RunsTemplate template item started) ∨
            ∃ cause world failed,
              World.templateLines template item later.world = .error cause world ∧
              tick later = .error cause failed) ∧
        (visits.length = items.length →
          ∃ value store, mode.Produces word (mode.gathered items results) later.world value store ∧
            tick later =
              .ok true (later.withTop (frame.returning value) { later.world with store }))) ∧
      ∀ earlier result, results = earlier ++ [result] →
        (mode.verdict result = .found → ∃ item, items[earlier.length]? = some item ∧
          tick later = .ok true (later.withTop (frame.returning item) later.world)) ∧
        (mode.verdict result = .refused → ∃ waiting,
          tick later = .error (.typeMismatch [.boolean] (later.view (.list template)))
            (later.withTop waiting later.world))) := by
  intro results
  obtain ⟨hreaches, hruns⟩ := hvisited.reaches hiterates
  obtain ⟨next, hstage, htop, -⟩ := hreaches.exists_step_eq hiterates
  obtain ⟨other, -, hframes⟩ := hreaches.frames
  refine ⟨fun text htext => ⟨World.items_eq_pieces_of_offers hiterates.offers htext,
      Segmentation.join_pieces text, fun _ => Segmentation.ne_empty_of_mem_pieces⟩, hruns,
    hstage.goesOn_of_mem_dropLast, ⟨⟨other, hframes⟩, hreaches.program, hreaches.bounded⟩,
    fun hrunning => ⟨fun hgoes => ⟨fun item hitem => ?_, fun hall => ?_⟩, ?_⟩⟩
  · exact hreaches.tick_of_goesOn hiterates hrunning hgoes (by rwa [List.length_map])
  · obtain ⟨value, store, hproduces, hstep⟩ :=
      hreaches.step_of_all hiterates hgoes (by rwa [List.length_map])
    refine ⟨value, store, hproduces, ?_⟩
    rw [tick_of_step_ok hrunning hstep, hasWork_withTop htop]
  · intro earlier result hresults
    change Reaches machine frame mode word items results later at hreaches
    change Stage mode word items frame results next at hstage
    rw [hresults] at hreaches hstage
    constructor
    · intro hverdict
      have hbound : earlier.length < items.length := by
        have hlength := hstage.length_le
        rw [List.length_append, List.length_singleton] at hlength
        exact Nat.lt_of_succ_le hlength
      have hitem := List.getElem?_eq_getElem hbound
      refine ⟨_, hitem, ?_⟩
      rw [tick_of_step_ok hrunning (hreaches.step_of_found hiterates hverdict hitem),
        hasWork_withTop htop]
    · intro hverdict
      obtain ⟨waiting, hstep⟩ := hreaches.step_of_refused hiterates hverdict
      exact ⟨_, tick_of_step_error hrunning hstep⟩

end Iterations

/-- The machine at the end of the bounded run that its next step starts, if that takes so many
steps more. -/
def ranFor (count : Nat) (machine : Machine) : Machine :=
  (machine.perform .tick).performAll (List.replicate count .tick)

def afterRun (count : Nat) (machine : Machine) : Machine :=
  (machine.ranFor count).perform .tick

def visitFor (count : Nat) (machine : Machine) : Visit :=
  ⟨machine, machine.perform .tick, (machine.ranFor count).lastResult⟩

def RunsFor (count : Nat) (machine : Machine) : Prop :=
  (machine.perform .tick).bounded.length = machine.bounded.length + 1 ∧
    (machine.perform .tick).Completes (List.replicate count .tick) (machine.ranFor count)

theorem Visited.visitFor {machine later : Machine} {visits : List Visit} {count : Nat}
    (hvisited : machine.Visited visits later) (hruns : later.RunsFor count) :
    machine.Visited (visits ++ [later.visitFor count]) (later.afterRun count) :=
  .visit hvisited hruns.1 hruns.2

instance decidableRunsFor (count : Nat) (machine : Machine) : Decidable (machine.RunsFor count) :=
  inferInstanceAs (Decidable (_ ∧
    (machine.perform .tick).Completes _ ((machine.perform .tick).performAll _)))

end

open scoped Graphemes

/-- The template changes the list that it runs for, but the second run is still for the 7. -/
theorem filter_keeps_item_that_has_been_replaced :
    let machine := (Machine.new 10 (.new []) (.new none)).performAll
      [.read "make \"l [5 7] show filter [setitem 2 :l 1 ? > 5] :l", .run 12 (.list ⟨0, none⟩)]
    let later := (machine.afterRun 14).afterRun 14
    ∃ (frame : Frame) (template list handle : ListHandle) (store : Store),
      machine.Iterates frame .filter template (.list list) false (machine.world.store.items list) ∧
      (later.world.store.items list).map (fun item => (later.view item).display) =
        ["5", "1"] ∧
      tick later = .ok true
        (later.withTop (frame.returning (.list handle)) { later.world with store }) ∧
      (store.items handle).map (fun item => (later.view item).display) = ["7"] := by
  intro machine later
  have hfacts :
      (machine.frames.top?.any fun frame =>
        decide (frame.definition.kind = .special (.iterate .filter)) && !frame.evaluated &&
          !frame.needsArguments && decide (frame.definition.arity ≤ frame.arguments.length) &&
          frame.continuation.isNone &&
          decide (frame.arguments.map Value.address? = [some 2, some 1])) = true ∧
      machine.RunsFor 14 ∧ (machine.afterRun 14).RunsFor 14 ∧
      ((machine.afterRun 14).afterRun 14).paused = false ∧
      (machine.world.store.items ⟨1, none⟩).length = 2 ∧
      (∀ result ∈ [machine.visitFor 14, (machine.afterRun 14).visitFor 14].map Visit.result,
        Iteration.filter.verdict result = .goesOn) ∧
      (((machine.afterRun 14).afterRun 14).world.store.items ⟨1, none⟩).map
        (fun item => (((machine.afterRun 14).afterRun 14).view item).display) = ["5", "1"] ∧
      (Iteration.filter.gathered (machine.world.store.items ⟨1, none⟩)
        ([machine.visitFor 14, (machine.afterRun 14).visitFor 14].map Visit.result)).map
        (fun item => (((machine.afterRun 14).afterRun 14).view item).display) = ["7"] := by
    decide +kernel
  clear_value machine
  obtain ⟨hframe, hfirst, hsecond, hrunning, hlength, hgoes, hchanged, hkept⟩ := hfacts
  obtain ⟨frame, htop, hframe⟩ := (Option.any_eq_true ..).mp hframe
  simp only [Bool.and_eq_true, decide_eq_true_eq, Bool.not_eq_true', Option.isNone_iff_eq_none]
    at hframe
  obtain ⟨⟨⟨⟨⟨hkind, hevaluated⟩, hcomplete⟩, henough⟩, hfresh⟩, hinputs⟩ := hframe
  obtain ⟨template, list, harguments, haddress⟩ : ∃ template list : ListHandle,
      frame.arguments = [.list template, .list list] ∧ list.address = 1 := by
    obtain ⟨first, rest, harguments, htemplate, hrest⟩ := List.map_eq_cons_iff.mp hinputs
    obtain ⟨second, rest, rfl, hlist, hnone⟩ := List.map_eq_cons_iff.mp hrest
    obtain rfl := List.map_eq_nil_iff.mp hnone
    obtain ⟨template, rfl, -⟩ := Value.exists_list_of_address? htemplate
    obtain ⟨list, rfl, haddress⟩ := Value.exists_list_of_address? hlist
    exact ⟨template, list, harguments, haddress⟩
  have hitems : ∀ store : Store, store.items list = store.items ⟨1, none⟩ := by
    intro store
    rw [Store.items, haddress]
    rfl
  have hiterates : machine.Iterates frame .filter template (.list list) false
      (machine.world.store.items list) :=
    ⟨htop, ⟨hkind, hevaluated, hcomplete, henough⟩, hfresh, ⟨[], harguments⟩, .list list⟩
  have hvisited : machine.Visited [machine.visitFor 14, (machine.afterRun 14).visitFor 14] later :=
    (Visited.start.visitFor hfirst).visitFor hsecond
  have hlater : (machine.afterRun 14).afterRun 14 = later := rfl
  rw [hlater] at hrunning hchanged hkept
  clear_value later
  generalize hvisits : [machine.visitFor 14, (machine.afterRun 14).visitFor 14] = visits
    at hvisited hgoes hkept
  have hnext := (template_runs_for_each_value_once hiterates hvisited).2.2.2.2 hrunning
  have htwo : visits.length = 2 := hvisits ▸ rfl
  obtain ⟨value, store, ⟨handle, rfl, -, hgathered, -⟩, htick⟩ :=
    (hnext.1 hgoes).2 (htwo.trans (by rw [hitems, hlength]))
  refine ⟨frame, template, list, handle, store, hiterates, ?_, htick, ?_⟩
  · rw [hitems]
    exact hchanged
  · rw [hgathered, hitems]
    exact hkept

end Machine

end Logo
