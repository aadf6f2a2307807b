import Logo.Proofs.AlikeForms
import Logo.Proofs.ProcedureTable

/-!
# What all actions leave alone

Natives and special forms change variables, enter procedures and write to the log. But none of them
opens or closes a scope or makes one forget a name, none puts anything into the procedure table that
a program could not define itself, none lets the log have any influence, and none fails for a reason
that is for the machine to say.
-/

namespace Logo

variable {α β : Type}

variable {holds : Environment → Prop}

def Environment.scopeNames (environment : Environment) : List String :=
  environment.inner.map (·.name) ++ [environment.global.name]

/-- The scope outside of which there are `outer` scopes, the global one not counted, knows the
name. -/
def Environment.KnowsAt (environment : Environment) (outer : Nat) (key : String) : Prop :=
  ∃ inside scope outside, environment.inner = inside ++ scope :: outside ∧
    outside.length = outer ∧ scope.contains key = true

def World.silence (world : World) : World :=
  { world with log := .new none }

def World.Silent (world : World) : Prop :=
  world.log = .new none

theorem World.silent_silence (world : World) : world.silence.Silent := rfl

/-- The property is one that no definition of a program can break. -/
def Definable (property : Procedure → Prop) : Prop :=
  ∀ name params body source, property (.user name params body source)

/-! ## Variables -/

namespace Scope

variable {scope : Scope} {other : String}

theorem contains_set_of_contains (hknown : scope.contains other = true) (key : String)
    (value : Value) : (scope.set key value).contains other = true := by
  rw [contains, NameTable.contains] at hknown
  rw [contains, NameTable.contains, set, NameTable.get?_insert]
  split
  · rfl
  · exact hknown

theorem contains_declare_of_contains (hknown : scope.contains other = true) (key : String) :
    (scope.declare key).contains other = true := by
  rw [declare]
  split
  · exact hknown
  · rw [contains, NameTable.contains] at hknown
    rw [contains, NameTable.contains, NameTable.get?_insert]
    split
    · rfl
    · exact hknown

end Scope

namespace Environment

variable {key : String} {value : Value} {assigned : List Scope} {environment : Environment}
  {outer : Nat}

@[simp]
theorem scopeNames_modifyTop (environment : Environment) (change : Scope → Scope)
    (hchange : ∀ scope, (change scope).name = scope.name) :
    (environment.modifyTop change).scopeNames = environment.scopeNames := by
  simp only [modifyTop, scopeNames]
  cases environment.inner with
  | nil => simp [hchange]
  | cons scope outer => simp [hchange]

@[simp]
theorem scopeNames_declare (environment : Environment) (name : String) :
    (environment.declare name).scopeNames = environment.scopeNames := by
  apply scopeNames_modifyTop
  intro scope
  rw [Scope.declare]
  split <;> rfl

theorem map_name_of_assignNearest? {scopes : List Scope}
    (hassigned : assignNearest? key value scopes = some assigned) :
    assigned.map (·.name) = scopes.map (·.name) := by
  induction scopes generalizing assigned with
  | nil => cases hassigned
  | cons scope outer ih =>
    rw [assignNearest?] at hassigned
    split at hassigned
    · cases hassigned
      rfl
    · obtain ⟨rest, hrest, rfl⟩ := Option.map_eq_some_iff.mp hassigned
      rw [List.map_cons, List.map_cons, ih hrest]

@[simp]
theorem scopeNames_make (environment : Environment) (name : String) (value : Value) :
    (environment.make name value).scopeNames = environment.scopeNames := by
  simp only [make, scopeNames]
  split
  · rename_i inner hinner
    rw [map_name_of_assignNearest? hinner]
  · rfl

theorem KnowsAt.declare (hknows : environment.KnowsAt outer key) (name : String) :
    (environment.declare name).KnowsAt outer key := by
  obtain ⟨inside, scope, outside, hinner, hlength, hknown⟩ := hknows
  rw [Environment.declare, modifyTop, hinner]
  cases inside with
  | nil =>
    exact ⟨[], _, outside, rfl, hlength, Scope.contains_declare_of_contains hknown _⟩
  | cons first inside =>
    exact ⟨first.declare (Text.lowercase name) :: inside, scope, outside, rfl, hlength, hknown⟩

/-- An assignment leaves every scope in its place, with all names that it knows. -/
theorem exists_of_assignNearest? {other : String} {inside outside : List Scope} {scope : Scope}
    (hassigned : assignNearest? key value (inside ++ scope :: outside) = some assigned)
    (hknown : scope.contains other = true) :
    ∃ before changed behind, assigned = before ++ changed :: behind ∧
      behind.length = outside.length ∧ changed.contains other = true := by
  induction inside generalizing assigned with
  | nil =>
    rw [List.nil_append, assignNearest?] at hassigned
    split at hassigned
    · cases hassigned
      exact ⟨[], _, outside, rfl, rfl, Scope.contains_set_of_contains hknown key value⟩
    · obtain ⟨behind, hbehind, rfl⟩ := Option.map_eq_some_iff.mp hassigned
      have hlength := congrArg List.length (map_name_of_assignNearest? hbehind)
      rw [List.length_map, List.length_map] at hlength
      exact ⟨[], scope, behind, rfl, hlength, hknown⟩
  | cons first inside ih =>
    rw [List.cons_append, assignNearest?] at hassigned
    split at hassigned
    · cases hassigned
      exact ⟨first.set key value :: inside, scope, outside, rfl, rfl, hknown⟩
    · obtain ⟨rest, hrest, rfl⟩ := Option.map_eq_some_iff.mp hassigned
      obtain ⟨before, changed, behind, rfl, hlength, hchanged⟩ := ih hrest
      exact ⟨first :: before, changed, behind, rfl, hlength, hchanged⟩

theorem KnowsAt.make (hknows : environment.KnowsAt outer key) (name : String) (value : Value) :
    (environment.make name value).KnowsAt outer key := by
  obtain ⟨inside, scope, outside, hinner, hlength, hknown⟩ := hknows
  rw [Environment.make]
  split
  · rename_i assigned hassigned
    rw [hinner] at hassigned
    obtain ⟨before, changed, behind, rfl, hsame, hchanged⟩ :=
      exists_of_assignNearest? hassigned hknown
    exact ⟨before, changed, behind, rfl, hsame.trans hlength, hchanged⟩
  · exact ⟨inside, scope, outside, hinner, hlength, hknown⟩

@[simp]
theorem procedures_declare (environment : Environment) (name : String) :
    (environment.declare name).procedures = environment.procedures := by
  rw [declare, modifyTop]
  split <;> rfl

@[simp]
theorem procedures_make (environment : Environment) (name : String) (value : Value) :
    (environment.make name value).procedures = environment.procedures := by
  rw [make]
  split <;> rfl

end Environment

namespace World

/-- A record in the log changes nothing else. -/
theorem note_eq (world : World) (level : LogLevel) (message : World → String) :
    world.note level message = { world with log := (world.note level message).log } := by
  rw [note]
  split <;> rfl

@[simp]
theorem environment_note (world : World) (level : LogLevel) (message : World → String) :
    (world.note level message).environment = world.environment := by
  rw [note_eq]

end World

/-! ## Orderly actions -/

/-- No primitive can break the property of variables and procedures. -/
structure Environment.Stable (holds : Environment → Prop) : Prop where
  declare : ∀ {environment} name, holds environment → holds (environment.declare name)
  make : ∀ {environment} name value, holds environment → holds (environment.make name value)
  becomes : ∀ {environment : Environment} {procedures},
    environment.procedures.Becomes procedures → holds environment →
    holds { environment with procedures }

namespace Environment

theorem stable_true : Stable fun _ => True :=
  ⟨fun _ _ => trivial, fun _ _ _ => trivial, fun _ _ => trivial⟩

theorem stable_scopeNames (names : List String) : Stable (·.scopeNames = names) where
  declare name hnames := by rw [scopeNames_declare, hnames]
  make name value hnames := by rw [scopeNames_make, hnames]
  becomes _ hnames := hnames

theorem stable_knowsAt (outer : Nat) (key : String) : Stable (·.KnowsAt outer key) where
  declare name hknows := hknows.declare name
  make name value hknows := hknows.make name value
  becomes _ hknows := hknows

theorem stable_becomes (before : Procedures) : Stable (before.Becomes ·.procedures) where
  declare name hbecomes := by rwa [procedures_declare]
  make name value hbecomes := by rwa [procedures_make]
  becomes hnext hbecomes := hbecomes.trans hnext

theorem stable_all {property : Procedure → Prop} (hproperty : Definable property) :
    Stable (·.procedures.All property) where
  declare name hall := by rwa [procedures_declare]
  make name value hall := by rwa [procedures_make]
  becomes hnext hall := hall.becomes hproperty hnext

end Environment

/-- The worlds differ in their logs alone, and the property holds. If `quiet` says so, the log of
the second one keeps nothing. -/
def Comparison.silent (holds : Environment → Prop) (quiet : Prop) : Comparison where
  Stage := Unit
  grows _ _ := True
  worlds _ left right := ∃ log, right = { left with log } ∧ holds left.environment ∧
    (quiet → log = .new none)
  values _ := Eq
  fine _ := True
  code _ := True
  refl _ := trivial
  trans _ _ := trivial
  mono _ hsame := hsame

theorem Comparison.silent_withStore (holds : Environment → Prop) (quiet : Prop) (stage : Unit)
    (change : Store → Value × Store) :
    (silent holds quiet).Acts stage (silent holds quiet).values (World.withStore change)
      (World.withStore change) := by
  rintro later - left _ ⟨log, rfl, hholds⟩
  exact .ok ((silent holds quiet).refl later) ⟨log, rfl, hholds⟩ rfl

/-- Both worlds write to their logs, and then the same is done to the variables. -/
theorem Comparison.silent_note {quiet : Prop} {stage : Unit} {left right : World}
    (hworlds : (silent holds quiet).worlds stage left right) (level : LogLevel)
    (first second : World → String) (change : Environment → Environment)
    (hchange : holds left.environment → holds (change left.environment)) :
    (silent holds quiet).worlds stage
      { left.note level first with environment := change (left.note level first).environment }
      { right.note level second with
        environment := change (right.note level second).environment } := by
  obtain ⟨log, rfl, hholds, hquiet⟩ := hworlds
  rw [World.note_eq left, World.note_eq { left with log }]
  refine ⟨_, rfl, hchange hholds, fun hstage => ?_⟩
  rw [hquiet hstage]
  rfl

def Kinship.silent (holds : Environment → Prop) (quiet : Prop) : Kinship where
  toComparison := .silent holds quiet
  fineAtom _ := trivial
  fineItem _ _ _ := trivial
  fineBuilt _ := trivial
  fineRead _ := trivial
  atom _ := rfl
  shape := by
    rintro _ value _ rfl
    cases value <;> constructor
  view := by
    rintro _ left _ value _ ⟨log, rfl, -⟩ rfl
    exact ⟨rfl, trivial⟩
  items := by
    rintro _ left _ handle _ ⟨log, rfl, -⟩ ⟨⟩
    exact List.forall₂_same.mpr fun _ _ => rfl
  reaches := by
    rintro _ left _ inner _ handle _ ⟨log, rfl, -⟩ ⟨⟩ ⟨⟩
    rfl
  devices := by
    rintro _ left _ ⟨log, rfl, -⟩
    exact ⟨rfl, rfl, rfl⟩
  setConsole := by
    rintro _ left _ console ⟨log, rfl, hholds⟩
    exact ⟨log, rfl, hholds⟩
  setTurtle := by
    rintro _ left _ turtle ⟨log, rfl, hholds⟩
    exact ⟨log, rfl, hholds⟩
  setSymbols := by
    rintro _ left _ symbols ⟨log, rfl, hholds⟩
    exact ⟨log, rfl, hholds⟩
  place _ := Comparison.silent_withStore holds quiet _ _
  buildAtoms _ := Comparison.silent_withStore holds quiet _ _
  replace position hhandle hvalue := by
    cases hhandle
    cases hvalue
    exact Comparison.silent_withStore holds quiet _ _

def Likeness.silent {holds : Environment → Prop} (hstable : Environment.Stable holds)
    (quiet : Prop) : Likeness where
  toKinship := .silent holds quiet
  fineCode _ := trivial
  named _ := rfl
  note level message hworlds :=
    Comparison.silent_note hworlds level (fun _ => message) (fun _ => message) id id
  procedures := by
    rintro _ left _ ⟨log, rfl, -⟩
    rfl
  nameAgain := by
    rintro _ left _ name again procedures ⟨log, rfl, hholds, hquiet⟩ hagain
    exact ⟨log, rfl, hstable.becomes (.nameAgain .refl hagain) hholds, hquiet⟩
  readProgram := by
    rintro _ left _ text lines procedures ⟨log, rfl, hholds, hquiet⟩ hread
    exact ⟨fun _ _ => trivial, log, rfl, hstable.becomes (.read .refl hread) hholds, hquiet⟩
  thing := by
    rintro _ left _ name ⟨log, rfl, -⟩
    dsimp only
    cases left.environment.thing? name with
    | none => exact .none
    | some value => exact .some rfl
  declare name := .modify fun _ _ _ _ hworlds =>
    Comparison.silent_note hworlds .trace _ _ (·.declare name) (hstable.declare name)
  make name hsame := by
    subst hsame
    exact .modify fun _ _ _ _ hworlds =>
      Comparison.silent_note hworlds .trace _ _ (·.make name _) (hstable.make name _)

theorem Likeness.silent_builds (hstable : Environment.Stable holds) (quiet : Prop) :
    (silent hstable quiet).Builds := by
  intro stage items others hitems
  cases List.forall₂_eq_eq_eq ▸ hitems
  exact Comparison.silent_withStore holds quiet _ _

/-- What an action of a primitive has to obey. -/
structure Orderly (action : Action α) : Prop where
  acts : ∀ {holds} (hstable : Environment.Stable holds) (quiet : Prop),
    (Likeness.silent hstable quiet).Acts () (fun _ => Eq) action action

namespace Orderly

theorem pure (value : α) : Orderly (Pure.pure value) where
  acts _ _ := .pure_eq value

theorem bind {action : Action α} {next : α → Action β} (haction : Orderly action)
    (hnext : ∀ value, Orderly (next value)) : Orderly (action >>= next) where
  acts hstable quiet :=
    (haction.acts hstable quiet).bind_eq fun _ _ value => (hnext value).acts hstable quiet

section

variable {action : Action α} (haction : Orderly action)

variable {holds : Environment → Prop}

include haction

/-- What no primitive can break holds after the action, which ends in the same way if the log is
silent. Where it fails, that is no reason for the machine to give. -/
theorem cases (hstable : Environment.Stable holds) (world : World)
    (hworld : holds world.environment) :
    (∃ value after, action world = .ok value after ∧ action world.silence = .ok value after.silence ∧
      holds after.environment) ∨
    ∃ cause after, action world = .error cause after ∧
      action world.silence = .error cause after.silence ∧ holds after.environment ∧
      cause.OfPrimitive := by
  obtain ⟨_, value, _, after, _, hrun, hother, -, ⟨log, rfl, hafter, hquiet⟩, rfl⟩ |
    ⟨_, cause, after, _, hrun, hother, -, ⟨log, rfl, hafter, hquiet⟩, hcause⟩ :=
    (haction.acts hstable True () trivial world world.silence
      ⟨_, rfl, hworld, fun _ => rfl⟩).cases
  · rw [hquiet trivial] at hother
    exact .inl ⟨value, after, hrun, hother, hafter⟩
  · rw [hquiet trivial] at hother
    exact .inr ⟨cause, after, hrun, hother, hafter, hcause⟩

theorem keeps (hstable : Environment.Stable holds) :
    Keeps (fun world => holds world.environment) action := by
  intro world hworld
  obtain ⟨_, _, hrun, _, hafter⟩ | ⟨_, _, hrun, _, hafter, _⟩ := haction.cases hstable world hworld
  · rw [hrun]
    exact hafter
  · rw [hrun]
    exact hafter

theorem scopes (names : List String) :
    Keeps (fun world => world.environment.scopeNames = names) action :=
  haction.keeps (Environment.stable_scopeNames names)

/-- What no definition of a program can break holds of all procedures after the action. -/
theorem procedures {property : Procedure → Prop} (hproperty : Definable property) :
    Keeps (fun world => world.environment.procedures.All property) action :=
  haction.keeps (Environment.stable_all hproperty)

theorem quiet : Commutes World.silence action := by
  intro world
  obtain ⟨_, _, hrun, hother, _⟩ | ⟨_, _, hrun, hother, _, _⟩ :=
    haction.cases Environment.stable_true world trivial
  · rw [hrun, hother, EStateM.Result.mapState_ok]
  · rw [hrun, hother, EStateM.Result.mapState_error]

/-- No action makes a log speak. -/
theorem silent : Keeps World.Silent action := by
  intro world hsilent
  have hsame : world.silence = world := by
    rw [World.silence, ← hsilent]
  have hrun := haction.quiet world
  rw [hsame] at hrun
  rw [hrun]
  cases action world <;> rfl

theorem faults {world after : World} {cause : RuntimeError}
    (hrun : action world = .error cause after) : cause.OfPrimitive := by
  obtain ⟨_, _, hother, _⟩ | ⟨_, _, hother, _, _, hcause⟩ :=
    haction.cases Environment.stable_true world trivial
  · rw [hrun] at hother
    cases hother
  · rw [hrun] at hother
    cases hother
    exact hcause

end

end Orderly

/-! ## All primitives -/

section

variable {code : Datum → Prop}

theorem Block.Alike.eq {left right : Block} (halike : left.Alike Eq code right) : left = right := by
  obtain ⟨lines, value⟩ := left
  obtain ⟨rfl, -, rfl⟩ := halike
  rfl

theorem Continuation.Alike.eq {left right : Continuation} (halike : left.Alike Eq code right) :
    left = right := by
  cases halike with
  | block hblock => rw [hblock.eq]
  | repeating remaining hblock => rw [hblock.eq]
  | running => rfl
  | iterating word hcurrent hpending hresults =>
    rw [List.forall₂_eq_eq_eq] at hpending hresults
    rw [hcurrent, hpending, hresults]

theorem Progress.Alike.eq {left right : Progress} (halike : left.Alike Eq code right) :
    left = right := by
  cases halike with
  | done hvalue | output hvalue => rw [hvalue]
  | pause => rfl
  | call hsite hkept => rw [hkept.eq]
  | bounded hprogram hkept =>
    rw [List.forall₂_eq_eq_eq] at hprogram
    rw [hprogram, hkept.eq]

theorem World.BlockStep.Alike.eq {left right : World.BlockStep}
    (halike : left.Alike Eq code right) : left = right := by
  cases halike with
  | calls hsite hblock => rw [hblock.eq]
  | ends hvalue => rw [hvalue]

end

theorem forall₂_self (values : List Value) : List.Forall₂ Eq values values :=
  List.forall₂_same.mpr fun _ _ => rfl

theorem rel_self {α : Type} {same : α → α → Prop} (hsame : ∀ value, same value value)
    (value? : Option α) : Option.Rel same value? value? := by
  cases value? with
  | none => exact .none
  | some value => exact .some (hsame value)

theorem Block.alike_self (block : Block) : block.Alike Eq (fun _ => True) block :=
  ⟨rfl, fun _ _ => trivial, rfl⟩

theorem Continuation.alike_self (continuation : Continuation) :
    continuation.Alike Eq (fun _ => True) continuation := by
  cases continuation with
  | block block => exact .block block.alike_self
  | repeating remaining block => exact .repeating remaining block.alike_self
  | running => exact .running
  | iterating state => exact .iterating state.word rfl (forall₂_self _) (forall₂_self _)

theorem Progress.alike_self (progress : Progress) : progress.Alike Eq (fun _ => True) progress := by
  cases progress with
  | done value => exact .done rfl
  | output value => exact .output rfl
  | pause => exact .pause
  | call site kept => exact .call trivial kept.alike_self
  | bounded program kept => exact .bounded (forall₂_self program) kept.alike_self

namespace World

theorem orderly_expectName (value : Value) : Orderly (expectName value) where
  acts hstable quiet := (Likeness.silent hstable quiet).expectName rfl

theorem orderly_expectList (value : Value) : Orderly (expectList value) where
  acts hstable quiet := ((Likeness.silent hstable quiet).expectList rfl).imp fun _ _ _ hsame => by
    cases hsame
    rfl

theorem orderly_expectBoolean (value : Value) : Orderly (expectBoolean value) where
  acts hstable quiet := (Likeness.silent hstable quiet).expectBoolean rfl

theorem orderly_expectInteger (value : Value) : Orderly (expectInteger value) where
  acts hstable quiet := (Likeness.silent hstable quiet).expectInteger rfl

theorem orderly_declare (name : String) : Orderly (declare name) where
  acts hstable quiet := ((Likeness.silent hstable quiet).declare name).imp fun _ _ _ _ => rfl

theorem orderly_make (name : String) (value : Value) : Orderly (make name value) where
  acts hstable quiet := ((Likeness.silent hstable quiet).make name rfl).imp fun _ _ _ _ => rfl

theorem orderly_readBlock (handle : ListHandle) : Orderly (readBlock handle) where
  acts hstable quiet := ((Likeness.silent hstable quiet).readBlock rfl).imp fun _ _ _ hlines => hlines.1

theorem orderly_startBlock (handle : ListHandle) : Orderly (startBlock handle) where
  acts hstable quiet := ((Likeness.silent hstable quiet).startBlock rfl).imp fun _ _ _ => Block.Alike.eq

theorem orderly_stepBlock (block : Block) (finished : Option Value) :
    Orderly (stepBlock block finished) where
  acts hstable quiet := ((Likeness.silent hstable quiet).stepBlock block.alike_self
    (rel_self (fun _ => rfl) finished)).imp fun _ _ _ => BlockStep.Alike.eq

variable [Segmentation]

theorem orderly_runNative (action : Native) (inputs : List Value) :
    Orderly (runNative action inputs) where
  acts hstable quiet := (Likeness.silent hstable quiet).runNative action (forall₂_self inputs)

theorem orderly_runSpecial (form : Special) (inputs : List Value)
    (continuation : Option Continuation) (finished : Option Value) :
    Orderly (runSpecial form inputs continuation finished) where
  acts hstable quiet := ((Likeness.silent hstable quiet).runSpecial form
    (fun _ _ => Likeness.silent_builds hstable quiet) (forall₂_self inputs)
    (rel_self Continuation.alike_self continuation) (rel_self (fun _ => rfl) finished)).imp
    fun _ _ _ => Progress.Alike.eq

end World

theorem Machine.orderly_bindInputs (params : List String) (values : List Value) :
    Orderly (bindInputs params values) where
  acts hstable quiet := ((Likeness.silent hstable quiet).bindInputs params (forall₂_self values)).imp
    fun _ _ _ _ => rfl

end Logo
