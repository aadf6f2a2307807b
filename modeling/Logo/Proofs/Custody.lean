import Logo.Proofs.Orderly

/-!
# What programs get hold of

Values and code are handed about in many ways, but made in few: a datum is placed in the store, a
list is built of values, an item of a list is replaced, a text is read. To see that every value and
every line of code that a program gets hold of is of some kind, it is enough to look at these. The
kind may depend on the store, and then a value has to stay of that kind while the store changes.
-/

namespace Logo

/-- Stores that are in order, values that may be held next to a store, data that may be placed in
it, and data that may stand in programs. -/
structure Custody where
  sound : Store → Prop
  held : Store → Value → Prop
  fine : Datum → Prop
  code : Datum → Prop

namespace Custody

variable (custody : Custody)

/-- What may be held next to the store may be held next to the later one too. -/
def Grows (store later : Store) : Prop :=
  ∀ value, custody.held store value → custody.held later value

/-- A change that makes a value leaves the store in order, and the value may be held. -/
def Gives (store : Store) (result : Value × Store) : Prop :=
  custody.sound result.2 ∧ custody.Grows store result.2 ∧ custody.held result.2 result.1

def FineBody (definition : Procedure) : Prop :=
  ∀ line ∈ definition.body, custody.code line

/-- The kinds go together with everything that makes data, values and code, apart from the building
of lists that share their items. -/
structure Lawful : Prop where
  atom : ∀ value, custody.fine (.atom value)
  item : ∀ {items text place}, custody.fine (.list items text place) →
    ∀ item ∈ items, custody.fine item
  built : ∀ {items}, (∀ item ∈ items, custody.fine item) → custody.fine (.built items)
  call : ∀ {site : Call}, custody.code (.call site) ↔ ∀ input ∈ site.inputs, custody.code input
  fine : ∀ {datum}, custody.code datum → custody.fine datum
  readList : ∀ {text datum}, readList text = .ok datum → custody.fine datum
  readProgram : ∀ {procedures source lines final}, procedures.All custody.FineBody →
    readProgram procedures source = .ok (lines, final) →
      (∀ line ∈ lines, custody.code line) ∧ final.All custody.FineBody
  empty : custody.sound .empty
  heldAtom : ∀ store value, custody.held store (.atom value)
  heldCall : ∀ {store site}, custody.held store (.call site) ↔ custody.code (.call site)
  heldItem : ∀ {store handle}, custody.sound store → custody.held store (.list handle) →
    ∀ value ∈ store.items handle, custody.held store value
  view : ∀ {store value}, custody.sound store → custody.held store value →
    custody.fine (store.view value)
  place : ∀ {store datum}, custody.sound store → custody.fine datum →
    custody.Gives store (store.place datum)
  buildAtoms : ∀ {store} (atoms : List Atom), custody.sound store →
    custody.Gives store (store.build (atoms.map .atom))
  /-- A copy of the value takes the place of an item. -/
  replace : ∀ {store handle value} (position : Nat), custody.sound store →
    custody.held store (.list handle) → custody.held store value →
    custody.Gives store
      (.none, ((store.copy value).2.set? handle position (store.copy value).1).getD
        (store.copy value).2)

/-- If the action ends with a list that it has built of held values, then that was in order. -/
def MayBuild (world : World) (action : Action Progress) : Prop :=
  ∀ items, (∀ value ∈ items, custody.held world.store value) →
    action world = .ok (.done (world.store.build items).1)
      { world with store := (world.store.build items).2 } →
    custody.Gives world.store (world.store.build items)

def Builds : Prop :=
  ∀ {store items}, custody.sound store → (∀ value ∈ items, custody.held store value) →
    custody.Gives store (store.build items)

end Custody

/-! ## Variables -/

def Scope.All (property : Value → Prop) (scope : Scope) : Prop :=
  ∀ key value, scope.get? key = some value → property value

namespace Scope.All

variable {property : Value → Prop} {scope : Scope}

theorem new (property : Value → Prop) (name : String) : (Scope.new name).All property := by
  intro key value hget
  cases hget

theorem set (hscope : scope.All property) {value : Value} (hvalue : property value)
    (key : String) : (scope.set key value).All property := by
  intro other found hget
  rw [Scope.get?, Scope.set, NameTable.get?_insert] at hget
  split at hget
  · cases hget
    exact hvalue
  · exact hscope other found hget

theorem declare (hscope : scope.All property) (hnone : property .none) (key : String) :
    (scope.declare key).All property := by
  rw [Scope.declare]
  split
  · exact hscope
  · intro other found hget
    rw [Scope.get?, NameTable.get?_insert] at hget
    split at hget
    · cases hget
      exact hnone
    · exact hscope other found hget

end Scope.All

structure Environment.All (property : Value → Prop) (environment : Environment) : Prop where
  inner : ∀ scope ∈ environment.inner, scope.All property
  global : environment.global.All property

namespace Environment.All

variable {property other : Value → Prop} {environment : Environment}

section

variable (hall : environment.All property)

include hall

theorem mono (hmono : ∀ value, property value → other value) : environment.All other where
  inner scope hscope key value hget := hmono value (hall.inner scope hscope key value hget)
  global key value hget := hmono value (hall.global key value hget)

theorem push (name : String) : (environment.push (.new name)).All property where
  inner := List.forall_mem_cons.mpr ⟨Scope.All.new property name, hall.inner⟩
  global := hall.global

theorem pop : environment.pop.All property where
  inner scope hscope := hall.inner scope (List.mem_of_mem_tail hscope)
  global := hall.global

theorem truncate : environment.truncate.All property where
  inner := List.forall_mem_nil _
  global := hall.global

end

theorem assignNearest? {key : String} {value : Value} (hvalue : property value)
    {scopes assigned : List Scope} (hscopes : ∀ scope ∈ scopes, scope.All property)
    (hassign : Environment.assignNearest? key value scopes = some assigned) :
    ∀ scope ∈ assigned, scope.All property := by
  induction scopes generalizing assigned with
  | nil => cases hassign
  | cons scope outer ih =>
    obtain ⟨hscope, houter⟩ := List.forall_mem_cons.mp hscopes
    rw [Environment.assignNearest?] at hassign
    split at hassign
    · cases hassign
      exact List.forall_mem_cons.mpr ⟨hscope.set hvalue key, houter⟩
    · obtain ⟨others, hothers, rfl⟩ := Option.map_eq_some_iff.mp hassign
      exact List.forall_mem_cons.mpr ⟨hscope, ih houter hothers⟩

theorem make (hall : environment.All property) {value : Value} (hvalue : property value)
    (name : String) : (environment.make name value).All property := by
  rw [Environment.make]
  split
  · rename_i inner hassign
    exact ⟨assignNearest? hvalue hall.inner hassign, hall.global⟩
  · exact ⟨hall.inner, hall.global.set hvalue _⟩

theorem declare (hall : environment.All property) (hnone : property .none) (name : String) :
    (environment.declare name).All property := by
  rw [Environment.declare, Environment.modifyTop]
  split
  · exact ⟨hall.inner, hall.global.declare hnone _⟩
  · rename_i scope outer hinner
    have hscopes := hall.inner
    rw [hinner] at hscopes
    obtain ⟨hscope, houter⟩ := List.forall_mem_cons.mp hscopes
    exact ⟨List.forall_mem_cons.mpr ⟨hscope.declare hnone _, houter⟩, hall.global⟩

theorem thing? (hall : environment.All property) {name : String} {value : Value}
    (hthing : environment.thing? name = some value) : property value := by
  rw [Environment.thing?] at hthing
  split at hthing
  · rename_i found hfound
    cases hthing
    obtain ⟨scope, hscope, hget⟩ := List.exists_of_findSome?_eq_some hfound
    exact hall.inner scope hscope _ _ hget
  · exact hall.global _ _ hthing

end Environment.All

/-! ## Safe actions -/

namespace Custody

variable {custody : Custody} {store middle later : Store} {α : Type}

theorem Grows.refl (store : Store) : custody.Grows store store :=
  fun _ hvalue => hvalue

theorem Grows.trans (hfirst : custody.Grows store middle) (hsecond : custody.Grows middle later) :
    custody.Grows store later :=
  fun value hvalue => hsecond value (hfirst value hvalue)

/-- The store is in order, and all variables and procedures are of the right kinds. -/
structure Covers (custody : Custody) (world : World) : Prop where
  store : custody.sound world.store
  bindings : world.environment.All (custody.held world.store)
  procedures : world.environment.procedures.All custody.FineBody

theorem Covers.procedures_set {world : World} (hworld : custody.Covers world)
    {procedures : Procedures} (hprocedures : procedures.All custody.FineBody) :
    custody.Covers (world.withProcedures procedures) :=
  ⟨hworld.store, ⟨hworld.bindings.inner, hworld.bindings.global⟩, hprocedures⟩

/-- A world is compared with itself: it is in order, and the values are of the right kind. The stage
is the store, which may let go of nothing. -/
def comparison (custody : Custody) : Comparison where
  Stage := Store
  grows := custody.Grows
  worlds store left right := left = right ∧ custody.Covers left ∧ left.store = store
  values store left right := left = right ∧ custody.held store left
  fine := custody.fine
  code := custody.code
  refl := Grows.refl
  trans := Grows.trans
  mono hgrows hvalues := ⟨hvalues.1, hgrows _ hvalues.2⟩

theorem acts_withStore {change : Store → Value × Store}
    (hchange : ∀ later, custody.sound later → custody.Grows store later →
      custody.Gives later (change later)) :
    custody.comparison.Acts store custody.comparison.values (World.withStore change)
      (World.withStore change) := by
  rintro _ hgrows world _ ⟨rfl, hworld, rfl⟩
  obtain ⟨hsound, hlater, hheld⟩ := hchange world.store hworld.store hgrows
  exact .ok hlater ⟨rfl, ⟨hsound, hworld.bindings.mono hlater, hworld.procedures⟩, rfl⟩
    ⟨rfl, hheld⟩

theorem forall₂_held {values : List Value} (hvalues : ∀ value ∈ values, custody.held store value) :
    List.Forall₂ (custody.comparison.values store) values values :=
  List.forall₂_same.mpr fun value hvalue => ⟨rfl, hvalues value hvalue⟩

def likeness (hlaws : custody.Lawful) : Likeness where
  toComparison := custody.comparison
  fineAtom := hlaws.atom
  fineItem := hlaws.item
  fineBuilt := hlaws.built
  fineCode := hlaws.fine
  fineRead := hlaws.readList
  atom value := ⟨rfl, hlaws.heldAtom _ value⟩
  named name := ⟨rfl, hlaws.heldCall.mpr (hlaws.call.mpr (List.forall_mem_nil _))⟩
  shape := by
    rintro _ value _ ⟨rfl, -⟩
    cases value <;> constructor
  view := by
    rintro _ world _ value _ ⟨rfl, hworld, rfl⟩ ⟨rfl, hheld⟩
    exact ⟨rfl, hlaws.view hworld.store hheld⟩
  items := by
    rintro _ world _ handle _ ⟨rfl, hworld, rfl⟩ ⟨⟨⟩, hheld⟩
    exact forall₂_held (hlaws.heldItem hworld.store hheld)
  reaches := by
    rintro _ world _ inner _ handle _ ⟨rfl, -⟩ ⟨⟨⟩, -⟩ ⟨⟨⟩, -⟩
    rfl
  devices := by
    rintro _ world _ ⟨rfl, -⟩
    exact ⟨rfl, rfl, rfl⟩
  setConsole := by
    rintro _ world _ console ⟨rfl, hworld, hstore⟩
    exact ⟨rfl, ⟨hworld.store, hworld.bindings, hworld.procedures⟩, hstore⟩
  setTurtle := by
    rintro _ world _ turtle ⟨rfl, hworld, hstore⟩
    exact ⟨rfl, ⟨hworld.store, hworld.bindings, hworld.procedures⟩, hstore⟩
  setSymbols := by
    rintro _ world _ symbols ⟨rfl, hworld, hstore⟩
    exact ⟨rfl, ⟨hworld.store, hworld.bindings, hworld.procedures⟩, hstore⟩
  note := by
    rintro _ world _ level message ⟨rfl, hworld, hstore⟩
    rw [World.note_eq]
    exact ⟨rfl, ⟨hworld.store, hworld.bindings, hworld.procedures⟩, hstore⟩
  procedures := by
    rintro _ world _ ⟨rfl, -⟩
    rfl
  nameAgain := by
    rintro _ world _ name again procedures ⟨rfl, hworld, hstore⟩ hagain
    exact ⟨rfl, hworld.procedures_set (hworld.procedures.nameAgain? hagain), hstore⟩
  readProgram := by
    rintro _ world _ text lines procedures ⟨rfl, hworld, hstore⟩ hread
    obtain ⟨hlines, hprocedures⟩ := hlaws.readProgram hworld.procedures hread
    exact ⟨hlines, rfl, hworld.procedures_set hprocedures, hstore⟩
  thing := by
    rintro _ world _ name ⟨rfl, hworld, rfl⟩
    cases hthing : world.environment.thing? name with
    | none => exact .none
    | some value => exact .some ⟨rfl, hworld.bindings.thing? hthing⟩
  declare name := by
    apply Comparison.Acts.modify
    rintro _ _ world _ ⟨rfl, hworld, rfl⟩
    rw [World.note_eq]
    refine ⟨rfl, ⟨hworld.store, hworld.bindings.declare (hlaws.heldAtom _ _) name, ?_⟩, rfl⟩
    rw [Environment.procedures_declare]
    exact hworld.procedures
  make name hvalue := by
    obtain ⟨rfl, hheld⟩ := hvalue
    apply Comparison.Acts.modify
    rintro _ hgrows world _ ⟨rfl, hworld, rfl⟩
    rw [World.note_eq]
    refine ⟨rfl, ⟨hworld.store, hworld.bindings.make (hgrows _ hheld) name, ?_⟩, rfl⟩
    rw [Environment.procedures_make]
    exact hworld.procedures
  place hdatum := acts_withStore fun _ hsound _ => hlaws.place hsound hdatum
  buildAtoms atoms := acts_withStore fun _ hsound _ => hlaws.buildAtoms atoms hsound
  replace position hhandle hvalue := by
    obtain ⟨⟨⟩, hlist⟩ := hhandle
    obtain ⟨rfl, hheld⟩ := hvalue
    exact acts_withStore fun _ hsound hgrows =>
      hlaws.replace position hsound (hgrows _ hlist) (hgrows _ hheld)

/-! ## All primitives -/

theorem held_of_forall₂ {values others : List Value}
    (hvalues : List.Forall₂ (custody.comparison.values store) values others) :
    values = others ∧ ∀ value ∈ values, custody.held store value := by
  induction hvalues with
  | nil => exact ⟨rfl, List.forall_mem_nil _⟩
  | cons hvalue _ ih =>
    obtain ⟨rfl, hheld⟩ := hvalue
    obtain ⟨rfl, hothers⟩ := ih
    exact ⟨rfl, List.forall_mem_cons.mpr ⟨hheld, hothers⟩⟩

variable {world : World} {inputs : List Value} {finished : Option Value}
  {continuation : Option Continuation}

/-- An iteration that has run out of values ends with an atom, or with a list of its results. -/
theorem ends_of_iterated (hlaws : custody.Lawful) (hworld : custody.Covers world)
    {mode : Iteration} {action : Action Progress}
    {result other : EStateM.Result RuntimeError World Progress} (hrun : action world = result)
    (hiterated : (likeness hlaws).Iterated world.store mode world world result other)
    (hbuild : mode ≠ .find → custody.MayBuild world action) :
    custody.comparison.Ends world.store (likeness hlaws).progress result result := by
  have hsame : custody.comparison.worlds world.store world world := ⟨rfl, hworld, rfl⟩
  have hatom : ∀ value, custody.comparison.Ends world.store (likeness hlaws).progress
      (.ok (.done (.atom value)) world) (.ok (.done (.atom value)) world) :=
    fun value => .ok (Grows.refl _) hsame (.done ((likeness hlaws).atom value))
  cases hiterated with
  | fails hcause => exact .error hcause (Grows.refl _) hsame
  | found hvalue => exact .ok (Grows.refl _) hsame (.done ⟨rfl, hvalue.2⟩)
  | next hhandle word hresults hpending =>
    obtain ⟨⟨⟩, hlist⟩ := hhandle
    obtain ⟨rfl, hheld⟩ := held_of_forall₂ hresults
    cases hpending with
    | cons hcurrent hpending =>
      obtain rfl := hcurrent.1
      obtain rfl := (held_of_forall₂ hpending).1
      exact (likeness hlaws).nextIteration_cons mode ⟨rfl, hlist⟩ word hcurrent hresults hpending
        world.store (Grows.refl _) world world hsame
    | nil =>
      have hbuilt : ∀ results, (∀ value ∈ results, custody.held world.store value) →
          mode ≠ .find → action world = .ok (.done (world.store.build results).1)
            { world with store := (world.store.build results).2 } →
          custody.comparison.Ends world.store (likeness hlaws).progress (action world)
            (action world) := by
        intro results hresults hmode hends
        obtain ⟨hsound, hgrows, hheld⟩ := hbuild hmode results hresults hends
        rw [hends]
        exact .ok hgrows
          ⟨rfl, ⟨hsound, hworld.bindings.mono hgrows, hworld.procedures⟩, rfl⟩
          (.done ⟨rfl, hheld⟩)
      have hresults := hbuilt _ fun value hvalue => hheld value (List.mem_reverse.mp hvalue)
      rw [hrun] at hresults
      cases mode with
      | find => exact hatom .nil
      | map =>
        cases word with
        | true => exact hatom _
        | false => exact hresults (by simp) rfl
      | filter =>
        cases word with
        | true => exact hatom _
        | false => exact hresults (by simp) rfl

variable [Segmentation]

/-- A special form ends in a world in order and lets go of nothing, and what it asks for is of the
right kind. -/
theorem ends_runSpecial (hlaws : custody.Lawful) (hworld : custody.Covers world)
    (hinputs : List.Forall₂ (custody.comparison.values world.store) inputs inputs)
    (hkept : Option.Rel ((likeness hlaws).kept world.store) continuation continuation)
    (hfinished : Option.Rel (custody.comparison.values world.store) finished finished)
    (form : Special)
    (hbuild : ∀ mode, form = .iterate mode → mode ≠ .find →
      custody.MayBuild world (World.runSpecial form inputs continuation finished)) :
    custody.comparison.Ends world.store (likeness hlaws).progress
      (World.runSpecial form inputs continuation finished world)
      (World.runSpecial form inputs continuation finished world) := by
  by_cases hiterate : ∃ mode, form = .iterate mode
  · obtain ⟨mode, rfl⟩ := hiterate
    have hiterated := (likeness hlaws).iterated ⟨rfl, hworld, rfl⟩ mode
      ((likeness hlaws).getD hinputs 0) ((likeness hlaws).getD hinputs 1) hkept hfinished
    exact ends_of_iterated hlaws hworld rfl hiterated (hbuild mode rfl)
  · exact (likeness hlaws).runSpecial form (fun mode hform => (hiterate ⟨mode, hform⟩).elim) hinputs
      hkept hfinished world.store (Grows.refl _) world world ⟨rfl, hworld, rfl⟩

end Custody

end Logo
