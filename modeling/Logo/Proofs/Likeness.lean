import Logo.Native
import Logo.Proofs.Computation
import Logo.Special
import Mathlib.Data.List.Forall2

/-!
# Actions on worlds that are alike

What a primitive does is asked about in many ways: whether the log or the addresses of lists play a
role, of what kind the values are that it hands out, what it leaves as it was. All of these say that
two runs of the primitive stay alike, each in its own sense of the word, and often the second run is
the first one over again. A likeness is such a sense. Once it is seen to go together with the few
operations of which primitives are made, all primitives act alike.
-/

namespace Logo

variable {α β γ δ : Type}

/-- An error for which a primitive can fail, and not the machine that calls it. -/
def RuntimeError.OfPrimitive : RuntimeError → Prop
  | .tooDeep _ _ | .notEnoughInputs _ _ _ => False
  | _ => True

theorem RuntimeError.OfPrimitive.ne_tooDeep {cause : RuntimeError} (hcause : cause.OfPrimitive)
    (name : String) (depth : Nat) : cause ≠ .tooDeep name depth := by
  rintro rfl
  exact hcause

/-- The result is good, or an error for which a primitive can fail. -/
inductive ComesTo (good : α → Prop) : Except RuntimeError α → Prop where
  | ok {value : α} (hgood : good value) : ComesTo good (.ok value)
  | error {cause : RuntimeError} (hcause : cause.OfPrimitive) : ComesTo good (.error cause)

theorem ComesTo.bind {good : α → Prop} {other : β → Prop} {result : Except RuntimeError α}
    {next : α → Except RuntimeError β} (hresult : ComesTo good result)
    (hnext : ∀ value, good value → ComesTo other (next value)) :
    ComesTo other (result >>= next) := by
  cases hresult with
  | ok hgood => exact hnext _ hgood
  | error hcause => exact .error hcause

theorem cases_rel {same : α → β → Prop} {left : Option α} {right : Option β}
    (hrel : Option.Rel same left right) :
    left = none ∧ right = none ∨
      ∃ first second, left = some first ∧ right = some second ∧ same first second := by
  cases hrel with
  | none => exact .inl ⟨rfl, rfl⟩
  | some hsame => exact .inr ⟨_, _, rfl, rfl, hsame⟩

/-- The values are of one kind, and the same unless they are lists. -/
inductive Value.SameShape : Value → Value → Prop where
  | atom (value : Atom) : SameShape (.atom value) (.atom value)
  | list (left right : ListHandle) : SameShape (.list left) (.list right)
  | call (site : Call) : SameShape (.call site) (.call site)
  | procedure (definition : Procedure) : SameShape (.procedure definition) (.procedure definition)

theorem Value.SameShape.atom?_eq {left right : Value} (hshape : left.SameShape right) :
    left.atom? = right.atom? := by
  cases hshape <;> rfl

def World.replaceItem (handle : ListHandle) (position : Nat) (value : Value) : Action Value :=
  World.withStore fun store =>
    (.none, ((store.copy value).2.set? handle position (store.copy value).1).getD
      (store.copy value).2)

/-! ## Acting alike -/

/-- Which worlds and which values are alike, and of what kinds data and lines of code are. The first
two may depend on a stage, which goes on as actions are run. Values that are alike stay alike. -/
structure Comparison where
  Stage : Type
  grows : Stage → Stage → Prop
  worlds : Stage → World → World → Prop
  values : Stage → Value → Value → Prop
  fine : Datum → Prop
  code : Datum → Prop
  refl : ∀ stage, grows stage stage
  trans : ∀ {stage middle later}, grows stage middle → grows middle later → grows stage later
  mono : ∀ {stage later left right}, grows stage later → values stage left right →
    values later left right

namespace Comparison

variable {first : EStateM.Result RuntimeError World α}
  {second : EStateM.Result RuntimeError World β}

/-- Two actions have failed for the same reason, or have values that belong together. The worlds
that they leave are alike. -/
inductive Ends (same : Comparison) (stage : same.Stage) (good : same.Stage → α → β → Prop) :
    EStateM.Result RuntimeError World α → EStateM.Result RuntimeError World β → Prop where
  | ok {later : same.Stage} {first : α} {second : β} {left right : World}
      (hgrows : same.grows stage later) (hworlds : same.worlds later left right)
      (hgood : good later first second) : Ends same stage good (.ok first left) (.ok second right)
  | error {later : same.Stage} {cause : RuntimeError} {left right : World}
      (hcause : cause.OfPrimitive) (hgrows : same.grows stage later)
      (hworlds : same.worlds later left right) :
      Ends same stage good (.error cause left) (.error cause right)

def Acts (same : Comparison) (stage : same.Stage) (good : same.Stage → α → β → Prop)
    (first : Action α) (second : Action β) : Prop :=
  ∀ later, same.grows stage later → ∀ left right, same.worlds later left right →
    same.Ends later good (first left) (second right)

variable {same : Comparison} {stage middle : same.Stage} {good : same.Stage → α → β → Prop}
  {other : same.Stage → γ → δ → Prop}

theorem all_mono (hgrows : same.grows stage middle) {left right : List Value}
    (hvalues : List.Forall₂ (same.values stage) left right) :
    List.Forall₂ (same.values middle) left right :=
  hvalues.imp fun _ _ => same.mono hgrows

theorem Ends.mono (hgrows : same.grows stage middle) (hends : same.Ends middle good first second) :
    same.Ends stage good first second := by
  cases hends with
  | ok hlater hworlds hgood => exact .ok (same.trans hgrows hlater) hworlds hgood
  | error hcause hlater hworlds => exact .error hcause (same.trans hgrows hlater) hworlds

theorem Ends.imp {weaker : same.Stage → α → β → Prop}
    {first : EStateM.Result RuntimeError World α} {second : EStateM.Result RuntimeError World β}
    (hends : same.Ends stage good first second)
    (hweaker : ∀ later value counterpart, good later value counterpart →
      weaker later value counterpart) : same.Ends stage weaker first second := by
  cases hends with
  | ok hgrows hworlds hgood => exact .ok hgrows hworlds (hweaker _ _ _ hgood)
  | error hcause hgrows hworlds => exact .error hcause hgrows hworlds

theorem Ends.cases (hends : same.Ends stage good first second) :
    (∃ later value counterpart left right, first = .ok value left ∧
      second = .ok counterpart right ∧ same.grows stage later ∧ same.worlds later left right ∧
      good later value counterpart) ∨
    ∃ later cause left right, first = .error cause left ∧ second = .error cause right ∧
      same.grows stage later ∧ same.worlds later left right ∧ cause.OfPrimitive := by
  cases hends with
  | ok hgrows hworlds hgood => exact .inl ⟨_, _, _, _, _, rfl, rfl, hgrows, hworlds, hgood⟩
  | error hcause hgrows hworlds => exact .inr ⟨_, _, _, _, rfl, rfl, hgrows, hworlds, hcause⟩

namespace Acts

theorem pure {first : α} {second : β}
    (hgood : ∀ later, same.grows stage later → good later first second) :
    same.Acts stage good (Pure.pure first) (Pure.pure second) :=
  fun later hgrows _ _ hworlds => .ok (same.refl later) hworlds (hgood later hgrows)

theorem pure_eq (value : α) :
    same.Acts stage (fun _ => Eq) (Pure.pure value) (Pure.pure value) :=
  pure fun _ _ => rfl

theorem pure_value {first second : Value} (hvalues : same.values stage first second) :
    same.Acts stage same.values (Pure.pure first) (Pure.pure second) :=
  pure fun _ hgrows => same.mono hgrows hvalues

theorem imp {weaker : same.Stage → α → β → Prop} {first : Action α} {second : Action β}
    (hacts : same.Acts stage good first second)
    (hweaker : ∀ later value counterpart, good later value counterpart →
      weaker later value counterpart) : same.Acts stage weaker first second :=
  fun later hgrows left right hworlds => (hacts later hgrows left right hworlds).imp hweaker

theorem throw {cause : RuntimeError} (hcause : cause.OfPrimitive) :
    same.Acts stage good (MonadExcept.throw cause) (MonadExcept.throw cause) :=
  fun later _ _ _ hworlds => .error hcause (same.refl later) hworlds

theorem bind {first : Action α} {second : Action β} {next : α → Action γ} {after : β → Action δ}
    (hfirst : same.Acts stage good first second)
    (hnext : ∀ later, same.grows stage later → ∀ value counterpart, good later value counterpart →
      same.Acts later other (next value) (after counterpart)) :
    same.Acts stage other (first >>= next) (second >>= after) := by
  intro later hgrows left right hworlds
  rw [bind_apply, bind_apply]
  obtain ⟨final, value, counterpart, leftAfter, rightAfter, hleft, hright, hlater, hafter, hgood⟩ |
    ⟨final, cause, leftAfter, rightAfter, hleft, hright, hlater, hafter, hcause⟩ :=
    (hfirst later hgrows left right hworlds).cases
  · rw [hleft, hright]
    have hrest := hnext final (same.trans hgrows hlater) value counterpart hgood
    exact (hrest final (same.refl _) leftAfter rightAfter hafter).mono hlater
  · rw [hleft, hright]
    exact .error hcause hlater hafter

/-- After actions whose values are the same, the same is done with them. -/
theorem bind_eq {first second : Action α} {next : α → Action γ} {after : α → Action δ}
    (hfirst : same.Acts stage (fun _ => Eq) first second)
    (hnext : ∀ later, same.grows stage later → ∀ value,
      same.Acts later other (next value) (after value)) :
    same.Acts stage other (first >>= next) (second >>= after) := by
  apply hfirst.bind
  rintro later hgrows value _ rfl
  exact hnext later hgrows value

/-- Actions that look at the world see worlds that are alike, and may put others in their place. -/
theorem get_bind_at {next : World → Action γ} {after : World → Action δ}
    (hnext : ∀ later, same.grows stage later → ∀ left right, same.worlds later left right →
      same.Ends later other (next left left) (after right right)) :
    same.Acts stage other (get >>= next) (get >>= after) :=
  hnext

theorem get_bind {next : World → Action γ} {after : World → Action δ}
    (hnext : ∀ later, same.grows stage later → ∀ left right, same.worlds later left right →
      same.Acts later other (next left) (after right)) :
    same.Acts stage other (get >>= next) (get >>= after) :=
  fun later hgrows left right hworlds =>
    hnext later hgrows left right hworlds later (same.refl later) left right hworlds

theorem modify {change update : World → World}
    (hchange : ∀ later, same.grows stage later → ∀ left right, same.worlds later left right →
      same.worlds later (change left) (update right)) :
    same.Acts stage (fun _ _ _ => True) (modify change) (modify update) :=
  fun later hgrows left right hworlds =>
    .ok (same.refl later) (hchange later hgrows left right hworlds) trivial

theorem lift {kind : α → Prop} {result : Except RuntimeError α} (hresult : ComesTo kind result) :
    same.Acts stage (fun _ value other => value = other ∧ kind value) (World.lift result)
      (World.lift result) := by
  cases hresult with
  | ok hkind => exact pure fun _ _ => ⟨rfl, hkind⟩
  | error hcause => exact throw hcause

end Acts

end Comparison

/-! ## Likenesses -/

/-- A comparison that goes together with everything of which natives are made, apart from the giving
of second names. -/
structure Kinship extends Comparison where
  fineAtom : ∀ value, fine (.atom value)
  fineItem : ∀ {items text place}, fine (.list items text place) → ∀ item ∈ items, fine item
  fineBuilt : ∀ {items}, (∀ item ∈ items, fine item) → fine (.built items)
  fineRead : ∀ {text datum}, readList text = .ok datum → fine datum
  atom : ∀ {stage} value, values stage (.atom value) (.atom value)
  shape : ∀ {stage left right}, values stage left right → left.SameShape right
  view : ∀ {stage left right first second}, worlds stage left right →
    values stage first second → left.view first = right.view second ∧ fine (right.view second)
  items : ∀ {stage left right first second}, worlds stage left right →
    values stage (.list first) (.list second) →
    List.Forall₂ (values stage) (left.store.items first) (right.store.items second)
  reaches : ∀ {stage left right inner other first second}, worlds stage left right →
    values stage (.list inner) (.list other) → values stage (.list first) (.list second) →
    left.store.reaches inner first = right.store.reaches other second
  devices : ∀ {stage left right}, worlds stage left right →
    left.console = right.console ∧ left.turtle = right.turtle ∧ left.symbols = right.symbols
  setConsole : ∀ {stage left right} console, worlds stage left right →
    worlds stage { left with console } { right with console }
  setTurtle : ∀ {stage left right} turtle, worlds stage left right →
    worlds stage { left with turtle } { right with turtle }
  setSymbols : ∀ {stage left right} symbols, worlds stage left right →
    worlds stage { left with symbols } { right with symbols }
  place : ∀ {stage datum}, fine datum →
    toComparison.Acts stage values (World.place datum) (World.place datum)
  buildAtoms : ∀ {stage} (atoms : List Atom), toComparison.Acts stage values
    (World.build (atoms.map .atom)) (World.build (atoms.map .atom))
  replace : ∀ {stage handle other first second} position,
    values stage (.list handle) (.list other) → values stage first second →
    toComparison.Acts stage values (World.replaceItem handle position first)
      (World.replaceItem other position second)

/-- A comparison that goes together with everything of which primitives are made, apart from the
building of lists that share their items. -/
structure Likeness extends Kinship where
  fineCode : ∀ {datum}, code datum → fine datum
  named : ∀ {stage} name,
    values stage (.call ⟨name, [], .nowhere⟩) (.call ⟨name, [], .nowhere⟩)
  note : ∀ {stage left right} level (message : String), worlds stage left right →
    worlds stage (left.note level fun _ => message) (right.note level fun _ => message)
  procedures : ∀ {stage left right}, worlds stage left right →
    left.environment.procedures = right.environment.procedures
  nameAgain : ∀ {stage left right name again procedures}, worlds stage left right →
    right.environment.procedures.nameAgain? name again = some procedures →
    worlds stage (left.withProcedures procedures) (right.withProcedures procedures)
  readProgram : ∀ {stage left right text lines procedures}, worlds stage left right →
    readProgram right.environment.procedures text = .ok (lines, procedures) →
    (∀ line ∈ lines, code line) ∧
      worlds stage (left.withProcedures procedures) (right.withProcedures procedures)
  thing : ∀ {stage left right} name, worlds stage left right →
    Option.Rel (values stage) (left.environment.thing? name) (right.environment.thing? name)
  declare : ∀ {stage} name,
    toComparison.Acts stage (fun _ _ _ => True) (World.declare name) (World.declare name)
  make : ∀ {stage first second} name, values stage first second →
    toComparison.Acts stage (fun _ _ _ => True) (World.make name first) (World.make name second)

namespace Kinship

variable (same : Kinship) {stage : same.Stage}

variable {left right : List Value}

theorem map_view {left right : World} (hworlds : same.worlds stage left right)
    {first second : List Value} (hvalues : List.Forall₂ (same.values stage) first second) :
    first.map left.view = second.map right.view ∧
      ∀ datum ∈ second.map right.view, same.fine datum := by
  induction hvalues with
  | nil => exact ⟨rfl, List.forall_mem_nil _⟩
  | cons hvalue _ ih =>
    obtain ⟨hview, hfine⟩ := same.view hworlds hvalue
    simp only [List.map_cons, List.forall_mem_cons]
    exact ⟨by rw [hview, ih.1], hfine, ih.2⟩

theorem getD (hvalues : List.Forall₂ (same.values stage) left right) (index : Nat) :
    same.values stage (left.getD index .nil) (right.getD index .nil) := by
  induction hvalues generalizing index with
  | nil => exact same.atom .nil
  | cons hvalue _ ih =>
    cases index with
    | zero => exact hvalue
    | succ index => exact ih index

theorem getElem? (hvalues : List.Forall₂ (same.values stage) left right) (index : Nat) :
    Option.Rel (same.values stage) left[index]? right[index]? := by
  induction hvalues generalizing index with
  | nil => exact .none
  | cons hvalue _ ih =>
    cases index with
    | zero => exact .some hvalue
    | succ index => exact ih index

end Kinship

end Logo
