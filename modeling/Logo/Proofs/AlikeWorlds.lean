import Logo.Proofs.AlikeForms
import Logo.Proofs.Matching

/-!
# Worlds alike up to addresses

Two worlds are alike if everything in them is the same, apart from where their lists stand and from
what the log says. This is a likeness, so primitives do not see where lists stand.
-/

namespace Logo

/-! ## Variables -/

def NameTable.Alike {α β : Type} (same : α → β → Prop) (left : NameTable α) (right : NameTable β) :
    Prop :=
  ∀ name, Option.Rel same (left.get? name) (right.get? name)

namespace NameTable.Alike

variable {α β : Type} {same other : α → β → Prop} {left : NameTable α} {right : NameTable β}

theorem nil : NameTable.Alike same [] [] :=
  fun _ => .none

variable (halike : NameTable.Alike same left right)

include halike

theorem mono (hmono : ∀ first second, same first second → other first second) :
    NameTable.Alike other left right := by
  intro name
  obtain ⟨hfirst, hsecond⟩ | ⟨_, _, hfirst, hsecond, hsame⟩ := cases_rel (halike name)
  · rw [hfirst, hsecond]
    exact .none
  · rw [hfirst, hsecond]
    exact .some (hmono _ _ hsame)

theorem contains_eq (name : String) : left.contains name = right.contains name := by
  rw [NameTable.contains, NameTable.contains]
  obtain ⟨hfirst, hsecond⟩ | ⟨_, _, hfirst, hsecond, -⟩ := cases_rel (halike name) <;>
    rw [hfirst, hsecond] <;> rfl

theorem insert (name : String) {first : α} {second : β} (hvalue : same first second) :
    NameTable.Alike same (left.insert name first) (right.insert name second) := by
  intro key
  rw [NameTable.get?_insert, NameTable.get?_insert]
  split
  · exact .some hvalue
  · exact halike key

end NameTable.Alike

inductive Binding.Alike (pairs : Matching) : Binding → Binding → Prop where
  | declared : Alike pairs .declared .declared
  | assigned {left right : Value} (halike : left.Alike pairs right) :
      Alike pairs (.assigned left) (.assigned right)

variable {pairs : Matching}

theorem Binding.Alike.read {left right : Binding} (halike : left.Alike pairs right) :
    left.read.Alike pairs right.read := by
  cases halike with
  | declared => exact .atom .none
  | assigned halike => exact halike

structure Scope.Alike (pairs : Matching) (left right : Scope) : Prop where
  name : left.name = right.name
  members : NameTable.Alike (Binding.Alike pairs) left.members right.members

namespace Scope.Alike

variable {pairs later : Matching} {left right : Scope}

theorem mono (hgrows : pairs.Grows later) (halike : left.Alike pairs right) :
    left.Alike later right where
  name := halike.name
  members := halike.members.mono fun first second hsame => by
    cases hsame with
    | declared => exact .declared
    | assigned hvalue => exact .assigned (hvalue.mono hgrows)

theorem new (pairs : Matching) (name : String) : (Scope.new name).Alike pairs (.new name) :=
  ⟨rfl, NameTable.Alike.nil⟩

variable (halike : left.Alike pairs right)

include halike

theorem contains_eq (key : String) : left.contains key = right.contains key :=
  halike.members.contains_eq key

theorem get? (key : String) : Option.Rel (Value.Alike pairs) (left.get? key) (right.get? key) := by
  rw [Scope.get?, Scope.get?]
  obtain ⟨hfirst, hsecond⟩ | ⟨_, _, hfirst, hsecond, hsame⟩ := cases_rel (halike.members key)
  · rw [hfirst, hsecond]
    exact .none
  · rw [hfirst, hsecond]
    exact .some hsame.read

theorem set (key : String) {value other : Value} (hvalue : value.Alike pairs other) :
    (left.set key value).Alike pairs (right.set key other) :=
  ⟨halike.name, halike.members.insert key (.assigned hvalue)⟩

theorem declare (key : String) : (left.declare key).Alike pairs (right.declare key) := by
  rw [Scope.declare, Scope.declare, halike.contains_eq]
  split
  · exact halike
  · exact ⟨halike.name, halike.members.insert key .declared⟩

end Scope.Alike

structure Environment.Alike (pairs : Matching) (left right : Environment) : Prop where
  inner : List.Forall₂ (Scope.Alike pairs) left.inner right.inner
  global : left.global.Alike pairs right.global
  procedures : left.procedures = right.procedures

namespace Environment.Alike

variable {pairs later : Matching} {left right : Environment}

variable {first second : List Scope} {value other : Value}

theorem mono (hgrows : pairs.Grows later) (halike : left.Alike pairs right) :
    left.Alike later right where
  inner := halike.inner.imp fun _ _ => Scope.Alike.mono hgrows
  global := halike.global.mono hgrows
  procedures := halike.procedures

theorem push (halike : left.Alike pairs right) (name : String) :
    (left.push (.new name)).Alike pairs (right.push (.new name)) :=
  ⟨.cons (.new pairs name) halike.inner, halike.global, halike.procedures⟩

theorem pop (halike : left.Alike pairs right) : left.pop.Alike pairs right.pop := by
  obtain ⟨leftInner, _, _⟩ := left
  obtain ⟨rightInner, _, _⟩ := right
  obtain ⟨hinner, hglobal, hprocedures⟩ := halike
  refine ⟨?_, hglobal, hprocedures⟩
  cases hinner with
  | nil => exact .nil
  | cons _ hrest => exact hrest

theorem assignNearest? (halike : List.Forall₂ (Scope.Alike pairs) first second) (key : String)
    (hvalue : value.Alike pairs other) :
    Option.Rel (List.Forall₂ (Scope.Alike pairs)) (Environment.assignNearest? key value first)
      (Environment.assignNearest? key other second) := by
  induction halike with
  | nil => exact .none
  | cons hscope hrest ih =>
    rw [Environment.assignNearest?, Environment.assignNearest?, hscope.contains_eq]
    split
    · exact .some (.cons (hscope.set key hvalue) hrest)
    · obtain ⟨hfirst, hsecond⟩ | ⟨_, _, hfirst, hsecond, hassigned⟩ := cases_rel ih
      · rw [hfirst, hsecond]
        exact .none
      · rw [hfirst, hsecond]
        exact .some (.cons hscope hassigned)

theorem make (halike : left.Alike pairs right) (name : String) (hvalue : value.Alike pairs other) :
    (left.make name value).Alike pairs (right.make name other) := by
  rw [Environment.make, Environment.make]
  obtain ⟨hfirst, hsecond⟩ | ⟨_, _, hfirst, hsecond, hinner⟩ :=
    cases_rel (assignNearest? halike.inner (Text.lowercase name) hvalue)
  · rw [hfirst, hsecond]
    exact ⟨halike.inner, halike.global.set _ hvalue, halike.procedures⟩
  · rw [hfirst, hsecond]
    exact ⟨hinner, halike.global, halike.procedures⟩

theorem declare (halike : left.Alike pairs right) (name : String) :
    (left.declare name).Alike pairs (right.declare name) := by
  obtain ⟨leftInner, _, _⟩ := left
  obtain ⟨rightInner, _, _⟩ := right
  obtain ⟨hinner, hglobal, hprocedures⟩ := halike
  cases hinner with
  | nil => exact ⟨.nil, hglobal.declare _, hprocedures⟩
  | cons hscope hrest => exact ⟨.cons (hscope.declare _) hrest, hglobal, hprocedures⟩

theorem findSome? (halike : List.Forall₂ (Scope.Alike pairs) first second) (key : String) :
    Option.Rel (Value.Alike pairs) (first.findSome? (·.get? key))
      (second.findSome? (·.get? key)) := by
  induction halike with
  | nil => exact .none
  | cons hscope _ ih =>
    rw [List.findSome?_cons, List.findSome?_cons]
    obtain ⟨hfirst, hsecond⟩ | ⟨_, _, hfirst, hsecond, hvalue⟩ := cases_rel (hscope.get? key)
    · rw [hfirst, hsecond]
      exact ih
    · rw [hfirst, hsecond]
      exact .some hvalue

theorem thing? (halike : left.Alike pairs right) (name : String) :
    Option.Rel (Value.Alike pairs) (left.thing? name) (right.thing? name) := by
  rw [Environment.thing?, Environment.thing?]
  obtain ⟨hfirst, hsecond⟩ | ⟨_, _, hfirst, hsecond, hvalue⟩ :=
    cases_rel (findSome? halike.inner (Text.lowercase name))
  · rw [hfirst, hsecond]
    exact halike.global.get? _
  · rw [hfirst, hsecond]
    exact .some hvalue

end Environment.Alike

/-! ## Worlds -/

/-- Everything is the same, apart from where lists stand and from the log. -/
structure World.Alike (reserve : Reserve) (pairs : Matching) (left right : World) : Prop where
  environment : left.environment.Alike pairs right.environment
  store : left.store.Matched reserve pairs right.store
  acyclicLeft : left.store.Acyclic
  acyclicRight : right.store.Acyclic
  console : left.console = right.console
  turtle : left.turtle = right.turtle
  symbols : left.symbols = right.symbols

namespace World.Alike

variable {reserve : Reserve} {pairs later : Matching} {left right : World}

variable (halike : left.Alike reserve pairs right)

include halike

theorem view_eq {first second : Value} (hvalue : first.Alike pairs second) :
    left.view first = right.view second :=
  halike.store.view_eq halike.acyclicLeft halike.acyclicRight hvalue

theorem environment_set {first second : Environment} (henvironment : first.Alike pairs second) :
    World.Alike reserve pairs { left with environment := first }
      { right with environment := second } :=
  ⟨henvironment, halike.store, halike.acyclicLeft, halike.acyclicRight, halike.console,
    halike.turtle, halike.symbols⟩

theorem procedures_set (procedures : Procedures) :
    World.Alike reserve pairs { left with environment := { left.environment with procedures } }
      { right with environment := { right.environment with procedures } } :=
  halike.environment_set ⟨halike.environment.inner, halike.environment.global, rfl⟩

/-- What the logs say plays no role. -/
theorem log_set (first second : Log) :
    World.Alike reserve pairs { left with log := first } { right with log := second } :=
  ⟨halike.environment, halike.store, halike.acyclicLeft, halike.acyclicRight, halike.console,
    halike.turtle, halike.symbols⟩

theorem note (level : LogLevel) (first second : World → String) :
    (left.note level first).Alike reserve pairs (right.note level second) := by
  rw [World.note, World.note]
  split <;> split <;> exact halike.log_set _ _

theorem store_set (hgrows : pairs.Grows later) {first second : Store}
    (hmatched : first.Matched reserve later second) (hfirst : first.Acyclic)
    (hsecond : second.Acyclic) :
    World.Alike reserve later { left with store := first } { right with store := second } :=
  ⟨halike.environment.mono hgrows, hmatched, hfirst, hsecond, halike.console, halike.turtle,
    halike.symbols⟩

end World.Alike

/-! ## Actions -/

/-- Worlds and values are alike up to addresses. The stage is the matching, which may grow. -/
def Comparison.alike (reserve : Reserve) : Comparison where
  Stage := Matching
  grows := Matching.Grows
  worlds := World.Alike reserve
  values := Value.Alike
  fine _ := True
  code _ := True
  refl := Matching.Grows.refl
  trans := Matching.Grows.trans
  mono hgrows hvalues := hvalues.mono hgrows

variable {reserve : Reserve}

theorem Comparison.alike_withStore {reserve : Reserve} {pairs : Matching}
    {change update : Store → Value × Store}
    (hchange : ∀ later, pairs.Grows later → ∀ left right : Store,
      left.Matched reserve later right → left.Acyclic → right.Acyclic →
      ∃ final : Matching, later.Grows final ∧
        (change left).2.Matched reserve final (update right).2 ∧
        (change left).2.Acyclic ∧ (update right).2.Acyclic ∧
        (change left).1.Alike final (update right).1) :
    (alike reserve).Acts pairs Value.Alike (World.withStore change) (World.withStore update) := by
  intro later hgrows left right hworld
  obtain ⟨final, hfinal, hmatched, hleft, hright, halike⟩ := hchange later hgrows left.store
    right.store hworld.store hworld.acyclicLeft hworld.acyclicRight
  exact .ok hfinal (hworld.store_set hfinal hmatched hleft hright) halike

theorem Comparison.alike_build {items others : List Value}
    (halike : List.Forall₂ (Value.Alike pairs) items others) :
    (alike reserve).Acts pairs Value.Alike (World.build items) (World.build others) := by
  apply alike_withStore
  intro later hgrows left right hmatched hleft hright
  have hitems := Value.Alike.all_mono hgrows halike
  obtain ⟨final, hfinal, hafter, hvalue⟩ := hmatched.build hitems
  obtain ⟨hfirst, hsecond⟩ := hmatched.bounds hitems
  exact ⟨final, hfinal, hafter, hleft.build hfirst, hright.build hsecond, hvalue⟩

theorem Comparison.alike_replace {handle other : ListHandle} {first second : Value} (position : Nat)
    (hhandle : (Value.list handle).Alike pairs (.list other)) (hvalue : first.Alike pairs second) :
    (alike reserve).Acts pairs Value.Alike (World.replaceItem handle position first)
      (World.replaceItem other position second) := by
  apply alike_withStore
  intro later hgrows left right hmatched hleft hright
  cases hhandle with
  | list hpair _ =>
    have hpair := hgrows _ _ hpair
    have hleftAfter := hleft.replace (hmatched.lt_left hpair) position first
    have hrightAfter := hright.replace (hmatched.lt_right hpair) position second
    have hview := hmatched.view_eq hleft hright (hvalue.mono hgrows)
    rw [Store.copy, hview] at hleftAfter
    rw [Store.copy] at hrightAfter
    rw [Store.copy, Store.copy, hview]
    obtain ⟨final, hfinal, hafter, hstored⟩ := hmatched.place (right.view second)
    exact ⟨final, hfinal, hafter.set? (hfinal _ _ hpair) hstored _, hleftAfter, hrightAfter,
      .atom .none⟩

def Likeness.alike (reserve : Reserve) : Likeness where
  toComparison := .alike reserve
  fineAtom _ := trivial
  fineItem _ _ _ := trivial
  fineBuilt _ := trivial
  fineCode _ := trivial
  fineRead _ := trivial
  atom := .atom
  named name := .call _
  shape halike := by
    cases halike <;> constructor
  view hworld hvalues := ⟨hworld.view_eq hvalues, trivial⟩
  items hworld hvalues := by
    cases hvalues with
    | list hpair _ => exact (hworld.store.items hpair).1
  reaches hworld hinner houter := by
    cases hinner with
    | list hinner _ =>
      cases houter with
      | list houter _ =>
        exact hworld.store.reaches_eq hworld.acyclicLeft hworld.acyclicRight hinner houter
  devices hworld := ⟨hworld.console, hworld.turtle, hworld.symbols⟩
  setConsole console hworld :=
    ⟨hworld.environment, hworld.store, hworld.acyclicLeft, hworld.acyclicRight, rfl, hworld.turtle,
      hworld.symbols⟩
  setTurtle turtle hworld :=
    ⟨hworld.environment, hworld.store, hworld.acyclicLeft, hworld.acyclicRight, hworld.console, rfl,
      hworld.symbols⟩
  setSymbols symbols hworld :=
    ⟨hworld.environment, hworld.store, hworld.acyclicLeft, hworld.acyclicRight, hworld.console,
      hworld.turtle, rfl⟩
  note level message hworld := World.Alike.note hworld level _ _
  procedures hworld := hworld.environment.procedures
  nameAgain hworld _ := hworld.procedures_set _
  readProgram hworld _ := ⟨fun _ _ => trivial, hworld.procedures_set _⟩
  thing name hworld := hworld.environment.thing? name
  declare name := by
    apply Comparison.Acts.modify
    intro later hgrows left right hworld
    have hnoted := World.Alike.note hworld .trace
    exact (hnoted _ _).environment_set ((hnoted _ _).environment.declare name)
  make name hvalue := by
    apply Comparison.Acts.modify
    intro later hgrows left right hworld
    have hnoted := World.Alike.note hworld .trace
    exact (hnoted _ _).environment_set ((hnoted _ _).environment.make name (hvalue.mono hgrows))
  place _ := by
    apply Comparison.alike_withStore
    intro later hgrows left right hmatched hleft hright
    obtain ⟨final, hfinal, hafter, halike⟩ := hmatched.place _
    exact ⟨final, hfinal, hafter, hleft.place _, hright.place _, halike⟩
  buildAtoms atoms := by
    apply Comparison.alike_build
    rw [List.forall₂_map_left_iff, List.forall₂_map_right_iff, List.forall₂_same]
    exact fun value _ => .atom value
  replace position hhandle hvalue := Comparison.alike_replace position hhandle hvalue

theorem Likeness.alike_builds (reserve : Reserve) : (alike reserve).Builds :=
  Comparison.alike_build

end Logo
