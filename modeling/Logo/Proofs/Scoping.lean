import Logo.Proofs.Orderly
import Logo.Proofs.Steps

/-!
# Variables in nested scopes

A name is looked up through all open scopes, and an assignment goes to the nearest scope that knows
the name. So an assignment changes one binding, which is the one that the next look-up finds, and a
declaration changes the innermost scope alone. What is done inside a scope that has been opened is
gone when the scope is closed, as long as every assignment is to a name that has been declared since
then. The inputs of a procedure are given to its variables in that way.
-/

namespace Logo

/-- The scopes are the same but for one name, which is bound so in the second. -/
structure Scope.Rebound (key : String) (binding : Binding) (before after : Scope) : Prop where
  name : after.name = before.name
  members : ∀ other, after.members.get? other =
    if other = key then some binding else before.members.get? other

namespace Scope

variable {scope : Scope} {key : String}

theorem rebound_set (scope : Scope) (key : String) (value : Value) :
    Rebound key (.assigned value) scope (scope.set key value) where
  name := rfl
  members other := NameTable.get?_insert key other _ scope.members

theorem rebound_declare (hnew : scope.contains key = false) :
    Rebound key .declared scope (scope.declare key) := by
  rw [declare, hnew]
  exact ⟨rfl, fun other => NameTable.get?_insert key other _ scope.members⟩

theorem get?_of_rebound {binding : Binding} {before after : Scope}
    (hrebound : Rebound key binding before after) (other : String) :
    after.get? other = if other = key then some binding.read else before.get? other := by
  rw [get?, hrebound.members, get?]
  split <;> rfl

theorem get?_eq_none_of_not_contains (hnot : scope.contains key = false) :
    scope.get? key = none := by
  rw [contains, NameTable.contains, Option.isSome_eq_false_iff, Option.isNone_iff_eq_none] at hnot
  rw [get?, hnot]
  rfl

theorem contains_declare (scope : Scope) (key : String) :
    (scope.declare key).contains key = true := by
  rw [declare]
  split
  · assumption
  · simp [contains, NameTable.contains]

end Scope

namespace Environment

variable {front back : List Scope} {environment : Environment} {name : String}

def scopes (environment : Environment) : List Scope :=
  environment.inner ++ [environment.global]

/-- The position of the innermost scope that knows a name, and of the global one if none does. -/
def nearest (environment : Environment) (name : String) : Nat :=
  environment.inner.findIdx (·.contains (Text.lowercase name))

/-- The environments are the same but for one name in one scope, which is bound so in the
second. -/
structure Rebinds (position : Nat) (key : String) (binding : Binding)
    (before after : Environment) : Prop where
  procedures : after.procedures = before.procedures
  depth : after.depth = before.depth
  others : ∀ other, other ≠ position → after.scopes[other]? = before.scopes[other]?
  changed : ∃ scope rebound, before.scopes[position]? = some scope ∧
    after.scopes[position]? = some rebound ∧ scope.Rebound key binding rebound

theorem thing?_eq_findSome? (environment : Environment) (name : String) :
    environment.thing? name = environment.scopes.findSome? (·.get? (Text.lowercase name)) := by
  rw [thing?, scopes, List.findSome?_append]
  cases environment.inner.findSome? (·.get? (Text.lowercase name)) <;> simp

/-- Scopes of which one is exchanged are the same at all other positions. -/
theorem getElem?_exchange {position : Nat} (scope other : Scope)
    (hposition : position ≠ front.length) :
    (front ++ scope :: back)[position]? = (front ++ other :: back)[position]? := by
  rw [List.getElem?_append, List.getElem?_append]
  split
  · rfl
  · obtain ⟨rest, hrest⟩ : ∃ rest, position - front.length = rest + 1 :=
      ⟨position - front.length - 1, by omega⟩
    rw [hrest, List.getElem?_cons_succ, List.getElem?_cons_succ]

theorem rebinds_of_exchange {before after : Environment} {scope rebound : Scope} {key : String}
    {binding : Binding} (hprocedures : after.procedures = before.procedures)
    (hbefore : before.scopes = front ++ scope :: back)
    (hafter : after.scopes = front ++ rebound :: back)
    (hrebound : scope.Rebound key binding rebound) :
    Rebinds front.length key binding before after where
  procedures := hprocedures
  depth := by
    have hsame : after.scopes.length = before.scopes.length := by simp [hbefore, hafter]
    simpa [scopes, depth] using hsame
  others other hother := by rw [hbefore, hafter, getElem?_exchange rebound scope hother]
  changed := by
    rw [hbefore, hafter]
    exact ⟨scope, rebound, by simp, by simp, hrebound⟩

/-! ## Assignments -/

/-- The nearest scope that has the name gets the value. -/
theorem assignNearest?_cases (key : String) (value : Value) (scopes : List Scope) :
    ((∀ scope ∈ scopes, scope.contains key = false) ∧ assignNearest? key value scopes = none) ∨
    ∃ front scope back, scopes = front ++ scope :: back ∧
      (∀ other ∈ front, other.contains key = false) ∧ scope.contains key = true ∧
      assignNearest? key value scopes = some (front ++ scope.set key value :: back) := by
  induction scopes with
  | nil => exact .inl ⟨List.forall_mem_nil _, rfl⟩
  | cons scope outer ih =>
    rw [assignNearest?]
    cases hscope : scope.contains key with
    | true => exact .inr ⟨[], scope, outer, rfl, List.forall_mem_nil _, hscope, rfl⟩
    | false =>
      obtain ⟨hnone, hassign⟩ | ⟨front, found, back, rfl, hfront, hfound, hassign⟩ := ih
      · refine .inl ⟨List.forall_mem_cons.mpr ⟨hscope, hnone⟩, ?_⟩
        rw [hassign]
        rfl
      · refine .inr ⟨scope :: front, found, back, rfl,
          List.forall_mem_cons.mpr ⟨hscope, hfront⟩, hfound, ?_⟩
        rw [hassign]
        rfl

/-- An assignment goes to the nearest scope that knows the name, or else to the global one. -/
theorem exists_scopes_make (environment : Environment) (name : String) (value : Value) :
    ∃ front scope back, environment.scopes = front ++ scope :: back ∧
      (environment.make name value).scopes =
        front ++ scope.set (Text.lowercase name) value :: back ∧
      environment.nearest name = front.length ∧
      ∀ other ∈ front, other.contains (Text.lowercase name) = false := by
  obtain ⟨hnone, hassign⟩ | ⟨front, scope, back, hinner, hfront, hscope, hassign⟩ :=
    assignNearest?_cases (Text.lowercase name) value environment.inner
  · refine ⟨environment.inner, environment.global, [], rfl, ?_, ?_, hnone⟩
    · rw [make]
      simp only [hassign, scopes]
    · exact List.findIdx_eq_length.mpr hnone
  · refine ⟨front, scope, back ++ [environment.global], ?_, ?_, ?_, hfront⟩
    · rw [scopes, hinner, List.append_assoc, List.cons_append]
    · rw [make]
      simp only [hassign, scopes, List.append_assoc, List.cons_append]
    · have hnot := List.findIdx_eq_length.mpr hfront
      rw [nearest, hinner, List.findIdx_append, hnot, if_neg (Nat.lt_irrefl _), List.findIdx_cons,
        hscope]
      exact Nat.zero_add _

/-- A made variable is found, and all others are as before. -/
theorem thing?_make (environment : Environment) (name : String) (value : Value) (other : String) :
    (environment.make name value).thing? other =
      if Text.lowercase other = Text.lowercase name then some value
      else environment.thing? other := by
  obtain ⟨front, scope, back, hbefore, hafter, _, hfront⟩ :=
    environment.exists_scopes_make name value
  rw [thing?_eq_findSome?, thing?_eq_findSome?, hbefore, hafter, List.findSome?_append,
    List.findSome?_append, List.findSome?_cons, List.findSome?_cons,
    Scope.get?_of_rebound (scope.rebound_set _ value)]
  by_cases hsame : Text.lowercase other = Text.lowercase name
  · have hnone : front.findSome? (·.get? (Text.lowercase other)) = none := by
      rw [hsame]
      exact List.findSome?_eq_none_iff.mpr fun other hother =>
        Scope.get?_eq_none_of_not_contains (hfront other hother)
    rw [hnone, if_pos hsame, if_pos hsame]
    rfl
  · rw [if_neg hsame, if_neg hsame]

theorem rebinds_make (environment : Environment) (name : String) (value : Value) :
    Rebinds (environment.nearest name) (Text.lowercase name) (.assigned value) environment
      (environment.make name value) := by
  obtain ⟨front, scope, back, hbefore, hafter, hnearest, _⟩ :=
    environment.exists_scopes_make name value
  rw [hnearest]
  exact rebinds_of_exchange (environment.procedures_make name value) hbefore hafter
    (scope.rebound_set _ value)

/-! ## Declarations -/

theorem scopes_eq_cons (environment : Environment) :
    ∃ outer, environment.scopes = environment.top :: outer ∧
      ∀ name, (environment.declare name).scopes =
        environment.top.declare (Text.lowercase name) :: outer := by
  cases hinner : environment.inner with
  | nil =>
    exact ⟨[], by simp [scopes, top, hinner],
      by simp [declare, modifyTop, scopes, top, hinner]⟩
  | cons scope outer =>
    exact ⟨outer ++ [environment.global], by simp [scopes, top, hinner],
      by simp [declare, modifyTop, scopes, top, hinner]⟩

theorem declare_of_contains (hknown : environment.top.contains (Text.lowercase name) = true) :
    environment.declare name = environment := by
  obtain ⟨inner, global, procedures⟩ := environment
  cases inner with
  | nil =>
    have hglobal : global.contains (Text.lowercase name) = true := hknown
    simp [declare, modifyTop, Scope.declare, hglobal]
  | cons scope outer =>
    have hscope : scope.contains (Text.lowercase name) = true := hknown
    simp [declare, modifyTop, Scope.declare, hscope]

theorem rebinds_declare (hnew : environment.top.contains (Text.lowercase name) = false) :
    Rebinds 0 (Text.lowercase name) .declared environment (environment.declare name) := by
  obtain ⟨outer, hbefore, hafter⟩ := environment.scopes_eq_cons
  exact @rebinds_of_exchange [] outer environment (environment.declare name) _ _ _ _
    (environment.procedures_declare name) hbefore (hafter name) (Scope.rebound_declare hnew)

theorem thing?_declare (hnew : environment.top.contains (Text.lowercase name) = false)
    (other : String) :
    (environment.declare name).thing? other =
      if Text.lowercase other = Text.lowercase name then some .none
      else environment.thing? other := by
  obtain ⟨outer, hbefore, hafter⟩ := environment.scopes_eq_cons
  rw [thing?_eq_findSome?, thing?_eq_findSome?, hbefore, hafter, List.findSome?_cons,
    List.findSome?_cons, Scope.get?_of_rebound (Scope.rebound_declare hnew)]
  by_cases hsame : Text.lowercase other = Text.lowercase name
  · rw [if_pos hsame, if_pos hsame]
    rfl
  · rw [if_neg hsame, if_neg hsame]

end Environment

/-! ## Balanced changes -/

inductive ScopeChange where
  | declare (name : String)
  | make (name : String) (value : Value)
  | push (name : String)
  | pop

namespace ScopeChange

def apply (environment : Environment) : ScopeChange → Environment
  | .declare name => environment.declare name
  | .make name value => environment.make name value
  | .push name => environment.push (.new name)
  | .pop => environment.pop

def applyAll (environment : Environment) (changes : List ScopeChange) : Environment :=
  changes.foldl apply environment

/-- The number of scopes that are open behind a change, if there were so many before. No change
closes a scope that was open at the start. -/
def height? (before : Nat) : ScopeChange → Option Nat
  | .push _ => some (before + 1)
  | .pop => if before = 0 then none else some (before - 1)
  | _ => some before

/-- Every scope that is opened is closed again, and no other one. -/
def Balanced (changes : List ScopeChange) : Prop :=
  changes.foldlM height? 0 = some 0

end ScopeChange

/-- One of the scopes that have been opened since there were `depth` of them knows the name. -/
def Environment.KnownAbove (environment : Environment) (depth : Nat) (name : String) : Prop :=
  ∃ scope ∈ environment.inner.take (environment.depth - depth),
    scope.contains (Text.lowercase name) = true

/-- Every assignment is to a name that is known to a scope opened since there were `depth`. -/
def ScopeChange.AssignsAbove (depth : Nat) (environment : Environment)
    (changes : List ScopeChange) : Prop :=
  ∀ front name value back, changes = front ++ .make name value :: back →
    (ScopeChange.applyAll environment front).KnownAbove depth name

namespace Environment

/-- Some scopes have been opened above those of an environment, which are as they were. -/
structure Above (base : Environment) (opened : List Scope) (environment : Environment) : Prop where
  inner : environment.inner = opened ++ base.inner
  global : environment.global = base.global
  procedures : environment.procedures = base.procedures

variable {base environment : Environment} {opened : List Scope}

namespace Above

variable {scope : Scope} {height after : Nat}

theorem pop_eq (habove : Above base [scope] environment) : environment.pop = base := by
  obtain ⟨inner, global, procedures⟩ := environment
  obtain ⟨rfl, rfl, rfl⟩ := habove
  rfl

theorem push (habove : Above base opened environment) (scope : Scope) :
    Above base (scope :: opened) (environment.push scope) :=
  ⟨congrArg (scope :: ·) habove.inner, habove.global, habove.procedures⟩

theorem pop (habove : Above base (scope :: opened) environment) :
    Above base opened environment.pop :=
  ⟨congrArg List.tail habove.inner, habove.global, habove.procedures⟩

theorem declare (habove : Above base (scope :: opened) environment) (name : String) :
    Above base (scope.declare (Text.lowercase name) :: opened) (environment.declare name) := by
  rw [Environment.declare, modifyTop, habove.inner]
  exact ⟨rfl, habove.global, habove.procedures⟩

variable (habove : Above base opened environment)

include habove

theorem knownAbove_iff (name : String) :
    environment.KnownAbove base.depth name ↔
      ∃ scope ∈ opened, scope.contains (Text.lowercase name) = true := by
  have hdepth : environment.depth - base.depth = opened.length := by
    rw [depth, depth, habove.inner, List.length_append]
    omega
  rw [KnownAbove, hdepth, habove.inner, List.take_left]

/-- An assignment to a name that is known above stays there. -/
theorem make {name : String}
    (hknown : ∃ scope ∈ opened, scope.contains (Text.lowercase name) = true) (value : Value) :
    ∃ changed, changed.length = opened.length ∧
      Above base changed (environment.make name value) := by
  have hassign : ∃ changed, changed.length = opened.length ∧
      assignNearest? (Text.lowercase name) value (opened ++ base.inner) =
        some (changed ++ base.inner) := by
    clear habove
    induction opened with
    | nil =>
      obtain ⟨scope, hscope, _⟩ := hknown
      cases hscope
    | cons scope outer ih =>
      rw [List.cons_append, assignNearest?]
      cases hscope : scope.contains (Text.lowercase name) with
      | true => exact ⟨scope.set (Text.lowercase name) value :: outer, by simp, by simp⟩
      | false =>
        obtain ⟨changed, hlength, hchanged⟩ := ih (by simpa [hscope] using hknown)
        exact ⟨scope :: changed, by simp [hlength], by simp [hchanged]⟩
  obtain ⟨changed, hlength, hchanged⟩ := hassign
  refine ⟨changed, hlength, ?_⟩
  rw [Environment.make, habove.inner]
  simp only [hchanged]
  exact ⟨rfl, habove.global, habove.procedures⟩

/-- One change leaves what is below as it was. -/
theorem apply {change : ScopeChange} (hopened : opened.length = height + 1)
    (hheight : change.height? height = some after)
    (hmake : ∀ name value, change = .make name value → environment.KnownAbove base.depth name) :
    ∃ changed, changed.length = after + 1 ∧ Above base changed (change.apply environment) := by
  obtain ⟨scope, outer, rfl⟩ := List.exists_cons_of_length_eq_add_one hopened
  cases change with
  | declare name =>
    cases hheight
    exact ⟨_, by simpa using hopened, habove.declare name⟩
  | make name value =>
    cases hheight
    obtain ⟨changed, hlength, hchanged⟩ :=
      habove.make ((habove.knownAbove_iff name).mp (hmake name value rfl)) value
    exact ⟨changed, hlength.trans hopened, hchanged⟩
  | push name =>
    cases hheight
    exact ⟨_, by simpa using hopened, habove.push _⟩
  | pop =>
    rw [ScopeChange.height?] at hheight
    split at hheight
    · cases hheight
    · cases hheight
      rw [List.length_cons] at hopened
      exact ⟨outer, by omega, habove.pop⟩

/-- So do all changes. -/
theorem applyAll {changes : List ScopeChange} (hopened : opened.length = height + 1)
    (hheight : changes.foldlM ScopeChange.height? height = some after)
    (hassigns : ScopeChange.AssignsAbove base.depth environment changes) :
    ∃ changed, changed.length = after + 1 ∧
      Above base changed (ScopeChange.applyAll environment changes) := by
  induction changes generalizing environment opened height with
  | nil =>
    cases hheight
    exact ⟨opened, hopened, habove⟩
  | cons change changes ih =>
    rw [List.foldlM_cons] at hheight
    obtain ⟨middle, hmiddle, hrest⟩ := Option.bind_eq_some_iff.mp hheight
    obtain ⟨changed, hlength, hchanged⟩ := habove.apply hopened hmiddle
      fun name value hchange => hassigns [] name value changes (by rw [hchange]; rfl)
    refine ih hchanged hlength hrest ?_
    intro front name value back hchanges
    exact hassigns (change :: front) name value back (by rw [hchanges]; rfl)

end Above

theorem above_push (environment : Environment) (scope : Scope) :
    Above environment [scope] (environment.push scope) :=
  ⟨rfl, rfl, rfl⟩

/-- What is done inside a scope is gone when the scope is closed. -/
theorem pop_applyAll (environment : Environment) (scope : Scope) {changes : List ScopeChange}
    (hbalanced : ScopeChange.Balanced changes)
    (hassigns : ScopeChange.AssignsAbove environment.depth (environment.push scope) changes) :
    (ScopeChange.applyAll (environment.push scope) changes).pop = environment := by
  obtain ⟨changed, hlength, hchanged⟩ :=
    (environment.above_push scope).applyAll rfl hbalanced hassigns
  obtain ⟨last, rfl⟩ := List.length_eq_one_iff.mp hlength
  exact hchanged.pop_eq

end Environment

/-! ## Inputs -/

namespace ScopeChange

variable {environment : Environment}

def giving : List String → List Value → List ScopeChange
  | param :: params, value :: values => .declare param :: .make param value :: giving params values
  | _, _ => []

theorem assignsAbove_cons {depth : Nat} {change : ScopeChange} {changes : List ScopeChange}
    (hchange : ∀ name value, change = .make name value → environment.KnownAbove depth name)
    (hchanges : AssignsAbove depth (change.apply environment) changes) :
    AssignsAbove depth environment (change :: changes) := by
  intro front name value back hsplit
  cases front with
  | nil => exact hchange name value (List.cons.inj hsplit).1
  | cons first front =>
    obtain ⟨rfl, hrest⟩ := List.cons.inj hsplit
    exact hchanges front name value back hrest

theorem assignsAbove_nil (depth : Nat) (environment : Environment) :
    AssignsAbove depth environment [] := by
  intro front name value back hsplit
  cases front <;> cases hsplit

theorem balanced_giving (params : List String) (values : List Value) :
    Balanced (giving params values) := by
  rw [Balanced]
  fun_induction giving params values with
  | case1 param params value values ih => exact ih
  | case2 => rfl

/-- Each input goes to a name that has just been declared. -/
theorem assignsAbove_giving (params : List String) (values : List Value) {base : Environment}
    {scope : Scope} (habove : base.Above [scope] environment) :
    AssignsAbove base.depth environment (giving params values) := by
  fun_induction giving params values generalizing scope environment with
  | case1 param params value values ih =>
    have hdeclared := habove.declare param
    have hknown : (environment.declare param).KnownAbove base.depth param :=
      (hdeclared.knownAbove_iff param).mpr
        ⟨_, List.mem_cons_self, scope.contains_declare (Text.lowercase param)⟩
    obtain ⟨changed, hlength, hchanged⟩ :=
      hdeclared.make ((hdeclared.knownAbove_iff param).mp hknown) value
    obtain ⟨last, rfl⟩ := List.length_eq_one_iff.mp hlength
    refine assignsAbove_cons (by simp) (assignsAbove_cons ?_ (ih hchanged))
    rintro name given ⟨⟩
    exact hknown
  | case2 => exact assignsAbove_nil _ _

theorem environment_bindInputs (params : List String) (values : List Value) (world : World) :
    ∃ after, Machine.bindInputs params values world = .ok () after ∧
      after.environment = applyAll world.environment (giving params values) := by
  fun_induction giving params values generalizing world with
  | case1 param params value values ih =>
    obtain ⟨declared, hdeclared, henvironment⟩ : ∃ declared,
        World.declare param world = .ok () declared ∧
          declared.environment = world.environment.declare param :=
      ⟨_, rfl, by dsimp only; rw [World.environment_note]⟩
    obtain ⟨made, hmade, hbound⟩ : ∃ made, World.make param value declared = .ok () made ∧
        made.environment = (world.environment.declare param).make param value :=
      ⟨_, rfl, by dsimp only; rw [World.environment_note, henvironment]⟩
    obtain ⟨after, hafter, hgiven⟩ := ih made
    refine ⟨after, ?_, ?_⟩
    · rw [Machine.bindInputs, bind_of_ok hdeclared, bind_of_ok hmade, hafter]
    · rw [hgiven, hbound]
      rfl
  | case2 params values hempty =>
    refine ⟨world, ?_, rfl⟩
    rw [Machine.bindInputs]
    · rfl
    · exact hempty

end ScopeChange

/-- The laws of the scopes. An assignment changes one binding, in the nearest scope that knows the
name or else in the global one; it is what every spelling of the name is read as from then on, and
no other name is read differently. A declaration changes nothing if the innermost scope knows the
name, and otherwise the name reads as the empty value. What is done inside a scope leaves nothing
behind when every assignment is to a name that the scope or one inside it knows, and inputs are
given to variables in such a way. -/
theorem Environment.changes_stay_in_their_scopes (environment : Environment) :
    (∀ name value,
      (∀ other, (environment.make name value).thing? other =
        if Text.lowercase other = Text.lowercase name then some value
        else environment.thing? other) ∧
      Rebinds (environment.nearest name) (Text.lowercase name) (.assigned value) environment
        (environment.make name value)) ∧
    (∀ name,
      if environment.top.contains (Text.lowercase name) = true then
        environment.declare name = environment
      else
        (environment.declare name).thing? name = some .none ∧
        Rebinds 0 (Text.lowercase name) .declared environment (environment.declare name)) ∧
    (∀ scope changes, ScopeChange.Balanced changes →
      ScopeChange.AssignsAbove environment.depth (environment.push scope) changes →
      (ScopeChange.applyAll (environment.push scope) changes).pop = environment) ∧
    ∀ scope params values world, world.environment = environment.push scope →
      ∃ after, Machine.bindInputs params values world = .ok () after ∧
        after.environment.pop = environment := by
  refine ⟨?_, ?_, fun scope changes => environment.pop_applyAll scope, ?_⟩
  · intro name value
    exact ⟨environment.thing?_make name value, environment.rebinds_make name value⟩
  · intro name
    split
    · rename_i hknown
      exact declare_of_contains hknown
    · rename_i hknown
      have hnew := Bool.eq_false_iff.mpr hknown
      exact ⟨by rw [thing?_declare hnew, if_pos rfl], rebinds_declare hnew⟩
  · intro scope params values world hworld
    obtain ⟨after, hafter, hgiven⟩ := ScopeChange.environment_bindInputs params values world
    refine ⟨after, hafter, ?_⟩
    rw [hgiven, hworld]
    exact environment.pop_applyAll scope (ScopeChange.balanced_giving params values)
      (ScopeChange.assignsAbove_giving params values (environment.above_push scope))

/-- A procedure declares and changes a variable that is global too, also from a scope inside its
own, and the global one is as it was when the procedure is over. -/
theorem Environment.global_x_survives_local_x :
    let environment := Environment.empty.make "x" (.integer 1)
    let changes : List ScopeChange :=
      [.declare "X", .make "x" (.integer 2), .push "g", .make "x" (.integer 3), .pop]
    ScopeChange.Balanced changes ∧
      ScopeChange.AssignsAbove environment.depth (environment.push (.new "f")) changes ∧
      (ScopeChange.applyAll (environment.push (.new "f")) changes).pop = environment := by
  intro environment changes
  have hbalanced : ScopeChange.Balanced changes := rfl
  have hassigns :
      ScopeChange.AssignsAbove environment.depth (environment.push (.new "f")) changes := by
    refine ScopeChange.assignsAbove_cons (by simp) (ScopeChange.assignsAbove_cons ?_
      (ScopeChange.assignsAbove_cons (by simp) (ScopeChange.assignsAbove_cons ?_
        (ScopeChange.assignsAbove_cons (by simp) (ScopeChange.assignsAbove_nil _ _)))))
    · rintro name value ⟨⟩
      exact ⟨_, List.mem_cons_self, by decide +kernel⟩
    · rintro name value ⟨⟩
      exact ⟨_, List.mem_cons_of_mem _ List.mem_cons_self, by decide +kernel⟩
  exact ⟨hbalanced, hassigns,
    environment.changes_stay_in_their_scopes.2.2.1 (.new "f") changes hbalanced hassigns⟩

end Logo
