import Logo.Proofs.Honesty
import Logo.Proofs.Layout
import Logo.Text.Cluster

/-!
# Texts that have gone stale

The text of a list can be told from its items in one case only: a list inside it, at whatever depth,
has been changed and has lost its own text. Elsewhere reading the text again gives what the list
holds.
-/

namespace Logo

open Datum (unplacedAll)

namespace Store

variable {store : Store} {handle : ListHandle} {text : String} {items : List Datum}

inductive Inside (store : Store) (outer : ListHandle) : ListHandle → Prop where
  | item {inner : ListHandle} (hitem : .list inner ∈ store.items outer) : Inside store outer inner
  | deeper {middle inner : ListHandle} (hmiddle : Inside store outer middle)
      (hitem : .list inner ∈ store.items middle) : Inside store outer inner

theorem Inside.of_item {outer middle inner : ListHandle} (hitem : .list middle ∈ store.items outer)
    (hinside : store.Inside middle inner) : store.Inside outer inner := by
  induction hinside with
  | item hinner => exact .deeper (.item hitem) hinner
  | deeper hmiddle hinner ih => exact .deeper ih hinner

/-- The value is what the datum says, apart from lists in it that have lost their texts. -/
inductive Reflects (store : Store) : Value → Datum → Prop where
  | atom (value : Atom) : Reflects store (.atom value) (.atom value)
  | changed {handle : ListHandle} {items : List Datum} {text : Option String}
      {place : Option Span} (hsource : store.source? handle = none) :
      Reflects store (.list handle) (.list items text place)
  | list {handle : ListHandle} {items : List Datum} {text : String} {place : Option Span}
      (hsource : store.source? handle = some text)
      (hitems : List.Forall₂ (Reflects store) (store.items handle) items) :
      Reflects store (.list handle) (.list items (some text) place)

/-- What holds of the items of a list and of what its text spells: atoms are the same, and where the
text has a list, the item is a list that was put in the store before and has its text from there, if
it has one. -/
theorem Honest.forall₂_items (hstore : store.Honest) (hsource : store.source? handle = some text)
    (htext : ListText text.toList (unplacedAll items)) {holds : Value → Datum → Prop}
    (hatom : ∀ value, holds (.atom value) (.atom value))
    (hlist : ∀ inner nested original place, .list inner ∈ store.items handle →
      inner.address < handle.address →
      (∀ kept ∈ store.source? inner,
        original = some kept ∧ ListText kept.toList (unplacedAll nested)) →
      holds (.list inner) (.list nested original place)) :
    List.Forall₂ holds (store.items handle) items := by
  obtain ⟨data, hspelled, hstands⟩ := hstore.text hsource
  rw [hspelled.unique htext, Datum.unplacedAll_eq_map, List.forall₂_map_right_iff,
    List.forall₂_iff_zip] at hstands
  refine List.forall₂_iff_zip.mpr ⟨hstands.1, ?_⟩
  intro value datum hmem
  obtain ⟨hvalue, hdatum⟩ := List.of_mem_zip hmem
  have hstand := hstands.2 hmem
  generalize hunplaced : datum.unplaced = spelled at hstand
  cases hstand with
  | atom value =>
    rw [Datum.eq_atom_of_unplaced hunplaced]
    exact hatom value
  | list hbelow hkept =>
    obtain ⟨nested, place, rfl, rfl⟩ := Datum.exists_list_of_unplaced hunplaced
    refine hlist _ nested _ place hvalue hbelow fun kept hsource => ?_
    have horiginal := hkept kept hsource
    subst horiginal
    have hmember : Datum.list (unplacedAll nested) (some kept) none ∈ unplacedAll items := by
      rw [Datum.unplacedAll_eq_map]
      exact List.mem_map.mpr ⟨_, hdatum, rfl⟩
    obtain ⟨inner, hinner, hnested⟩ := htext.of_mem hmember
    cases hinner
    exact ⟨rfl, by simpa using hnested⟩

/-- A list that has its text reflects what the text spells. -/
theorem Honest.reflects (hstore : store.Honest) (hsource : store.source? handle = some text)
    (htext : ListText text.toList (unplacedAll items)) (place : Option Span) :
    store.Reflects (.list handle) (.list items (some text) place) := by
  -- Lists that have their texts hold only lists of smaller addresses.
  induction haddress : handle.address using Nat.strongRecOn
    generalizing handle text items place with
  | ind address ih =>
    refine .list hsource (hstore.forall₂_items hsource htext .atom ?_)
    intro inner nested original place hitem hbelow hkept
    cases hinner : store.source? inner with
    | none => exact .changed hinner
    | some kept =>
      obtain ⟨rfl, hnested⟩ := hkept kept hinner
      exact ih inner.address (haddress ▸ hbelow) hinner hnested place rfl

/-- If no list inside has lost its text, the list is seen as its text spells it. -/
theorem Honest.unplaced_viewTo (hstore : store.Honest) {depth : Nat}
    (hdepth : handle.address < depth) (hsource : store.source? handle = some text)
    (htext : ListText text.toList (unplacedAll items))
    (hinside : ∀ inner, store.Inside handle inner → (store.source? inner).isSome)
    (place : Option Span) :
    (store.viewTo depth (.list handle)).unplaced =
      (Datum.list items (some text) place).unplaced := by
  induction depth generalizing handle text items place with
  | zero => exact absurd hdepth (Nat.not_lt_zero _)
  | succ depth ih =>
    have hitems : List.Forall₂ (fun value item =>
        (store.viewTo depth value).unplaced = item.unplaced) (store.items handle) items := by
      refine hstore.forall₂_items hsource htext (fun value => ?_) ?_
      · rw [Store.viewTo]
      · intro inner nested original place hitem hbelow hkept
        obtain ⟨kept, hinner⟩ := Option.isSome_iff_exists.mp (hinside inner (.item hitem))
        obtain ⟨rfl, hnested⟩ := hkept kept hinner
        apply ih (Nat.lt_of_lt_of_le hbelow (Nat.le_of_lt_succ hdepth)) hinner hnested
        exact fun other hother => hinside other (hother.of_item hitem)
    have hall : unplacedAll ((store.items handle).map (store.viewTo depth)) =
        unplacedAll items := by
      rw [Datum.unplacedAll_eq_map, Datum.unplacedAll_eq_map, List.map_map,
        ← List.forall₂_eq_eq_eq, List.forall₂_map_left_iff, List.forall₂_map_right_iff]
      exact hitems
    rw [Store.viewTo, Datum.unplaced, Datum.unplaced, hall, hsource]

/-- A list that has its text is seen with it. -/
theorem exists_view_of_source (hsource : store.source? handle = some text) :
    ∃ items, store.view (.list handle) = .list items (some text) handle.span := by
  obtain ⟨cell, hcell, _⟩ := source?_eq_some_iff.mp hsource
  have hsize := (Array.getElem?_eq_some_iff.mp hcell).1
  obtain ⟨depth, hdepth⟩ := Nat.exists_eq_add_one_of_ne_zero (Nat.ne_zero_of_lt hsize)
  rw [view, hdepth, viewTo, hsource]
  exact ⟨_, rfl⟩

end Store

theorem World.readBlock_of_source {world : World} {handle : ListHandle} {text : String}
    (hsource : world.store.source? handle = some text) :
    readBlock handle world = readText text world := by
  obtain ⟨items, hview⟩ := Store.exists_view_of_source hsource
  rw [readBlock, get_bind_apply, hview]
  rfl

/-- What the operation brings in from outside is honest. Texts that are read always are. -/
def Operation.Honest : Operation → Prop
  | .place datum => datum.Honest
  | .load program => program.Honest
  | .run _ program => program.Honest
  | .schedule call => ∀ input ∈ call.inputs, input.Honest
  | _ => True

theorem Operation.Honest.admits {operation : Operation} (hoperation : operation.Honest)
    {machine : Machine} (hmachine : honesty.Guards machine) :
    honesty.Admits machine operation := by
  have hlines : ∀ program : Value, program.Honest →
      ∀ line ∈ machine.linesOf program, line.Honest := by
    intro program hprogram
    cases program with
    | list handle => exact Store.Honest.item hmachine.world.store handle
    | atom _ | call _ | procedure _ => exact List.forall_mem_singleton.mpr hprogram
  cases operation with
  | load program | run _ program => exact hlines program hoperation
  | place _ | schedule _ => exact hoperation
  | read _ | resume _ | pause | tick | unschedule | reset => trivial

namespace Machine

section

variable [Segmentation]

theorem honest_performAll (maxDepth : Nat) (console : Console) (log : Log)
    {operations : List Operation} (hoperations : ∀ operation ∈ operations, operation.Honest) :
    ((Machine.new maxDepth console log).performAll operations).world.store.Honest := by
  have hguards := (Custody.Guards.new lawful_honesty maxDepth console log).performAll
    lawful_honesty operations
    (fun operation hoperation met hmet => (hoperations operation hoperation).admits hmet)
    (fun met _ hmet => builds_honesty.mayStep hmet)
  exact hguards.world.store

/-- On every machine that can be met, any list that has its text can be read again from it, and
what is read is what the list holds, apart from lists inside it that have lost their texts by a
change. If no list inside it has, at any depth, then the two are the same, places aside. Changed or
not inside, the list is shown and run by that text. -/
theorem text_spells_list_except_changed_inside (maxDepth : Nat) (console : Console) (log : Log)
    (operations : List Operation) (hoperations : ∀ operation ∈ operations, operation.Honest) :
    let machine := (Machine.new maxDepth console log).performAll operations
    ∀ handle text, machine.world.store.source? handle = some text →
      (∃ datum, readList text = .ok datum ∧ machine.world.store.Reflects (.list handle) datum ∧
        ((∀ inner, machine.world.store.Inside handle inner →
            (machine.world.store.source? inner).isSome) →
          (machine.view (.list handle)).unplaced = datum.unplaced)) ∧
      (machine.view (.list handle)).source = "[" ++ text ++ "]" ∧
      World.readBlock handle machine.world = World.readText text machine.world := by
  intro machine handle text hsource
  have hstore : machine.world.store.Honest := honest_performAll maxDepth console log hoperations
  refine ⟨?_, ?_, World.readBlock_of_source hsource⟩
  · obtain ⟨data, htext, _⟩ := hstore.text hsource
    obtain ⟨items, place, hread, rfl⟩ := htext.exists_readList
    rw [String.ofList_toList] at hread
    obtain ⟨cell, hcell, _⟩ := Store.source?_eq_some_iff.mp hsource
    have hdepth := (Array.getElem?_eq_some_iff.mp hcell).1
    exact ⟨_, hread, hstore.reflects hsource htext place, fun hinside =>
      hstore.unplaced_viewTo hdepth hsource htext hinside place⟩
  · obtain ⟨items, hview⟩ := Store.exists_view_of_source hsource
    rw [Machine.view, World.view, hview]
    rfl

end

open scoped Graphemes

/-- The list of a variable, with a list inside that has its text too. -/
theorem text_spells_nested_list :
    let operations : List Operation :=
      [.read "make \"a [1 [2 3]]", .run 20 (.list ⟨0, none⟩)]
    let machine := (Machine.new 10 (.new []) (.new none)).performAll operations
    (∀ operation ∈ operations, operation.Honest) ∧
      machine.world.store.source? ⟨2, none⟩ = some "1 [2 3]" ∧
      (∃ datum, readList "1 [2 3]" = .ok datum ∧
        (machine.view (.list ⟨2, none⟩)).unplaced = datum.unplaced) := by
  intro operations machine
  have hoperations : ∀ operation ∈ operations, operation.Honest := by
    simp [operations, Operation.Honest, Value.Honest]
  -- The list at 1 is the only one inside the list at 2, and holds no list itself.
  have hcells : machine.world.store.source? ⟨2, none⟩ = some "1 [2 3]" ∧
      (machine.world.store.source? ⟨1, none⟩).isSome ∧
      (∀ value ∈ machine.world.store.items ⟨2, none⟩, value.address?.all (· = 1)) ∧
      ∀ value ∈ machine.world.store.items ⟨1, none⟩, value.address? = none := by
    decide +kernel
  obtain ⟨houter, hinner, hlists, hwords⟩ := hcells
  obtain ⟨⟨datum, hread, _, hsame⟩, _⟩ := text_spells_list_except_changed_inside 10 (.new [])
    (.new none) operations hoperations ⟨2, none⟩ _ houter
  refine ⟨hoperations, houter, datum, hread, hsame fun inner hinside => ?_⟩
  have haddress : inner.address = 1 := by
    induction hinside with
    | item hitem => simpa [Value.address?] using hlists _ hitem
    | @deeper middle inner hmiddle hitem ih =>
      obtain ⟨_, span⟩ := middle
      subst ih
      exact absurd (hwords _ hitem) (by simp [Value.address?])
  obtain ⟨_, span⟩ := inner
  subst haddress
  exact hinner

/-- A list keeps its text after a list inside it has been changed. It is shown and run as it was,
and printed as it is. -/
theorem text_is_stale_after_nested_change :
    let machine := (runScript 100 "setitem 1 last :a 9"
      (runScript 100 "make \"a [print first [1 2]]"
        (.new 10 (.new []) (.new none))).state).state
    (machine.world.environment.thing? "a").map (fun value =>
        ((machine.view value).source, (machine.view value).display)) =
      some ("[print first [1 2]]", "[print first [9 2]]") ∧
    (runScript 100 "run :a" machine).state.world.console.output = "1\n" := by
  decide +kernel

end Machine

end Logo
