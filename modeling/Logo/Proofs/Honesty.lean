import Logo.Proofs.Holdings
import Logo.Proofs.ListText
import Logo.Proofs.Placing
import Logo.Proofs.Tracking

/-!
# Texts that lists have kept

A list that was read keeps the text between its brackets. The text is forgotten when an item of the
list is replaced, but not when an item of a list inside it is. So what a text promises is this: it
spells the items of the list, except that a list among them may have changed, and then that list has
lost its own text. Data for which this holds at every depth are honest. Reading gives honest data,
and so does everything that programs do with them.
-/

namespace Logo

open Datum (unplacedAll)

/-- The item is the one that was spelled, or it is a list that has lost its text since. -/
inductive Resembles : Datum → Datum → Prop where
  | atom (value : Atom) : Resembles (.atom value) (.atom value)
  | list {items data : List Datum} {text original : Option String} {place other : Option Span}
      (htext : ∀ kept ∈ text, original = some kept) :
      Resembles (.list items text place) (.list data original other)

/-- Every text in the datum spells the items of its list, except for lists among them that have
lost their texts. -/
inductive Datum.Honest : Datum → Prop where
  | atom (value : Atom) : Honest (.atom value)
  | list {items : List Datum} {text : Option String} {place : Option Span}
      (hitems : ∀ item ∈ items, Honest item)
      (htext : ∀ kept ∈ text, ∃ data, ListText kept.toList data ∧
        List.Forall₂ Resembles items data) :
      Honest (.list items text place)
  | call {site : Call} (hinputs : ∀ input ∈ site.inputs, Honest input) : Honest (.call site)
  | procedure {definition : Procedure} (hbody : ∀ line ∈ definition.body, Honest line) :
      Honest (.procedure definition)

/-! ## What is read is honest -/

namespace Datum

variable {datum : Datum}

theorem eq_atom_of_unplaced {value : Atom} (hunplaced : datum.unplaced = .atom value) :
    datum = .atom value := by
  cases datum with
  | atom other => exact hunplaced
  | list items text place => cases hunplaced
  | call site => cases hunplaced
  | procedure definition => cases hunplaced

theorem exists_list_of_unplaced {data : List Datum} {text : Option String} {place : Option Span}
    (hunplaced : datum.unplaced = .list data text place) :
    ∃ items other, datum = .list items text other ∧ unplacedAll items = data := by
  cases datum with
  | list items text other =>
    cases hunplaced
    exact ⟨items, other, rfl, rfl⟩
  | atom value => cases hunplaced
  | call site => cases hunplaced
  | procedure definition => cases hunplaced

theorem exists_cons_of_unplacedAll {items data : List Datum}
    (hunplaced : unplacedAll items = datum :: data) :
    ∃ item rest, items = item :: rest ∧ item.unplaced = datum ∧ unplacedAll rest = data := by
  cases items with
  | nil => cases hunplaced
  | cons item rest =>
    cases hunplaced
    exact ⟨item, rest, rfl, rfl, rfl⟩

end Datum

/-- Items are honest that have been read as a text spells them, and they are still the same. -/
theorem ListText.honest {text : List Char} {data items : List Datum} (htext : ListText text data)
    (hitems : unplacedAll items = data) :
    (∀ item ∈ items, item.Honest) ∧ List.Forall₂ Resembles items data := by
  induction htext generalizing items with
  | nil =>
    cases items with
    | nil => exact ⟨List.forall_mem_nil _, .nil⟩
    | cons item rest => cases hitems
  | blank hblank hrest ih => exact ih hitems
  | word hfirst htail hnext hrest ih =>
    obtain ⟨item, rest, rfl, hitem, hothers⟩ := Datum.exists_cons_of_unplacedAll hitems
    obtain rfl := Datum.eq_atom_of_unplaced hitem
    obtain ⟨hhonest, hsame⟩ := ih hothers
    exact ⟨List.forall_mem_cons.mpr ⟨.atom _, hhonest⟩, .cons (.atom _) hsame⟩
  | @list inner text data others hinner hrest ihInner ih =>
    obtain ⟨item, rest, rfl, hitem, hothers⟩ := Datum.exists_cons_of_unplacedAll hitems
    obtain ⟨nested, place, rfl, hnested⟩ := Datum.exists_list_of_unplaced hitem
    obtain ⟨hhonest, hsame⟩ := ih hothers
    obtain ⟨hinside, hkept⟩ := ihInner hnested
    have hlist : (Datum.list nested (some (.ofList inner)) place).Honest := by
      refine .list hinside fun kept hmem => ?_
      cases hmem
      exact ⟨data, by simpa using hinner, hkept⟩
    exact ⟨List.forall_mem_cons.mpr ⟨hlist, hhonest⟩, .cons (.list fun _ hmem => hmem) hsame⟩

theorem ListText.honest_list {inner : List Char} {items : List Datum}
    (htext : ListText inner (unplacedAll items)) (place : Option Span) :
    (Datum.list items (some (.ofList inner)) place).Honest := by
  obtain ⟨hhonest, hsame⟩ := htext.honest rfl
  refine .list hhonest fun kept hmem => ?_
  cases hmem
  exact ⟨_, by simpa using htext, hsame⟩

/-- A list in a program is honest, and code goes on behind it. -/
theorem honest_bracketed {source : String} {before text : List Char} {opening closing : Span}
    {tokens : List Token} {items : List Datum} {after : Shorter tokens}
    (hcut : Cut source 0 before text (⟨.leftBracket, opening⟩ :: tokens))
    (hread : readItems source opening tokens = .ok (items, closing, after)) :
    (bracketed source opening closing items).Honest ∧
      ∃ before text, Cut source 0 before text after := by
  obtain ⟨start, text, rfl, hinside⟩ := hcut.opening
  obtain ⟨inner, rest, rfl, htext, rfl, hrest⟩ := spellsItems_of_readItems hinside hread
  obtain ⟨place, hlist⟩ := exists_bracketed_eq _ _ items hinside.source_eq
  exact ⟨hlist ▸ htext.honest_list place, _, _, hrest⟩

/-- Lists are honest that have been read from a line. -/
theorem honest_of_readList {text : String} {datum : Datum} (hread : readList text = .ok datum) :
    datum.Honest := by
  obtain ⟨inner, _, _, items, place, rfl, -, htext, -⟩ := exists_listText_of_readList hread
  exact htext.honest_list place

def Procedure.Honest (definition : Procedure) : Prop :=
  ∀ line ∈ definition.body, line.Honest

theorem tracksLines_honest (source : String) :
    TracksLines source (fun tokens => ∃ before text, Cut source 0 before text tokens) Datum.Honest
      (·.All Procedure.Honest) where
  take := fun ⟨_, _, hcut⟩ hkind => hcut.take hkind
  list := fun ⟨_, _, hcut⟩ hread => honest_bracketed hcut hread
  atom := .atom
  call := fun _ _ _ hinputs => .call hinputs
  define := fun _ hbody hall => hall.define hbody
  procedure := fun hbody => .procedure hbody

theorem honest_of_readProgram {procedures final : Procedures} {source : String}
    {lines : List Datum} (hall : procedures.All Procedure.Honest)
    (hread : readProgram procedures source = .ok (lines, final)) :
    (∀ line ∈ lines, line.Honest) ∧ final.All Procedure.Honest := by
  obtain ⟨scan, _, _, hscan, hheaded, hnamed, hlines⟩ := exists_passes_of_readProgram hread
  have hknown := all_of_enterHeaders (fun _ _ => List.forall_mem_nil _) hall hheaded
  exact (tracksLines_honest source).readLines ⟨_, _, cut_ofSource hscan⟩
    (all_of_enterAliases hknown hnamed) hlines

/-! ## Honest stores -/

/-- The code in the value is honest. What a list holds is the store's business. -/
def Value.Honest : Value → Prop
  | .atom _ => True
  | .list _ => True
  | .call site => (Datum.call site).Honest
  | .procedure definition => (Datum.procedure definition).Honest

namespace Store

variable {store later : Store} {address : Nat}

variable {value : Value} {datum : Datum}

/-- The item of the cell at an address is the one that was spelled, or it is a list that has lost
its text since. A list that was read with the one around it was put in the store before it. -/
inductive Stands (store : Store) (address : Nat) : Value → Datum → Prop where
  | atom (value : Atom) : Stands store address (.atom value) (.atom value)
  | list {handle : ListHandle} {data : List Datum} {original : Option String}
      {place : Option Span} (hbelow : handle.address < address)
      (htext : ∀ kept ∈ store.source? handle, original = some kept) :
      Stands store address (.list handle) (.list data original place)

/-- The text of the cell, if it has kept it, spells its items, except for lists among them that have
lost their texts. -/
structure HonestCell (store : Store) (address : Nat) (cell : Cell) : Prop where
  items : ∀ value ∈ cell.items, value.Honest
  text : ∀ kept ∈ cell.source, ∃ data, ListText kept.toList data ∧
    List.Forall₂ (store.Stands address) cell.items data

def Honest (store : Store) : Prop :=
  ∀ (address : Nat) (cell : Cell), store.cells[address]? = some cell →
    store.HonestCell address cell

theorem source?_eq_some_iff {handle : ListHandle} {text : String} :
    store.source? handle = some text ↔
      ∃ cell, store.cells[handle.address]? = some cell ∧ cell.source = some text :=
  Option.bind_eq_some_iff

/-- A cell stays honest as long as the lists in it keep their texts or lose them. -/
theorem HonestCell.mono {cell : Cell} (hcell : store.HonestCell address cell)
    (hkept : ∀ handle : ListHandle, handle.address < address →
      ∀ text ∈ later.source? handle, store.source? handle = some text) :
    later.HonestCell address cell where
  items := hcell.items
  text kept hmem := by
    obtain ⟨data, htext, hitems⟩ := hcell.text kept hmem
    refine ⟨data, htext, hitems.imp ?_⟩
    intro value datum hstands
    cases hstands with
    | atom value => exact .atom value
    | list hbelow hsame =>
      exact .list hbelow fun text hlater => hsame text (hkept _ hbelow text hlater)

/-- A new cell that is honest keeps the store so. -/
theorem Honest.allocate (hstore : store.Honest) {cell : Cell}
    (hcell : store.HonestCell store.cells.size cell) (span : Option Span) :
    (store.allocate cell span).2.Honest := by
  have hkept : ∀ handle : ListHandle, handle.address < store.cells.size →
      ∀ text ∈ (store.allocate cell span).2.source? handle,
        store.source? handle = some text := by
    intro handle hbelow text htext
    simpa [Store.allocate, source?, Array.getElem?_push, Nat.ne_of_lt hbelow] using htext
  intro address other hother
  by_cases hnew : address = store.cells.size
  · subst hnew
    simp only [Store.allocate, Array.getElem?_push_size, Option.some.injEq] at hother
    subst hother
    exact hcell.mono hkept
  · have hold : store.cells[address]? = some other := by
      simpa [Store.allocate, Array.getElem?_push, hnew] using hother
    have hbound := (Array.getElem?_eq_some_iff.mp hold).1
    exact (hstore address other hold).mono fun handle hbelow =>
      hkept handle (Nat.lt_trans hbelow hbound)

theorem Honest.build (hstore : store.Honest) {items : List Value}
    (hitems : ∀ value ∈ items, value.Honest) : (store.build items).2.Honest :=
  hstore.allocate ⟨hitems, fun kept hkept => absurd hkept (Option.not_mem_none kept)⟩ none

theorem Shows.honest (hshows : store.Shows value datum) (hdatum : datum.Honest) : value.Honest := by
  cases hshows with
  | atom value => trivial
  | list hcell => trivial
  | call site => exact hdatum
  | procedure definition => exact hdatum

/-- What has just been placed stands for what was spelled. -/
theorem Shows.stands {item : Datum} (hshows : store.Shows value item)
    (hresembles : Resembles item datum) : store.Stands store.cells.size value datum := by
  cases hresembles with
  | atom value =>
    cases hshows
    exact .atom value
  | list htext =>
    cases hshows with
    | list hcell =>
      refine .list (Array.getElem?_eq_some_iff.mp hcell).1 fun kept hkept => ?_
      obtain ⟨other, hother, hsource⟩ := source?_eq_some_iff.mp hkept
      rw [hcell] at hother
      cases hother
      exact htext kept hsource

section Shown

variable {values : List Value} {items : List Datum}
  (hshows : List.Forall₂ store.Shows values items)

include hshows

theorem honest_of_shows (hitems : ∀ item ∈ items, item.Honest) :
    ∀ value ∈ values, value.Honest := by
  induction hshows with
  | nil => exact List.forall_mem_nil _
  | cons hvalue hvalues ih =>
    obtain ⟨hitem, hrest⟩ := List.forall_mem_cons.mp hitems
    exact List.forall_mem_cons.mpr ⟨hvalue.honest hitem, ih hrest⟩

theorem stands_of_shows {data : List Datum} (hresembles : List.Forall₂ Resembles items data) :
    List.Forall₂ (store.Stands store.cells.size) values data := by
  induction hshows generalizing data with
  | nil =>
    cases hresembles
    exact .nil
  | cons hvalue hvalues ih =>
    cases hresembles with
    | cons hitem hrest => exact .cons (hvalue.stands hitem) (ih hrest)

end Shown

/-- Honest data have honest cells. -/
theorem honest_place_and_placeAll :
    (∀ (store : Store) datum, store.Honest → datum.Honest → (store.place datum).2.Honest) ∧
      ∀ (store : Store) data, store.Honest → (∀ datum ∈ data, datum.Honest) →
        (store.placeAll data).2.Honest := by
  apply place.mutual_induct
  case case1 | case3 | case4 => exact fun store _ hstore _ => hstore
  case case2 =>
    intro store items text place values middle hplaced hitems hstore hdatum
    have hshows := store.shows_placeAll items
    rw [hplaced] at hitems hshows
    cases hdatum with
    | list hhonest htext =>
      rw [Store.place, hplaced]
      apply (hitems hstore hhonest).allocate
      refine ⟨honest_of_shows hshows hhonest, fun kept hkept => ?_⟩
      obtain ⟨data, hspelled, hresembles⟩ := htext kept hkept
      exact ⟨data, hspelled, stands_of_shows hshows hresembles⟩
  case case5 => exact fun store hstore _ => hstore
  case case6 =>
    intro store datum data value middle hplaced values later hlater hdatum hdata hstore hall
    obtain ⟨hfirst, hothers⟩ := List.forall_mem_cons.mp hall
    rw [hplaced] at hdatum
    rw [placeAll, hplaced]
    exact hdata (hdatum hstore hfirst) hothers

theorem Honest.place (hstore : store.Honest) (hdatum : datum.Honest) :
    (store.place datum).2.Honest :=
  honest_place_and_placeAll.1 store datum hstore hdatum

/-- Where an item is replaced, the list loses its text, and no other list sees more than that. -/
theorem Honest.set? (hstore : store.Honest) (handle : ListHandle) (position : Nat)
    (hvalue : value.Honest) : ((store.set? handle position value).getD store).Honest := by
  rw [Store.set?]
  split
  · rw [Option.getD_some]
    generalize hlater : Store.mk (store.cells.modify handle.address fun cell =>
      ⟨cell.items.set position value, none⟩) = later
    have hcells : ∀ address : Nat, later.cells[address]? =
        if handle.address = address then
          store.cells[address]?.map fun cell => ⟨cell.items.set position value, none⟩
        else store.cells[address]? := by
      rw [← hlater]
      exact fun address => Array.getElem?_modify
    have hkept : ∀ other : ListHandle, ∀ text ∈ later.source? other,
        store.source? other = some text := by
      intro other text htext
      obtain ⟨cell, hcell, hsource⟩ := source?_eq_some_iff.mp htext
      rw [hcells] at hcell
      split at hcell
      · obtain ⟨original, _, rfl⟩ := Option.map_eq_some_iff.mp hcell
        cases hsource
      · exact source?_eq_some_iff.mpr ⟨cell, hcell, hsource⟩
    intro address cell hcell
    rw [hcells] at hcell
    split at hcell
    · obtain ⟨original, horiginal, rfl⟩ := Option.map_eq_some_iff.mp hcell
      refine ⟨fun item hitem => ?_, fun kept hkept => absurd hkept (Option.not_mem_none kept)⟩
      cases List.mem_or_eq_of_mem_set hitem with
      | inl hitem => exact (hstore address original horiginal).items item hitem
      | inr hitem => exact hitem ▸ hvalue
    · exact (hstore address cell hcell).mono fun other _ => hkept other
  · exact hstore

theorem Honest.item (hstore : store.Honest) (handle : ListHandle) :
    ∀ value ∈ store.items handle, value.Honest := by
  rw [Store.items]
  split
  · rename_i cell hcell
    exact (hstore handle.address cell hcell).items
  · exact List.forall_mem_nil _

theorem Honest.text (hstore : store.Honest) {handle : ListHandle} {text : String}
    (htext : store.source? handle = some text) :
    ∃ data, ListText text.toList data ∧
      List.Forall₂ (store.Stands handle.address) (store.items handle) data := by
  obtain ⟨cell, hcell, hsource⟩ := source?_eq_some_iff.mp htext
  obtain ⟨data, hspelled, hitems⟩ := (hstore handle.address cell hcell).text text hsource
  refine ⟨data, hspelled, ?_⟩
  rw [Store.items, hcell]
  exact hitems

/-- What is seen of an item resembles what was spelled, however deep the view goes. -/
theorem Stands.resembles (hstands : store.Stands address value datum) (depth : Nat) :
    Resembles (store.viewTo depth value) datum := by
  cases hstands with
  | atom value =>
    rw [Store.viewTo]
    exact .atom value
  | list hbelow htext =>
    cases depth with
    | zero =>
      rw [Store.viewTo]
      exact .list fun kept hkept => absurd hkept (Option.not_mem_none kept)
    | succ depth =>
      rw [Store.viewTo]
      exact .list htext

/-- What an honest store shows is honest. -/
theorem Honest.viewTo (hstore : store.Honest) (depth : Nat) (hvalue : value.Honest) :
    (store.viewTo depth value).Honest := by
  induction depth generalizing value with
  | zero =>
    cases value with
    | atom value => exact .atom value
    | call site => exact hvalue
    | procedure definition => exact hvalue
    | list handle =>
      exact .list (List.forall_mem_nil _)
        fun kept hkept => absurd hkept (Option.not_mem_none kept)
  | succ depth ih =>
    cases value with
    | atom value => exact .atom value
    | call site => exact hvalue
    | procedure definition => exact hvalue
    | list handle =>
      rw [Store.viewTo]
      refine .list ?_ fun kept hkept => ?_
      · intro datum hdatum
        obtain ⟨item, hitem, rfl⟩ := List.mem_map.mp hdatum
        exact ih (hstore.item handle item hitem)
      · obtain ⟨data, hspelled, hitems⟩ := hstore.text hkept
        refine ⟨data, hspelled, List.forall₂_map_left_iff.mpr (hitems.imp ?_)⟩
        exact fun value datum hstands => hstands.resembles depth

end Store

def honesty : Custody where
  sound := Store.Honest
  held _ := Value.Honest
  fine := Datum.Honest
  code := Datum.Honest

/-- No action makes a text lie. -/
theorem lawful_honesty : honesty.Lawful where
  atom := .atom
  item hlist := by
    cases hlist with
    | list hitems htext => exact hitems
  built hitems := .list hitems fun kept hkept => absurd hkept (Option.not_mem_none kept)
  call := ⟨fun hcall => by cases hcall; assumption, .call⟩
  fine := id
  readList := honest_of_readList
  readProgram := honest_of_readProgram
  empty := by
    intro address cell hcell
    cases hcell
  heldAtom _ _ := trivial
  heldCall := Iff.rfl
  heldItem hstore _ := hstore.item _
  view hstore hvalue := hstore.viewTo _ hvalue
  place := fun {store datum} hstore hdatum =>
    ⟨hstore.place hdatum, fun _ => id, (store.shows_place datum).honest hdatum⟩
  buildAtoms atoms hstore := by
    refine ⟨hstore.build fun value hvalue => ?_, fun _ => id, trivial⟩
    obtain ⟨atom, _, rfl⟩ := List.mem_map.mp hvalue
    trivial
  replace := fun {store handle value} position hstore _ hvalue => by
    have hview := hstore.viewTo store.cells.size hvalue
    refine ⟨(hstore.place hview).set? handle position ?_, fun _ => id, trivial⟩
    exact (store.shows_place _).honest hview

theorem builds_honesty : honesty.Builds :=
  fun hstore hitems => ⟨hstore.build hitems, fun _ => id, trivial⟩

end Logo
