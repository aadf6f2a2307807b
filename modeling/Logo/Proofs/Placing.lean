import Logo.Store
import Mathlib.Data.List.Forall2

/-!
# Stores that grow

A datum is placed in a store by adding cells at its end. What the store held before stays where it
is, and the lists of the datum are found behind it.
-/

namespace Logo.Store

variable {store middle later : Store}

/-- Every list of the store is in the later one, with the same items and the same text. -/
def Extends (store later : Store) : Prop :=
  ∀ (address : Nat) (cell : Cell), store.cells[address]? = some cell →
    later.cells[address]? = some cell

theorem Extends.refl (store : Store) : store.Extends store :=
  fun _ _ hcell => hcell

theorem Extends.trans (hfirst : store.Extends middle) (hsecond : middle.Extends later) :
    store.Extends later :=
  fun address cell hcell => hsecond address cell (hfirst address cell hcell)

theorem extends_allocate (store : Store) (cell : Cell) (span : Option Span) :
    store.Extends (store.allocate cell span).2 := by
  intro address other hcell
  have hbound := (Array.getElem?_eq_some_iff.mp hcell).1
  simpa [allocate, Array.getElem?_push, Nat.ne_of_lt hbound] using hcell

/-- Placing only adds cells. -/
theorem extends_place_and_placeAll :
    (∀ (store : Store) datum, store.Extends (store.place datum).2) ∧
      ∀ (store : Store) data, store.Extends (store.placeAll data).2 := by
  apply place.mutual_induct
  case case1 | case3 | case4 => exact fun store _ => Extends.refl store
  case case2 =>
    intro store items source span values middle hplaced hitems
    rw [hplaced] at hitems
    rw [place, hplaced]
    exact hitems.trans (extends_allocate middle _ span)
  case case5 => exact Extends.refl
  case case6 =>
    intro store datum data value middle hplaced values later hlater hdatum hdata
    rw [hplaced] at hdatum
    rw [hlater] at hdata
    rw [placeAll, hplaced]
    dsimp only
    rw [hlater]
    exact hdatum.trans hdata

theorem extends_place (store : Store) (datum : Datum) : store.Extends (store.place datum).2 :=
  extends_place_and_placeAll.1 store datum

theorem extends_placeAll (store : Store) (data : List Datum) :
    store.Extends (store.placeAll data).2 :=
  extends_place_and_placeAll.2 store data

/-- The value is what placing the datum gives: the datum itself, or a list of the store with the
text of the datum. -/
inductive Shows (store : Store) : Value → Datum → Prop where
  | atom (value : Atom) : Shows store (.atom value) (.atom value)
  | list {handle : ListHandle} {cell : Cell} {items : List Datum} {place : Option Span}
      (hcell : store.cells[handle.address]? = some cell) :
      Shows store (.list handle) (.list items cell.source place)
  | call (site : Call) : Shows store (.call site) (.call site)
  | procedure (definition : Procedure) :
      Shows store (.procedure definition) (.procedure definition)

theorem Shows.mono {value : Value} {datum : Datum} (hshows : store.Shows value datum)
    (hextends : store.Extends later) : later.Shows value datum := by
  cases hshows with
  | atom value => exact .atom value
  | list hcell => exact .list (hextends _ _ hcell)
  | call site => exact .call site
  | procedure definition => exact .procedure definition

/-- What has been placed shows the datum. -/
theorem shows_place (store : Store) (datum : Datum) :
    (store.place datum).2.Shows (store.place datum).1 datum := by
  cases datum with
  | atom value => exact .atom value
  | call site => exact .call site
  | procedure definition => exact .procedure definition
  | list items text place =>
    rw [Store.place]
    have hcell : ((store.placeAll items).2.allocate
        ⟨(store.placeAll items).1, text⟩ place).2.cells[(store.placeAll items).2.cells.size]? =
        some ⟨(store.placeAll items).1, text⟩ := by
      simp [allocate]
    exact @Shows.list _ ⟨_, place⟩ ⟨_, text⟩ items place hcell

theorem shows_placeAll (store : Store) (data : List Datum) :
    List.Forall₂ (store.placeAll data).2.Shows (store.placeAll data).1 data := by
  induction data generalizing store with
  | nil => exact .nil
  | cons datum data ih =>
    rw [placeAll]
    exact .cons ((shows_place store datum).mono (extends_placeAll _ data)) (ih _)

end Logo.Store
