import Logo.Datum

/-!
# Shared lists

A list value is a handle to a cell of the store. Handles to one cell see the same items, so a change
through one of them shows through all. A datum is placed in the store by giving every list in it a
fresh cell, and a value is viewed as the datum that it holds at the moment.
-/

namespace Logo

structure ListHandle where
  address : Nat
  /-- Where the list stood in the text that it was read from. -/
  span : Option Span

/-- What programs compute with: a datum whose list, if it is one, is shared. -/
inductive Value where
  | atom (value : Atom)
  | list (handle : ListHandle)
  | call (site : Call)
  | procedure (definition : Procedure)

namespace Value

def integer (value : Int64) : Value :=
  .atom (.number (.integer value))

def boolean (value : Bool) : Value :=
  .atom (.boolean value)

def nil : Value :=
  .atom .nil

def none : Value :=
  .atom .none

instance : Inhabited Value where
  default := .none

def atom? : Value → Option Atom
  | .atom value => some value
  | _ => Option.none

def number? (value : Value) : Option Number :=
  value.atom?.bind Atom.number?

def text? (value : Value) : Option String :=
  value.atom?.bind Atom.text?

end Value

/-- The contents of one list. -/
structure Cell where
  items : List Value
  /-- The text between the brackets, while the items are still those that it spells. -/
  source : Option String

structure Store where
  cells : Array Cell

namespace Store

def empty : Store where
  cells := #[]

def items (store : Store) (handle : ListHandle) : List Value :=
  match store.cells[handle.address]? with
  | some cell => cell.items
  | none => []

def source? (store : Store) (handle : ListHandle) : Option String :=
  store.cells[handle.address]?.bind Cell.source

/-- Puts a cell at the next free address. -/
def allocate (store : Store) (cell : Cell) (span : Option Span) : Value × Store :=
  (.list ⟨store.cells.size, span⟩, ⟨store.cells.push cell⟩)

/-- A new list of values, which may be shared themselves. -/
def build (store : Store) (items : List Value) : Value × Store :=
  store.allocate ⟨items, none⟩ none

mutual

/-- Places a datum: every list in it gets a cell of its own. -/
def place (store : Store) : Datum → Value × Store
  | .atom value => (.atom value, store)
  | .list items source span =>
    let (values, store) := store.placeAll items
    store.allocate ⟨values, source⟩ span
  | .call site => (.call site, store)
  | .procedure definition => (.procedure definition, store)

def placeAll (store : Store) : List Datum → List Value × Store
  | [] => ([], store)
  | datum :: data =>
    let (value, store) := store.place datum
    let (values, store) := store.placeAll data
    (value :: values, store)

end

/-- The datum that a value holds, lists being followed down to the given depth. -/
def viewTo (store : Store) : Nat → Value → Datum
  | _, .atom value => .atom value
  | _, .call site => .call site
  | _, .procedure definition => .procedure definition
  | 0, .list handle => .list [] none handle.span
  | depth + 1, .list handle =>
    .list ((store.items handle).map (store.viewTo depth)) (store.source? handle) handle.span

/-- The datum that a value holds. No list of a store without cycles is nested deeper than the store
has cells. -/
def view (store : Store) (value : Value) : Datum :=
  store.viewTo store.cells.size value

/-- A copy that shares no list with the value. -/
def copy (store : Store) (value : Value) : Value × Store :=
  store.place (store.view value)

/-- Whether the cell at `target` is the list itself or is found inside it, down to the given
depth. -/
def reachesTo (store : Store) (target : Nat) : Nat → ListHandle → Bool
  | 0, handle => handle.address == target
  | depth + 1, handle =>
    handle.address == target ||
      (store.items handle).any fun
        | .list inner => store.reachesTo target depth inner
        | _ => false

/-- Whether `other` is the list itself or is found inside it at any depth. -/
def reaches (store : Store) (handle other : ListHandle) : Bool :=
  store.reachesTo other.address store.cells.size handle

/-- Replaces the item at a position, counted from zero, and forgets the text of the list. -/
def set? (store : Store) (handle : ListHandle) (index : Nat) (value : Value) : Option Store :=
  if index < (store.items handle).length then
    some ⟨store.cells.modify handle.address fun cell => ⟨cell.items.set index value, none⟩⟩
  else
    none

end Store

end Logo
