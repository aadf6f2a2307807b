import Logo.Proofs.Placing
import Mathlib.Logic.Relation

/-!
# How placed data lie in the store

The lists of a datum are placed one behind the other, every list right behind the lists inside it.
So the lists of one datum fill a region of the store of their own: whatever stands in the region
points backwards and stays in the region, and no two positions in it point to the same list.
-/

namespace Logo

/-- Where a list stands in the store. -/
def Value.address? : Value → Option Nat
  | .list handle => some handle.address
  | _ => Option.none

namespace Store

variable {store later : Store} {outer index inner : Nat}

variable {cell : Cell} {handle : ListHandle}

def itemAt? (store : Store) (outer index : Nat) : Option Nat :=
  (store.cells[outer]?.bind (·.items[index]?)).bind Value.address?

def IsItem (store : Store) (inner outer : Nat) : Prop :=
  ∃ index, store.itemAt? outer index = some inner

theorem itemAt?_of_cell (hcell : store.cells[outer]? = some cell) (index : Nat) :
    store.itemAt? outer index = cell.items[index]?.bind Value.address? := by
  rw [itemAt?, hcell, Option.bind_some]

theorem lt_size_of_itemAt? (hitem : store.itemAt? outer index = some inner) :
    outer < store.cells.size := by
  by_contra hbound
  rw [itemAt?, Array.getElem?_eq_none (Nat.le_of_not_lt hbound)] at hitem
  cases hitem

theorem items_of_cell (hcell : store.cells[handle.address]? = some cell) :
    store.items handle = cell.items := by
  rw [items, hcell]

/-- The items of a list that are lists themselves are the ones at its positions. -/
theorem isItem_iff :
    store.IsItem inner handle.address ↔
      ∃ other : ListHandle, other.address = inner ∧ .list other ∈ store.items handle := by
  rw [IsItem, items]
  cases hcell : store.cells[handle.address]? with
  | none => simp [itemAt?, hcell]
  | some cell =>
    simp only [itemAt?_of_cell hcell, Option.bind_eq_some_iff]
    constructor
    · rintro ⟨index, value, hvalue, haddress⟩
      cases value with
      | list other =>
        cases haddress
        exact ⟨other, rfl, List.mem_of_getElem? hvalue⟩
      | atom _ | call _ | procedure _ => cases haddress
    · rintro ⟨other, rfl, hmem⟩
      obtain ⟨index, hvalue⟩ := List.getElem?_of_mem hmem
      exact ⟨index, _, hvalue, rfl⟩

theorem Extends.itemAt? (hextends : store.Extends later) (hbound : outer < store.cells.size)
    (index : Nat) : later.itemAt? outer index = store.itemAt? outer index := by
  have hcell := Array.getElem?_eq_getElem hbound
  rw [itemAt?_of_cell hcell, itemAt?_of_cell (hextends outer _ hcell)]

/-! ## Regions -/

/-- The values show the data, and the lists in them fill the addresses from `start` up to `stop`,
every list right behind the lists inside it. -/
inductive Laid (store : Store) : Nat → List Value → List Datum → Nat → Prop where
  | nil (start : Nat) : Laid store start [] [] start
  | atom {start stop : Nat} {values : List Value} {data : List Datum} (value : Atom)
      (hrest : Laid store start values data stop) :
      Laid store start (.atom value :: values) (.atom value :: data) stop
  | call {start stop : Nat} {values : List Value} {data : List Datum} (site : Call)
      (hrest : Laid store start values data stop) :
      Laid store start (.call site :: values) (.call site :: data) stop
  | procedure {start stop : Nat} {values : List Value} {data : List Datum}
      (definition : Procedure) (hrest : Laid store start values data stop) :
      Laid store start (.procedure definition :: values) (.procedure definition :: data) stop
  | list {start middle stop : Nat} {inside values : List Value} {items data : List Datum}
      {source : Option String} {span : Option Span}
      (hinside : Laid store start inside items middle)
      (hcell : store.cells[middle]? = some ⟨inside, source⟩)
      (hrest : Laid store (middle + 1) values data stop) :
      Laid store start (.list ⟨middle, span⟩ :: values) (.list items source span :: data) stop

namespace Laid

variable {start middle stop : Nat} {values others : List Value} {data more : List Datum}

variable {value : Value} {first second : Nat}

theorem le (hlaid : store.Laid start values data stop) : start ≤ stop := by
  induction hlaid with
  | nil start => exact Nat.le_refl start
  | atom _ _ ih | call _ _ ih | procedure _ _ ih => exact ih
  | list _ _ _ ihInside ihRest => omega

theorem mono (hlaid : store.Laid start values data stop) (hextends : store.Extends later) :
    later.Laid start values data stop := by
  induction hlaid with
  | nil start => exact .nil start
  | atom value _ ih => exact .atom value ih
  | call site _ ih => exact .call site ih
  | procedure definition _ ih => exact .procedure definition ih
  | list _ hcell _ ihInside ihRest => exact .list ihInside (hextends _ _ hcell) ihRest

theorem append (hfirst : store.Laid start values data middle)
    (hsecond : store.Laid middle others more stop) :
    store.Laid start (values ++ others) (data ++ more) stop := by
  induction hfirst with
  | nil start => exact hsecond
  | atom value _ ih => exact .atom value (ih hsecond)
  | call site _ ih => exact .call site (ih hsecond)
  | procedure definition _ ih => exact .procedure definition (ih hsecond)
  | list hinside hcell _ _ ihRest => exact .list hinside hcell (ihRest hsecond)

variable (hlaid : store.Laid start values data stop)

include hlaid

/-- The lists among the values stand in the region. -/
theorem address_bounds (hvalue : value ∈ values) (haddress : value.address? = some inner) :
    start ≤ inner ∧ inner < stop := by
  induction hlaid with
  | nil start => cases hvalue
  | atom _ _ ih | call _ _ ih | procedure _ _ ih =>
    cases hvalue with
    | head => cases haddress
    | tail _ hvalue => exact ih hvalue
  | list hinside _ hrest _ ihRest =>
    have hle := hinside.le
    have hend := hrest.le
    cases hvalue with
    | head =>
      cases haddress
      exact ⟨hle, hend⟩
    | tail _ hvalue =>
      have hbounds := ihRest hvalue
      omega

/-- What stands in the region points backwards and stays in the region. -/
theorem item_bounds (hstart : start ≤ outer) (hstop : outer < stop)
    (hitem : store.itemAt? outer index = some inner) : start ≤ inner ∧ inner < outer := by
  induction hlaid with
  | nil start => omega
  | atom _ _ ih | call _ _ ih | procedure _ _ ih => exact ih hstart hstop
  | @list start middle stop _ _ _ _ _ _ hinside hcell _ ihInside ihRest =>
    rcases Nat.lt_trichotomy outer middle with hbefore | rfl | hbehind
    · exact ihInside hstart hbefore
    · rw [itemAt?_of_cell hcell] at hitem
      obtain ⟨value, hvalue, haddress⟩ := Option.bind_eq_some_iff.mp hitem
      exact hinside.address_bounds (List.mem_of_getElem? hvalue) haddress
    · have hbounds := ihRest hbehind hstop
      have hle := hinside.le
      omega

/-! ### No list is held twice -/

/-- No two values share a cell. -/
theorem root_unique (hfirst : values[first]?.bind Value.address? = some inner)
    (hsecond : values[second]?.bind Value.address? = some inner) : first = second := by
  induction hlaid generalizing first second with
  | nil start => cases hfirst
  | atom _ _ ih | call _ _ ih | procedure _ _ ih =>
    cases first with
    | zero => cases hfirst
    | succ first =>
      cases second with
      | zero => cases hsecond
      | succ second => exact congrArg (· + 1) (ih hfirst hsecond)
  | @list start middle stop _ values _ _ _ _ _ _ hrest _ ihRest =>
    have hlater : ∀ position : Nat, values[position]?.bind Value.address? = some middle → False := by
      intro position hposition
      obtain ⟨value, hvalue, haddress⟩ := Option.bind_eq_some_iff.mp hposition
      have hbounds := hrest.address_bounds (List.mem_of_getElem? hvalue) haddress
      omega
    cases first with
    | zero =>
      cases hfirst
      cases second with
      | zero => rfl
      | succ second => exact (hlater second hsecond).elim
    | succ first =>
      cases second with
      | zero =>
        cases hsecond
        exact (hlater first hfirst).elim
      | succ second => exact congrArg (· + 1) (ihRest hfirst hsecond)

/-- A list among the values is no item of a list of the region. -/
theorem root_not_item (hvalue : value ∈ values) (haddress : value.address? = some inner)
    (hstart : start ≤ outer) (hstop : outer < stop) : store.itemAt? outer index ≠ some inner := by
  intro hitem
  have hbackwards := hlaid.item_bounds hstart hstop hitem
  induction hlaid with
  | nil start => cases hvalue
  | atom _ _ ih | call _ _ ih | procedure _ _ ih =>
    cases hvalue with
    | head => cases haddress
    | tail _ hvalue => exact ih hvalue hstart hstop hbackwards
  | @list start middle stop _ _ _ _ _ _ _ _ hrest _ ihRest =>
    by_cases hbehind : middle < outer
    · have hbounds := hrest.item_bounds hbehind hstop hitem
      cases hvalue with
      | head =>
        cases haddress
        exact Nat.lt_irrefl _ hbounds.1
      | tail _ hvalue => exact ihRest hvalue hbehind hstop hbounds
    · cases hvalue with
      | head =>
        cases haddress
        exact hbehind hbackwards.2
      | tail _ hvalue =>
        have hbounds := hrest.address_bounds hvalue haddress
        omega

/-- No two items share a cell. -/
theorem item_unique {i j : Nat} (hfirst : start ≤ first ∧ first < stop)
    (hsecond : start ≤ second ∧ second < stop) (hi : store.itemAt? first i = some inner)
    (hj : store.itemAt? second j = some inner) : first = second ∧ i = j := by
  induction hlaid with
  | nil start => omega
  | atom _ _ ih | call _ _ ih | procedure _ _ ih => exact ih hfirst hsecond
  | @list start middle stop inside _ _ _ source _ hinside hcell hrest ihInside ihRest =>
    have hbehind : ∀ {outer index : Nat}, outer < stop → middle < outer →
        store.itemAt? outer index = some inner → middle < inner :=
      fun hstop hbehind hitem => (hrest.item_bounds hbehind hstop hitem).1
    have hbefore : ∀ {outer index : Nat}, start ≤ outer → outer ≤ middle →
        store.itemAt? outer index = some inner → inner < middle := by
      intro outer index hstart hle hitem
      have hwhole : store.Laid start [.list ⟨middle, none⟩] [.list _ source none] (middle + 1) :=
        .list hinside hcell (.nil _)
      have hbounds := hwhole.item_bounds hstart (Nat.lt_succ_of_le hle) hitem
      omega
    -- An item of the list at the end of a region is one of the values laid there.
    have hroot : ∀ {index : Nat}, store.itemAt? middle index = some inner →
        ∃ value ∈ inside, value.address? = some inner := by
      intro index hitem
      rw [itemAt?_of_cell hcell] at hitem
      obtain ⟨value, hvalue, haddress⟩ := Option.bind_eq_some_iff.mp hitem
      exact ⟨value, List.mem_of_getElem? hvalue, haddress⟩
    rcases Nat.lt_trichotomy first middle with hlt | heq | hgt <;>
      rcases Nat.lt_trichotomy second middle with hlt' | heq' | hgt'
    · exact ihInside ⟨hfirst.1, hlt⟩ ⟨hsecond.1, hlt'⟩
    · obtain ⟨value, hvalue, haddress⟩ := hroot (heq' ▸ hj)
      exact absurd hi (hinside.root_not_item hvalue haddress hfirst.1 hlt)
    · have hless := hbefore hfirst.1 (Nat.le_of_lt hlt) hi
      have hmore := hbehind hsecond.2 hgt' hj
      omega
    · obtain ⟨value, hvalue, haddress⟩ := hroot (heq ▸ hi)
      exact absurd hj (hinside.root_not_item hvalue haddress hsecond.1 hlt')
    · rw [heq, itemAt?_of_cell hcell] at hi
      rw [heq', itemAt?_of_cell hcell] at hj
      exact ⟨heq.trans heq'.symm, hinside.root_unique hi hj⟩
    · have hless := hbefore hfirst.1 (Nat.le_of_eq heq) hi
      have hmore := hbehind hsecond.2 hgt' hj
      omega
    · have hless := hbefore hsecond.1 (Nat.le_of_lt hlt') hj
      have hmore := hbehind hfirst.2 hgt hi
      omega
    · have hless := hbefore hsecond.1 (Nat.le_of_eq heq') hj
      have hmore := hbehind hfirst.2 hgt hi
      omega
    · exact ihRest ⟨hgt, hfirst.2⟩ ⟨hgt', hsecond.2⟩

/-- Seen deep enough, the values are the data. -/
theorem map_viewTo {depth : Nat} (hdepth : stop ≤ depth) :
    values.map (store.viewTo depth) = data := by
  induction hlaid generalizing depth with
  | nil start => rfl
  | atom _ _ ih | call _ _ ih | procedure _ _ ih =>
    rw [List.map_cons, ih hdepth, viewTo]
  | list _ hcell hrest ihInside ihRest =>
    obtain ⟨depth, rfl⟩ := Nat.exists_eq_add_one_of_ne_zero
      (Nat.ne_zero_of_lt (Nat.lt_of_lt_of_le hrest.le hdepth))
    have hmiddle := Nat.le_of_lt_succ (Nat.lt_of_lt_of_le hrest.le hdepth)
    rw [List.map_cons, ihRest hdepth, viewTo, items_of_cell hcell, ihInside hmiddle, source?,
      hcell]
    rfl

end Laid

/-! ## What is placed is laid out -/

/-- Placed data lie in cells of their own. -/
theorem laid_place_and_placeAll :
    (∀ (store : Store) datum, (store.place datum).2.Laid store.cells.size
      [(store.place datum).1] [datum] (store.place datum).2.cells.size) ∧
    ∀ (store : Store) data, (store.placeAll data).2.Laid store.cells.size
      (store.placeAll data).1 data (store.placeAll data).2.cells.size := by
  apply place.mutual_induct
  case case1 => exact fun store value => .atom value (.nil _)
  case case2 =>
    intro store items source span values middle hplaced hitems
    rw [hplaced] at hitems
    have hsize : (middle.allocate ⟨values, source⟩ span).2.cells.size =
        middle.cells.size + 1 := Array.size_push _
    have hcell : (middle.allocate ⟨values, source⟩ span).2.cells[middle.cells.size]? =
        some ⟨values, source⟩ := Array.getElem?_push_size
    rw [place, hplaced]
    dsimp only
    rw [hsize]
    exact .list (hitems.mono (extends_allocate middle _ span)) hcell (.nil _)
  case case3 => exact fun store site => .call site (.nil _)
  case case4 => exact fun store definition => .procedure definition (.nil _)
  case case5 => exact fun store => .nil _
  case case6 =>
    intro store datum data value middle hplaced values later hlater hdatum hdata
    have hextends := middle.extends_placeAll data
    rw [hplaced] at hdatum
    rw [hlater] at hdata hextends
    rw [placeAll, hplaced]
    dsimp only
    rw [hlater]
    exact (hdatum.mono hextends).append hdata

theorem laid_place (store : Store) (datum : Datum) :
    (store.place datum).2.Laid store.cells.size [(store.place datum).1] [datum]
      (store.place datum).2.cells.size :=
  laid_place_and_placeAll.1 store datum

/-- What has been placed is seen as it was. -/
theorem view_place (store : Store) (datum : Datum) :
    (store.place datum).2.view (store.place datum).1 = datum := by
  have hview := (store.laid_place datum).map_viewTo (Nat.le_refl _)
  exact (List.cons.inj hview).1

/-! ## Positions after a change -/

theorem itemAt?_allocate (store : Store) (cell : Cell) (span : Option Span) (outer index : Nat) :
    (store.allocate cell span).2.itemAt? outer index =
      if outer = store.cells.size then cell.items[index]?.bind Value.address?
      else store.itemAt? outer index := by
  by_cases hnew : outer = store.cells.size
  · have hcell : (store.allocate cell span).2.cells[outer]? = some cell := by
      rw [hnew]
      exact Array.getElem?_push_size
    rw [if_pos hnew, itemAt?_of_cell hcell]
  · rw [if_neg hnew, itemAt?, itemAt?, allocate, Array.getElem?_push, if_neg hnew]

/-- A position after a datum has been placed was there before, or it stands in the new region. -/
theorem itemAt?_place {datum : Datum} (hitem : (store.place datum).2.itemAt? outer index = some inner) :
    store.itemAt? outer index = some inner ∨
      store.cells.size ≤ outer ∧ store.cells.size ≤ inner ∧ inner < outer := by
  by_cases hold : outer < store.cells.size
  · rw [(store.extends_place datum).itemAt? hold] at hitem
    exact .inl hitem
  · have hstart := Nat.le_of_not_lt hold
    have hbounds := (store.laid_place datum).item_bounds hstart (lt_size_of_itemAt? hitem) hitem
    exact .inr ⟨hstart, hbounds⟩

/-- A position after an item has been replaced is the one of that item, or was there before. -/
theorem itemAt?_set? {position : Nat} {value : Value}
    (hitem : ((store.set? handle position value).getD store).itemAt? outer index = some inner) :
    outer = handle.address ∧ index = position ∧ value.address? = some inner ∨
      store.itemAt? outer index = some inner := by
  rw [set?] at hitem
  split at hitem
  · rw [Option.getD_some, itemAt?, Array.getElem?_modify] at hitem
    split at hitem
    · rename_i houter
      cases hcell : store.cells[outer]? with
      | none =>
        rw [hcell] at hitem
        cases hitem
      | some cell =>
        rw [hcell, Option.map_some, Option.bind_some, List.getElem?_set] at hitem
        split at hitem
        · rename_i hposition
          split at hitem
          · exact .inl ⟨houter.symm, hposition.symm, hitem⟩
          · cases hitem
        · rw [itemAt?_of_cell hcell]
          exact .inr hitem
    · exact .inr hitem
  · exact .inr hitem

theorem size_set? (handle : ListHandle) (position : Nat) (value : Value) :
    ((store.set? handle position value).getD store).cells.size = store.cells.size := by
  rw [set?]
  split
  · exact Array.size_modify
  · rfl

end Store

end Logo
