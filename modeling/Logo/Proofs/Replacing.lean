import Logo.Proofs.Ownership
import Logo.Text.Cluster
import Mathlib.Data.Finset.Card
import Mathlib.Order.WellFounded

/-!
# Replacing an item

An item of a list is replaced in place. It is asked first whether the list is found inside the value
that is to be stored; if it is, or if anything else is wrong, nothing changes. Otherwise one
position of one list changes, for everybody who has the list, and what stands there is a copy. The
value and its copy have no list in common, and so nothing that is done to the value later is seen in
the copy.
-/

namespace Logo

open Relation (ReflTransGen TransGen)

namespace Store

variable {store later : Store} {handle : ListHandle} {position inner outer address : Nat}
  {value stored : Value}

/-! ## Ranks -/

open Classical in
noncomputable def below (store : Store) (address : Nat) : Finset Nat :=
  (Finset.range store.cells.size).filter fun inner => TransGen store.IsItem inner address

theorem mem_below_iff :
    inner ∈ store.below address ↔
      inner < store.cells.size ∧ TransGen store.IsItem inner address := by
  simp [below]

theorem below_subset (store : Store) (address : Nat) :
    store.below address ⊆ Finset.range store.cells.size := by
  classical exact Finset.filter_subset _ _

/-- Where no list is found inside itself, the lists can be ranked by how many are inside them. -/
theorem acyclic_of_wellFounded
    (hknown : ∀ inner outer, store.IsItem inner outer → inner < store.cells.size)
    (hfounded : WellFounded store.IsItem) : store.Acyclic := by
  have hself : ∀ address, address ∉ store.below address :=
    fun address hmem => hfounded.transGen.irrefl.irrefl address (mem_below_iff.mp hmem).2
  refine ⟨fun address => (store.below address).card, fun hitem => hknown _ _ hitem, ?_, ?_⟩
  · intro inner outer hitem
    have hbelow : inner ∈ store.below outer :=
      mem_below_iff.mpr ⟨hknown _ _ hitem, .single hitem⟩
    refine Finset.card_lt_card ⟨fun other hmem => ?_, fun hsubset => hself inner (hsubset hbelow)⟩
    obtain ⟨hother, hpath⟩ := mem_below_iff.mp hmem
    exact mem_below_iff.mpr ⟨hother, hpath.tail hitem⟩
  · intro address haddress
    have hmem : address ∈ Finset.range store.cells.size := Finset.mem_range.mpr haddress
    have hless : (store.below address).card < (Finset.range store.cells.size).card :=
      Finset.card_lt_card ⟨store.below_subset address, fun hsubset => hself address (hsubset hmem)⟩
    rwa [Finset.card_range] at hless

/-! ## What is found in a value -/

def Holds (store : Store) (value : Value) (address : Nat) : Prop :=
  ∃ outer ∈ value.address?, ReflTransGen store.IsItem address outer

theorem holds_list_iff :
    store.Holds (.list handle) address ↔ ReflTransGen store.IsItem address handle.address := by
  constructor
  · rintro ⟨_, ⟨⟩, hpath⟩
    exact hpath
  · exact fun hpath => ⟨_, rfl, hpath⟩

def Knows (store : Store) (value : Value) : Prop :=
  ∀ address ∈ value.address?, address < store.cells.size

/-- Whatever is found in a value of the store is in the store. -/
theorem Acyclic.lt_of_holds (hstore : store.Acyclic) (hvalue : store.Knows value)
    (hholds : store.Holds value address) : address < store.cells.size := by
  obtain ⟨outer, houter, hpath⟩ := hholds
  obtain rfl | ⟨middle, hitem, -⟩ := hpath.cases_head
  · exact hvalue _ houter
  · exact hstore.lt_size hitem

/-- Where the lists found in a value have not changed, there are no others. -/
theorem holds_of_same
    (hsame : ∀ address, store.Holds value address → later.cells[address]? = store.cells[address]?)
    (hholds : later.Holds value address) : store.Holds value address := by
  obtain ⟨outer, houter, hpath⟩ := hholds
  refine ⟨outer, houter, ?_⟩
  induction hpath using ReflTransGen.head_induction_on with
  | refl => exact .refl
  | @head inner middle hitem _ ih =>
    obtain ⟨index, hindex⟩ := hitem
    rw [itemAt?, hsame middle ⟨outer, houter, ih⟩] at hindex
    exact ih.head ⟨index, hindex⟩

/-! ## The new store -/

def replaced (store : Store) (handle : ListHandle) (position : Nat) (value : Value) : Store :=
  ((store.copy value).2.set? handle position (store.copy value).1).getD (store.copy value).2

theorem size_replaced :
    (store.replaced handle position value).cells.size = (store.copy value).2.cells.size :=
  size_set? handle position _

theorem size_le_copy (store : Store) (value : Value) :
    store.cells.size ≤ (store.copy value).2.cells.size :=
  (store.laid_place (store.view value)).le

theorem cells_copy (haddress : address < store.cells.size) :
    (store.copy value).2.cells[address]? = store.cells[address]? := by
  have hcell := Array.getElem?_eq_getElem haddress
  rw [hcell]
  exact store.extends_place _ _ _ hcell

/-- No other list changes. -/
theorem cells_replaced_of_ne (hne : address ≠ handle.address) :
    (store.replaced handle position value).cells[address]? =
      (store.copy value).2.cells[address]? := by
  rw [replaced, set?]
  split
  · rw [Option.getD_some, Array.getElem?_modify, if_neg hne.symm]
  · rfl

theorem address_lt_of_position (hposition : position < (store.items handle).length) :
    handle.address < store.cells.size := by
  by_contra hdangling
  rw [items, Array.getElem?_eq_none (Nat.le_of_not_lt hdangling)] at hposition
  exact Nat.not_lt_zero _ hposition

/-- The list has the copy at the position and has lost its text. -/
theorem cells_replaced (hposition : position < (store.items handle).length) (value : Value) :
    (store.replaced handle position value).cells[handle.address]? =
      some ⟨(store.items handle).set position (store.copy value).1, none⟩ := by
  have hhandle := address_lt_of_position hposition
  have hcell := Array.getElem?_eq_getElem hhandle
  have hcopied : (store.copy value).2.cells[handle.address]? = some store.cells[handle.address] :=
    (cells_copy hhandle).trans hcell
  rw [items_of_cell hcell] at hposition ⊢
  rw [replaced, set?, if_pos (by rwa [items_of_cell hcopied]), Option.getD_some,
    Array.getElem?_modify, if_pos rfl, hcopied]
  rfl

/-- What is found in a value was found there before or is new. -/
theorem holds_or_le_of_replaced {item : Value}
    (hholds : (store.replaced handle position item).Holds value address) :
    store.Holds value address ∨ store.cells.size ≤ address := by
  obtain ⟨root, hroot, hpath⟩ := hholds
  induction hpath using ReflTransGen.head_induction_on with
  | refl => exact .inl ⟨root, hroot, .refl⟩
  | @head inner middle hitem _ ih =>
    obtain ⟨index, hindex⟩ := hitem
    obtain ⟨-, -, hnew⟩ | hindex := itemAt?_set? hindex
    · have hlaid := store.laid_place (store.view item)
      exact .inr (hlaid.address_bounds (List.mem_singleton_self _) hnew).1
    · obtain hindex | ⟨-, hnew, -⟩ := itemAt?_place hindex
      · obtain ⟨_, hsource, hrest⟩ | hnew := ih
        · exact .inl ⟨_, hsource, hrest.head ⟨index, hindex⟩⟩
        · exact absurd (lt_size_of_itemAt? hindex) (Nat.not_lt.mpr hnew)
      · exact .inr hnew

/-- What is found in the copy is new. -/
theorem le_of_holds_copy (hhandle : handle.address < store.cells.size)
    (hholds : (store.replaced handle position value).Holds (store.copy value).1 address) :
    store.cells.size ≤ address := by
  have hlaid := store.laid_place (store.view value)
  obtain ⟨root, hroot, hpath⟩ := hholds
  have hstart : store.cells.size ≤ root :=
    (hlaid.address_bounds (List.mem_singleton_self _) hroot).1
  induction hpath using ReflTransGen.head_induction_on with
  | refl => exact hstart
  | @head inner middle hitem _ ih =>
    obtain ⟨index, hindex⟩ := hitem
    have hne : middle ≠ handle.address := by omega
    have hcopied : (store.copy value).2.itemAt? middle index = some inner := by
      rw [itemAt?, ← cells_replaced_of_ne hne]
      exact hindex
    exact (hlaid.item_bounds ih (lt_size_of_itemAt? hcopied) hcopied).1

/-- The copy is seen as the value was. -/
theorem view_copy_replaced (hhandle : handle.address < store.cells.size) :
    (store.replaced handle position value).view (store.copy value).1 = store.view value := by
  have hlaid := store.laid_place (store.view value)
  rw [view, size_replaced, ← store.view_place (store.view value)]
  refine viewTo_congr (fun root hroot address hpath => cells_replaced_of_ne ?_) _
  have hstart := (hlaid.address_bounds (List.mem_singleton_self _) hroot).1
  have hnew : store.cells.size ≤ address := by
    induction hpath using ReflTransGen.head_induction_on with
    | refl => exact hstart
    | head hitem _ ih =>
      obtain ⟨index, hindex⟩ := hitem
      exact (hlaid.item_bounds ih (lt_size_of_itemAt? hindex) hindex).1
  omega

/-! ## A value and its copy -/

/-- Two values of the store have no list in common. -/
structure Apart (store : Store) (stored value : Value) : Prop where
  acyclic : store.Acyclic
  knowsStored : store.Knows stored
  knowsValue : store.Knows value
  disjoint : ∀ address, store.Holds stored address → ¬store.Holds value address

/-- The new item shares no cells with the value that it copies. -/
theorem apart_replaced (hstore : store.Acyclic) (hhandle : handle.address < store.cells.size)
    (position : Nat) (hvalue : store.Knows value) (houtside : ¬store.Holds value handle.address) :
    (store.replaced handle position value).Apart (store.copy value).1 value := by
  have hlaid := store.laid_place (store.view value)
  have hsize := store.size_le_copy value
  refine ⟨hstore.replace hhandle position value, ?_, ?_, ?_⟩
  · intro root hroot
    rw [size_replaced]
    exact (hlaid.address_bounds (List.mem_singleton_self _) hroot).2
  · intro root hroot
    rw [size_replaced]
    exact Nat.lt_of_lt_of_le (hvalue root hroot) hsize
  · intro address hcopy hholds
    have hold : store.Holds value address := by
      refine holds_of_same (fun middle hmiddle => ?_) hholds
      rw [cells_replaced_of_ne fun hsame => houtside (hsame ▸ hmiddle),
        cells_copy (hstore.lt_of_holds hvalue hmiddle)]
    have hnew := le_of_holds_copy hhandle hcopy
    have hbound := hstore.lt_of_holds hvalue hold
    omega

/-- A list found in the value can be changed: the other value is seen as before, and the two still
have no list in common. -/
theorem Apart.replaced (hapart : store.Apart stored value)
    (hheld : store.Holds value handle.address) (position : Nat) (item : Value) :
    (store.replaced handle position item).Apart stored value ∧
      (store.replaced handle position item).view stored = store.view stored := by
  obtain ⟨hstore, hstored, hvalue, hdisjoint⟩ := hapart
  have hsize := store.size_le_copy item
  have hhandle := hstore.lt_of_holds hvalue hheld
  have houtside : ¬store.Holds stored handle.address := fun hboth => hdisjoint _ hboth hheld
  have hsame : ∀ address, store.Holds stored address →
      (store.replaced handle position item).cells[address]? = store.cells[address]? := by
    intro address hholds
    rw [cells_replaced_of_ne fun heq => houtside (heq ▸ hholds),
      cells_copy (hstore.lt_of_holds hstored hholds)]
  constructor
  · refine ⟨hstore.replace hhandle position item, ?_, ?_, ?_⟩
    · intro root hroot
      rw [size_replaced]
      exact Nat.lt_of_lt_of_le (hstored root hroot) hsize
    · intro root hroot
      rw [size_replaced]
      exact Nat.lt_of_lt_of_le (hvalue root hroot) hsize
    · intro address hholds
      have hold := holds_of_same hsame hholds
      have hbound := hstore.lt_of_holds hstored hold
      intro hboth
      obtain hvalueHolds | hnew := holds_or_le_of_replaced hboth
      · exact hdisjoint address hold hvalueHolds
      · omega
  · cases stored with
    | atom _ | call _ | procedure _ => simp only [view, viewTo]
    | list other =>
      exact hstore.view_replace hhandle (hstored _ rfl)
        (fun hpath => houtside (holds_list_iff.mpr hpath)) position item

end Store

/-! ## The primitive -/

namespace World

variable {world after later : World} {index target value stored result : Value}
  {handle : ListHandle} {position : Nat} {cause : RuntimeError}

theorem position?_eq_some_iff {n : Int64} :
    position? n = some position ↔ n.toInt = position + 1 := by
  rw [position?]
  split
  · rw [Option.some_inj]
    omega
  · constructor
    · rintro ⟨⟩
    · omega

/-- What is asked of the inputs: the list is not found in the value, and the index is one of its
positions. -/
structure Replaces (world : World) (index target value : Value) (handle : ListHandle)
    (position : Nat) : Prop where
  index : ∃ n : Int64, index.number? = some (.integer n) ∧ n.toInt = position + 1
  target : target = .list handle
  position : position < (world.store.items handle).length
  outside : ¬world.store.Holds value handle.address

/-- The part of `setItem` in which the item is replaced. -/
theorem replaceItem_apply (world : World) (n : Int64) (handle : ListHandle) (value : Value) :
    (match position? n with
      | some position =>
        if position < (world.store.items handle).length then
          withStore fun store =>
            let (stored, store) := store.copy value
            (Value.none, (store.set? handle position stored).getD store)
        else throw (.outOfRange n (world.store.items handle).length)
      | none => throw (.outOfRange n (world.store.items handle).length) : Action Value) world =
    match position? n with
    | some position =>
      if position < (world.store.items handle).length then
        .ok .none { world with store := world.store.replaced handle position value }
      else .error (.outOfRange n (world.store.items handle).length) world
    | none => .error (.outOfRange n (world.store.items handle).length) world := by
  cases position? n with
  | none => rfl
  | some position =>
    dsimp only
    split <;> rfl

/-- An index that is no integer is refused. -/
theorem setItem_of_index (hindex : ∀ n, index.number? ≠ some (.integer n)) :
    setItem index target value world =
      .error (.typeMismatch [.integer] (world.view index)) world := by
  have hexpect : expectInteger index world =
      .error (.typeMismatch [.integer] (world.view index)) world := by
    rw [expectInteger]
    cases hnumber : index.number? with
    | none => rfl
    | some number =>
      cases number with
      | integer n => exact absurd hnumber (hindex n)
      | float _ => rfl
  rw [setItem, bind_of_error hexpect]

theorem setItem_of_target {n : Int64} (hindex : index.number? = some (.integer n))
    (htarget : target.address? = none) :
    setItem index target value world =
      .error (.typeMismatch [.list] (world.view target)) world := by
  have hexpect : expectList target world =
      .error (.typeMismatch [.list] (world.view target)) world := by
    cases target with
    | atom _ | call _ | procedure _ => rfl
    | list _ => cases htarget
  rw [setItem, bind_of_ok (expectInteger_of_number? hindex), bind_of_error hexpect]

/-- A list is not put inside itself. -/
theorem setItem_of_holds (hstore : world.store.Acyclic) {n : Int64}
    (hindex : index.number? = some (.integer n)) (hholds : world.store.Holds value handle.address) :
    setItem index (.list handle) value world = .error .circularList world := by
  rw [setItem, bind_of_ok (expectInteger_of_number? hindex),
    bind_of_ok (show expectList (.list handle) world = .ok handle world from rfl), get_bind_apply]
  cases value with
  | atom _ | call _ | procedure _ =>
    obtain ⟨_, ⟨⟩, -⟩ := hholds
  | list inner =>
    have hreaches := (hstore.reaches_iff inner handle).mpr (Store.holds_list_iff.mp hholds)
    dsimp only
    rw [if_pos hreaches]
    rfl

/-- An item that is in range is replaced, and no other. -/
theorem setItem_of_not_holds (hstore : world.store.Acyclic) {n : Int64}
    (hindex : index.number? = some (.integer n))
    (houtside : ¬world.store.Holds value handle.address) :
    setItem index (.list handle) value world =
      match position? n with
      | some position =>
        if position < (world.store.items handle).length then
          .ok .none { world with store := world.store.replaced handle position value }
        else .error (.outOfRange n (world.store.items handle).length) world
      | none => .error (.outOfRange n (world.store.items handle).length) world := by
  rw [← replaceItem_apply, setItem, bind_of_ok (expectInteger_of_number? hindex),
    bind_of_ok (show expectList (.list handle) world = .ok handle world from rfl), get_bind_apply]
  cases value with
  | atom _ | call _ | procedure _ => rfl
  | list inner =>
    have hreaches : ¬world.store.reaches inner handle = true :=
      fun hreaches => houtside (Store.holds_list_iff.mpr ((hstore.reaches_iff _ _).mp hreaches))
    dsimp only
    exact congrFun (if_neg hreaches) world

/-- An item is replaced, or nothing changes. -/
theorem setItem_cases (hstore : world.store.Acyclic) (index target value : Value) :
    (∃ handle position, world.Replaces index target value handle position ∧
      setItem index target value world =
        .ok .none { world with store := world.store.replaced handle position value }) ∨
    (¬∃ handle position, world.Replaces index target value handle position) ∧
      ∃ cause, setItem index target value world = .error cause world := by
  by_cases hindex : ∃ n, index.number? = some (.integer n)
  · obtain ⟨n, hnumber⟩ := hindex
    cases target with
    | atom _ | call _ | procedure _ =>
      refine .inr ⟨?_, _, setItem_of_target hnumber rfl⟩
      rintro ⟨_, _, -, ⟨⟩, -, -⟩
    | list handle =>
      by_cases hholds : world.store.Holds value handle.address
      · refine .inr ⟨?_, _, setItem_of_holds hstore hnumber hholds⟩
        rintro ⟨_, _, -, ⟨⟩, -, houtside⟩
        exact houtside hholds
      · rw [setItem_of_not_holds hstore hnumber hholds]
        by_cases hrange : ∃ position, position? n = some position ∧
            position < (world.store.items handle).length
        · obtain ⟨position, hposition, hlength⟩ := hrange
          refine .inl ⟨handle, position, ⟨⟨n, hnumber, position?_eq_some_iff.mp hposition⟩, rfl,
            hlength, hholds⟩, ?_⟩
          rw [hposition]
          exact if_pos hlength
        · refine .inr ⟨?_, .outOfRange n (world.store.items handle).length, ?_⟩
          · rintro ⟨_, position, ⟨m, hm, hposition⟩, ⟨⟩, hlength, -⟩
            rw [hnumber] at hm
            cases hm
            exact hrange ⟨position, position?_eq_some_iff.mpr hposition, hlength⟩
          · cases hposition : position? n with
            | none => rfl
            | some position => exact if_neg fun hlength => hrange ⟨position, hposition, hlength⟩
  · refine .inr ⟨?_, _, setItem_of_index fun n hnumber => hindex ⟨n, hnumber⟩⟩
    rintro ⟨_, _, ⟨n, hnumber, -⟩, -, -, -⟩
    exact hindex ⟨n, hnumber⟩

/-! ## Later changes -/

def ChangesIn (value : Value) (world later : World) : Prop :=
  ∃ (index item result : Value) (handle : ListHandle), world.store.Holds value handle.address ∧
    setItem index (.list handle) item world = .ok result later

theorem ChangesIn.apart (hapart : world.store.Apart stored value)
    (hchanges : ChangesIn value world later) :
    later.store.Apart stored value ∧ later.view stored = world.view stored := by
  obtain ⟨index, item, result, handle, hheld, hrun⟩ := hchanges
  obtain ⟨_, position, ⟨-, ⟨⟩, -, -⟩, hset⟩ | ⟨-, cause, hset⟩ :=
    setItem_cases hapart.acyclic index (.list handle) item
  · rw [hset] at hrun
    cases hrun
    exact hapart.replaced hheld position item
  · rw [hset] at hrun
    cases hrun

/-- However often the value is changed, what has nothing in common with it is seen as before. -/
theorem view_of_changesIn (hapart : world.store.Apart stored value)
    (hchanges : ReflTransGen (ChangesIn value) world later) :
    later.view stored = world.view stored := by
  have hboth : later.store.Apart stored value ∧ later.view stored = world.view stored := by
    induction hchanges with
    | refl => exact ⟨hapart, rfl⟩
    | tail _ hchange ih =>
      have hnext := hchange.apart ih.1
      exact ⟨hnext.1, hnext.2.trans ih.2⟩
  exact hboth.2

/-- In every store whose lists are not inside themselves, `setItem` succeeds exactly if its index is
a position of the list and the list is not found in the value, which is what it searches the value
for. Then one position of one list changes, which all handles to the list see; the list loses its
text, and no other list changes. What is stored looks like the value and has no list in common with
it, so that it looks the same however the value is changed afterwards. If it fails, nothing has
changed. -/
theorem setItem_is_exact_and_atomic (world : World) (index target value : Value)
    (hknown : ∀ inner outer, world.store.IsItem inner outer → inner < world.store.cells.size)
    (hfounded : WellFounded world.store.IsItem)
    (hvalue : ∀ address ∈ value.address?, address < world.store.cells.size) :
    (∀ inner handle, world.store.reaches inner handle = true ↔
      ReflTransGen world.store.IsItem handle.address inner.address) ∧
    ((∃ result after, setItem index target value world = .ok result after) ↔
      ∃ n handle, index.number? = some (.integer n) ∧ target = .list handle ∧
        1 ≤ n.toInt ∧ n.toInt ≤ (world.store.items handle).length ∧
        ¬world.store.Holds value handle.address) ∧
    (∀ cause after, setItem index target value world = .error cause after → after = world) ∧
    ∀ result after, setItem index target value world = .ok result after →
      ∃ (n : Int64) (handle : ListHandle) (position : Nat) (stored : Value),
        index.number? = some (.integer n) ∧ target = .list handle ∧ n.toInt = position + 1 ∧
        result = .none ∧ after = { world with store := after.store } ∧
        (∀ other : ListHandle, other.address = handle.address →
          after.store.items other = (world.store.items other).set position stored ∧
          after.store.source? other = none) ∧
        (∀ other : ListHandle, other.address < world.store.cells.size →
          other.address ≠ handle.address →
          after.store.items other = world.store.items other ∧
          after.store.source? other = world.store.source? other) ∧
        after.view stored = world.view value ∧
        (∀ address, after.store.Holds stored address → ¬after.store.Holds value address) ∧
        ∀ later, ReflTransGen (ChangesIn value) after later →
          later.view stored = after.view stored := by
  have hstore : world.store.Acyclic := Store.acyclic_of_wellFounded hknown hfounded
  refine ⟨fun inner handle => hstore.reaches_iff inner handle, ?_⟩
  obtain ⟨handle, position, ⟨⟨n, hnumber, hn⟩, rfl, hlength, houtside⟩, hset⟩ |
    ⟨hnot, cause, hset⟩ := setItem_cases hstore index target value
  · rw [hset]
    refine ⟨⟨fun _ => ⟨n, handle, hnumber, rfl, by omega, by omega, houtside⟩,
      fun _ => ⟨_, _, rfl⟩⟩, by rintro _ _ ⟨⟩, ?_⟩
    rintro result after ⟨⟩
    have hhandle := Store.address_lt_of_position hlength
    have hapart := Store.apart_replaced hstore hhandle position hvalue houtside
    refine ⟨n, handle, position, (world.store.copy value).1, hnumber, rfl, hn, rfl, rfl, ?_, ?_,
      Store.view_copy_replaced hhandle, hapart.disjoint,
      fun later hchanges => view_of_changesIn hapart hchanges⟩
    · intro other hother
      have hcell := Store.cells_replaced hlength value
      rw [← hother] at hcell
      rw [Store.items_of_cell hcell, Store.source?, hcell, Store.items, Store.items, hother]
      exact ⟨rfl, rfl⟩
    · intro other hbound hne
      have hcell : (world.store.replaced handle position value).cells[other.address]? =
          world.store.cells[other.address]? := by
        rw [Store.cells_replaced_of_ne hne, Store.cells_copy hbound]
      rw [Store.items, Store.items, Store.source?, Store.source?, hcell]
      exact ⟨rfl, rfl⟩
  · rw [hset]
    refine ⟨⟨?_, ?_⟩, ?_, ?_⟩
    · rintro ⟨_, _, ⟨⟩⟩
    · rintro ⟨n, handle, hnumber, htarget, hfirst, hlast, houtside⟩
      refine absurd ⟨handle, n.toInt.toNat - 1, ⟨n, hnumber, ?_⟩, htarget, ?_, houtside⟩ hnot
      · omega
      · omega
    · rintro _ _ ⟨⟩
      rfl
    · rintro _ _ ⟨⟩

open scoped Graphemes

/-- A list is stored that has a list in common with the one it is stored in. What stands there then
is a copy and stays as it is, whatever becomes of the list that is common to both. -/
theorem filtered_list_is_stored_as_copy :
    let operations : List Operation :=
      [.read "make \"a [[1 2] [3]] make \"b filter [true] :a", .run 200 (.list ⟨0, none⟩)]
    let world := ((Machine.new 10 (.new []) (.new none)).performAll operations).world
    (world.store.itemAt? 3 0 = some 1 ∧ world.store.itemAt? 5 0 = some 1) ∧
      ∃ stored after,
        setItem (.integer 1) (.list ⟨3, none⟩) (.list ⟨5, none⟩) world = .ok .none after ∧
        after.store.items ⟨3, none⟩ = (world.store.items ⟨3, none⟩).set 0 stored ∧
        after.view stored = world.view (.list ⟨5, none⟩) ∧
        ∀ later, ReflTransGen (ChangesIn (.list ⟨5, none⟩)) after later →
          later.view stored = after.view stored := by
  intro operations world
  have hfacts : (world.store.itemAt? 3 0 = some 1 ∧ world.store.itemAt? 5 0 = some 1) ∧
      5 < world.store.cells.size ∧
      (setItem (.integer 1) (.list ⟨3, none⟩) (.list ⟨5, none⟩) world).answer.toBool = true := by
    decide +kernel
  have hacyclic : world.store.Acyclic :=
    Machine.acyclic_performAll 10 (.new []) (.new none) operations
  clear_value world
  obtain ⟨hitems, hbound, hdone⟩ := hfacts
  have hexact := setItem_is_exact_and_atomic world (.integer 1) (.list ⟨3, none⟩) (.list ⟨5, none⟩)
    (fun _ _ => hacyclic.lt_size) hacyclic.wellFounded
    (by rintro _ ⟨⟩; exact hbound)
  obtain ⟨-, -, -, hsuccess⟩ := hexact
  cases hrun : setItem (.integer 1) (.list ⟨3, none⟩) (.list ⟨5, none⟩) world with
  | error cause after =>
    rw [hrun] at hdone
    cases hdone
  | ok result after =>
    obtain ⟨n, handle, position, stored, ⟨⟩, ⟨⟩, hposition, rfl, -, hchanged, -, hview, -,
      hlater⟩ := hsuccess result after hrun
    have hzero : position = 0 := by
      have hone : (1 : Int64).toInt = 1 := by decide
      omega
    subst hzero
    exact ⟨hitems, stored, after, rfl, (hchanged ⟨3, none⟩ rfl).1, hview, hlater⟩

end World

end Logo
