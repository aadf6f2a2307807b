import Logo.Proofs.Holdings
import Logo.Proofs.Layout

/-!
# Lists that hold each other

Lists are changed in place and can be shared, but no list ever comes to stand inside itself: what is
put into a list is a copy, and what is built of other lists is new. So the lists of a store can be
ranked, each above its items. Ranks are smaller than the number of lists, which is why whatever
follows lists down may stop at that depth and misses nothing.
-/

namespace Logo

namespace Store

variable {store : Store} {rank : Nat → Nat}

variable {handle : ListHandle} {depth : Nat} {value : Value}

/-- Every list stands above the lists that are its items, and no rank is as great as the number of
lists. -/
structure Ranked (store : Store) (rank : Nat → Nat) : Prop where
  known : ∀ {inner outer}, store.IsItem inner outer → inner < store.cells.size
  rises : ∀ {inner outer}, store.IsItem inner outer → rank inner < rank outer
  small : ∀ {address}, address < store.cells.size → rank address < store.cells.size

/-- No list of the store is found inside itself. -/
def Acyclic (store : Store) : Prop :=
  ∃ rank, store.Ranked rank

/-! ## Changes -/

theorem acyclic_empty : Store.empty.Acyclic := by
  refine ⟨id, ?_, ?_, ?_⟩
  · rintro inner outer ⟨index, hitem⟩
    cases hitem
  · rintro inner outer ⟨index, hitem⟩
    cases hitem
  · intro address haddress
    exact absurd haddress (Nat.not_lt_zero address)

/-- A new list of lists that are there stands above all of them. -/
theorem Acyclic.build (hstore : store.Acyclic) {items : List Value}
    (hitems : ∀ value ∈ items, ∀ address ∈ value.address?, address < store.cells.size) :
    (store.build items).2.Acyclic := by
  obtain ⟨rank, hrank⟩ := hstore
  have hsize : (store.build items).2.cells.size = store.cells.size + 1 := Array.size_push _
  have hsplit : ∀ {inner outer}, (store.build items).2.IsItem inner outer →
      outer = store.cells.size ∧ inner < store.cells.size ∨
        outer < store.cells.size ∧ store.IsItem inner outer := by
    rintro inner outer ⟨index, hitem⟩
    rw [Store.build, itemAt?_allocate] at hitem
    split at hitem
    · rename_i hnew
      obtain ⟨value, hvalue, haddress⟩ := Option.bind_eq_some_iff.mp hitem
      exact .inl ⟨hnew, hitems value (List.mem_of_getElem? hvalue) inner haddress⟩
    · exact .inr ⟨lt_size_of_itemAt? hitem, index, hitem⟩
  refine ⟨fun address => if address = store.cells.size then store.cells.size else rank address,
    ?_, ?_, ?_⟩
  · intro inner outer hitem
    obtain ⟨_, hinner⟩ | ⟨_, hold⟩ := hsplit hitem
    · omega
    · have hinner := hrank.known hold
      omega
  · intro inner outer hitem
    obtain ⟨rfl, hinner⟩ | ⟨houter, hold⟩ := hsplit hitem
    · rw [if_neg (Nat.ne_of_lt hinner), if_pos rfl]
      exact hrank.small hinner
    · rw [if_neg (Nat.ne_of_lt (hrank.known hold)), if_neg (Nat.ne_of_lt houter)]
      exact hrank.rises hold
  · intro address haddress
    split
    · omega
    · have hsmall : rank address < store.cells.size := hrank.small (by omega)
      omega

/-- Placed data close no circle. -/
theorem Acyclic.place (hstore : store.Acyclic) (datum : Datum) :
    (store.place datum).2.Acyclic := by
  obtain ⟨rank, hrank⟩ := hstore
  have hsize := (store.laid_place datum).le
  -- The new lists stand above the old ones and are ranked as they lie.
  refine ⟨fun address => if address < store.cells.size then rank address else address,
    ?_, ?_, ?_⟩
  · rintro inner outer ⟨index, hitem⟩
    have houter := lt_size_of_itemAt? hitem
    obtain hold | hnew := itemAt?_place hitem
    · exact Nat.lt_of_lt_of_le (hrank.known ⟨index, hold⟩) hsize
    · omega
  · rintro inner outer ⟨index, hitem⟩
    obtain hold | ⟨houter, hinner, hless⟩ := itemAt?_place hitem
    · rw [if_pos (hrank.known ⟨index, hold⟩), if_pos (lt_size_of_itemAt? hold)]
      exact hrank.rises ⟨index, hold⟩
    · rw [if_neg (Nat.not_lt.mpr hinner), if_neg (Nat.not_lt.mpr houter)]
      exact hless
  · intro address haddress
    split
    · rename_i hold
      exact Nat.lt_of_lt_of_le (hrank.small hold) hsize
    · exact haddress

/-- What takes the place of an item is a copy, so nothing in it leads back. -/
theorem Acyclic.replace (hstore : store.Acyclic) (hhandle : handle.address < store.cells.size)
    (position : Nat) (value : Value) :
    (((store.copy value).2.set? handle position (store.copy value).1).getD
      (store.copy value).2).Acyclic := by
  obtain ⟨rank, hrank⟩ := hstore
  rw [copy]
  generalize store.view value = datum
  have hlaid := store.laid_place datum
  have hsize := hlaid.le
  have hroot : ∀ {address}, (store.place datum).1.address? = some address →
      store.cells.size ≤ address ∧ address < (store.place datum).2.cells.size :=
    fun haddress => hlaid.address_bounds List.mem_cons_self haddress
  -- The lists of the copy go below all others.
  refine ⟨fun address => if address < store.cells.size
    then rank address + ((store.place datum).2.cells.size - store.cells.size)
    else address - store.cells.size, ?_, ?_, ?_⟩
  · rintro inner outer ⟨index, hitem⟩
    have houter := lt_size_of_itemAt? hitem
    rw [size_set?] at houter ⊢
    obtain ⟨_, _, hnew⟩ | hitem := itemAt?_set? hitem
    · exact (hroot hnew).2
    · obtain hold | hnew := itemAt?_place hitem
      · exact Nat.lt_of_lt_of_le (hrank.known ⟨index, hold⟩) hsize
      · omega
  · rintro inner outer ⟨index, hitem⟩
    obtain ⟨rfl, _, hnew⟩ | hitem := itemAt?_set? hitem
    · have hbounds := hroot hnew
      rw [if_neg (Nat.not_lt.mpr hbounds.1), if_pos hhandle]
      omega
    · obtain hold | ⟨houter, hinner, hless⟩ := itemAt?_place hitem
      · have hrises := hrank.rises ⟨index, hold⟩
        rw [if_pos (hrank.known ⟨index, hold⟩), if_pos (lt_size_of_itemAt? hold)]
        omega
      · rw [if_neg (Nat.not_lt.mpr hinner), if_neg (Nat.not_lt.mpr houter)]
        omega
  · intro address haddress
    rw [size_set?] at haddress ⊢
    split
    · rename_i hold
      have hsmall := hrank.small hold
      omega
    · omega

/-! ## Following lists down -/

/-- The datum that a value holds, when lists are followed as far as they go. -/
inductive Unfolds (store : Store) : Value → Datum → Prop where
  | atom (value : Atom) : Unfolds store (.atom value) (.atom value)
  | call (site : Call) : Unfolds store (.call site) (.call site)
  | procedure (definition : Procedure) :
      Unfolds store (.procedure definition) (.procedure definition)
  | list {handle : ListHandle} {items : List Datum}
      (hitems : List.Forall₂ (Unfolds store) (store.items handle) items) :
      Unfolds store (.list handle) (.list items (store.source? handle) handle.span)

def Fits (store : Store) (rank : Nat → Nat) (depth : Nat) (value : Value) : Prop :=
  ∀ address ∈ value.address?, address < store.cells.size → rank address < depth

theorem Ranked.fits (hrank : store.Ranked rank) (value : Value) :
    store.Fits rank store.cells.size value :=
  fun _ _ hbound => hrank.small hbound

/-- The items of a list fit in less depth than the list. -/
theorem Ranked.fits_items (hrank : store.Ranked rank)
    (hfits : store.Fits rank (depth + 1) (.list handle)) :
    ∀ item ∈ store.items handle, store.Fits rank depth item := by
  intro item hitem inner hinner _
  cases item with
  | atom _ | call _ | procedure _ => cases hinner
  | list other =>
    cases hinner
    have his : store.IsItem other.address handle.address := isItem_iff.mpr ⟨other, rfl, hitem⟩
    obtain ⟨index, hposition⟩ := id his
    have hdepth := hfits handle.address rfl (lt_size_of_itemAt? hposition)
    have hrises := hrank.rises his
    omega

/-- What fits in no depth at all is not in the store. -/
theorem Fits.dangling (hfits : store.Fits rank 0 (.list handle)) :
    store.items handle = [] ∧ store.source? handle = none := by
  have hnone : store.cells[handle.address]? = none := by
    apply Array.getElem?_eq_none
    by_contra hbound
    exact Nat.not_lt_zero _ (hfits handle.address rfl (Nat.lt_of_not_le hbound))
  rw [items, source?, hnone]
  exact ⟨rfl, rfl⟩

/-- A view that is deep enough shows all of a value. -/
theorem Ranked.unfolds_viewTo (hrank : store.Ranked rank) (hfits : store.Fits rank depth value) :
    store.Unfolds value (store.viewTo depth value) := by
  induction depth generalizing value with
  | zero =>
    cases value with
    | atom value => exact .atom value
    | call site => exact .call site
    | procedure definition => exact .procedure definition
    | list handle =>
      obtain ⟨hitems, hsource⟩ := hfits.dangling
      rw [viewTo, ← hsource]
      exact .list (hitems ▸ .nil)
  | succ depth ih =>
    cases value with
    | atom value => exact .atom value
    | call site => exact .call site
    | procedure definition => exact .procedure definition
    | list handle =>
      rw [viewTo]
      refine .list (List.forall₂_map_right_iff.mpr (List.forall₂_same.mpr ?_))
      exact fun item hitem => ih (hrank.fits_items hfits item hitem)

/-- A value unfolds in one way only. -/
theorem Ranked.viewTo_of_unfolds (hrank : store.Ranked rank) {datum : Datum}
    (hfits : store.Fits rank depth value) (hunfolds : store.Unfolds value datum) :
    store.viewTo depth value = datum := by
  induction depth generalizing value datum with
  | zero =>
    cases hunfolds with
    | atom value | call site | procedure definition => rw [viewTo]
    | list hitems =>
      obtain ⟨hnone, hsource⟩ := hfits.dangling
      rw [hnone, List.forall₂_nil_left_iff] at hitems
      rw [viewTo, hitems, hsource]
  | succ depth ih =>
    cases hunfolds with
    | atom value | call site | procedure definition => rw [viewTo]
    | @list handle items hitems =>
      have hbelow := hrank.fits_items hfits
      have hview : (store.items handle).map (store.viewTo depth) = items := by
        rw [← List.forall₂_eq_eq_eq, List.forall₂_map_left_iff]
        rw [List.forall₂_iff_zip] at hitems ⊢
        refine ⟨hitems.1, fun {item datum} hmem => ?_⟩
        exact ih (hbelow item (List.of_mem_zip hmem).1) (hitems.2 hmem)
      rw [viewTo, hview]

/-- A search that is deep enough finds a cell exactly if it is inside. -/
theorem Ranked.reachesTo_iff (hrank : store.Ranked rank) {target : Nat}
    (hfits : store.Fits rank depth (.list handle)) :
    store.reachesTo target depth handle = true ↔
      Relation.ReflTransGen store.IsItem target handle.address := by
  induction depth generalizing handle with
  | zero =>
    have hnone : ∀ inner, ¬store.IsItem inner handle.address := by
      intro inner hitem
      obtain ⟨other, _, hmem⟩ := isItem_iff.mp hitem
      rw [hfits.dangling.1] at hmem
      cases hmem
    rw [reachesTo, beq_iff_eq, Relation.ReflTransGen.cases_tail_iff]
    constructor
    · exact fun hsame => .inl hsame
    · rintro (hsame | ⟨inner, _, hitem⟩)
      · exact hsame
      · exact (hnone inner hitem).elim
  | succ depth ih =>
    have hbelow := hrank.fits_items hfits
    rw [reachesTo, Bool.or_eq_true, beq_iff_eq, List.any_eq_true,
      Relation.ReflTransGen.cases_tail_iff]
    refine or_congr Iff.rfl ⟨?_, ?_⟩
    · rintro ⟨item, hitem, hreaches⟩
      cases item with
      | list inner =>
        exact ⟨inner.address, (ih (hbelow _ hitem)).mp hreaches,
          isItem_iff.mpr ⟨inner, rfl, hitem⟩⟩
      | atom _ | call _ | procedure _ => cases hreaches
    · rintro ⟨_, hpath, hitem⟩
      obtain ⟨inner, rfl, hmem⟩ := isItem_iff.mp hitem
      exact ⟨.list inner, hmem, (ih (hbelow _ hmem)).mpr hpath⟩

/-! ## Stores without cycles -/

variable (hstore : store.Acyclic)

include hstore

theorem Acyclic.wellFounded : WellFounded store.IsItem := by
  obtain ⟨rank, hrank⟩ := hstore
  exact Subrelation.wf hrank.rises (measure rank).wf

theorem Acyclic.unfolds_iff (value : Value) (datum : Datum) :
    store.Unfolds value datum ↔ store.view value = datum := by
  obtain ⟨rank, hrank⟩ := hstore
  constructor
  · exact hrank.viewTo_of_unfolds (hrank.fits value)
  · rintro rfl
    exact hrank.unfolds_viewTo (hrank.fits value)

theorem Acyclic.reaches_iff (handle other : ListHandle) :
    store.reaches handle other = true ↔
      Relation.ReflTransGen store.IsItem other.address handle.address := by
  obtain ⟨rank, hrank⟩ := hstore
  exact hrank.reachesTo_iff (hrank.fits (.list handle))

theorem Acyclic.lt_size {inner outer : Nat} (hitem : store.IsItem inner outer) :
    inner < store.cells.size := by
  obtain ⟨rank, hrank⟩ := hstore
  exact hrank.known hitem

/-- The items of a list are in the store. -/
theorem Acyclic.items (handle : ListHandle) :
    ∀ item ∈ store.items handle, ∀ address ∈ item.address?, address < store.cells.size := by
  intro item hitem address haddress
  cases item with
  | atom _ | call _ | procedure _ => cases haddress
  | list inner =>
    cases haddress
    exact hstore.lt_size (isItem_iff.mpr ⟨inner, rfl, hitem⟩)

end Store

def acyclicity : Custody where
  sound := Store.Acyclic
  held store value := ∀ address ∈ value.address?, address < store.cells.size
  fine _ := True
  code _ := True

theorem acyclicity_gives {store later : Store} {value : Value} (hlater : later.Acyclic)
    (hsize : store.cells.size ≤ later.cells.size)
    (hvalue : ∀ address ∈ value.address?, address < later.cells.size) :
    acyclicity.Gives store (value, later) :=
  ⟨hlater, fun _ hheld address haddress => Nat.lt_of_lt_of_le (hheld address haddress) hsize,
    hvalue⟩

theorem builds_acyclicity : acyclicity.Builds := by
  intro store items hstore hitems
  have hsize : store.cells.size < (store.build items).2.cells.size := by
    simp [Store.build, Store.allocate]
  refine acyclicity_gives (Store.Acyclic.build hstore hitems) (Nat.le_of_lt hsize) ?_
  intro address haddress
  cases haddress
  exact hsize

/-- No action closes a circle. -/
theorem lawful_acyclicity : acyclicity.Lawful where
  atom _ := trivial
  item _ _ _ := trivial
  built _ := trivial
  call := ⟨fun _ _ _ => trivial, fun _ => trivial⟩
  fine _ := trivial
  readList _ := trivial
  readProgram _ _ := ⟨fun _ _ => trivial, fun _ _ _ _ _ => trivial⟩
  empty := Store.acyclic_empty
  heldAtom _ _ _ haddress := by cases haddress
  heldCall := ⟨fun _ => trivial, fun _ _ haddress => by cases haddress⟩
  heldItem hstore _ := hstore.items _
  view _ _ := trivial
  place := by
    intro store datum hstore _
    have hlaid := store.laid_place datum
    exact acyclicity_gives (hstore.place datum) hlaid.le
      fun address haddress => (hlaid.address_bounds List.mem_cons_self haddress).2
  buildAtoms atoms hstore := by
    refine builds_acyclicity hstore fun value hvalue => ?_
    obtain ⟨atom, _, rfl⟩ := List.mem_map.mp hvalue
    exact fun address haddress => by cases haddress
  replace := by
    intro store handle value position hstore hhandle _
    refine acyclicity_gives (hstore.replace (hhandle _ rfl) position value) ?_ ?_
    · rw [Store.size_set?]
      exact (store.laid_place _).le
    · intro address haddress
      cases haddress

namespace Machine

variable [Segmentation]

/-- On every machine that can be met, all lists that values point to are in the store. -/
theorem guards_performAll (maxDepth : Nat) (console : Console) (log : Log)
    (operations : List Operation) :
    acyclicity.Guards ((Machine.new maxDepth console log).performAll operations) := by
  have hadmits : ∀ operation machine, acyclicity.Guards machine →
      acyclicity.Admits machine operation := by
    intro operation machine hmachine
    have hlines : ∀ program, ∀ line ∈ machine.linesOf program,
        acyclicity.held machine.world.store line := by
      intro program
      cases program with
      | list handle => exact Store.Acyclic.items hmachine.world.store handle
      | atom _ | call _ | procedure _ =>
        exact List.forall_mem_singleton.mpr fun address haddress => by cases haddress
    cases operation with
    | load program | run _ program => exact hlines program
    | place _ => trivial
    | schedule _ => exact fun _ _ => trivial
    | read _ | resume _ | pause | tick | unschedule | reset => trivial
  exact (Custody.Guards.new lawful_acyclicity maxDepth console log).performAll
    lawful_acyclicity operations (fun operation _ => hadmits operation)
    (fun met _ hmet => builds_acyclicity.mayStep hmet)

theorem acyclic_performAll (maxDepth : Nat) (console : Console) (log : Log)
    (operations : List Operation) :
    ((Machine.new maxDepth console log).performAll operations).world.store.Acyclic :=
  (guards_performAll maxDepth console log operations).world.store

/-- On every machine that can be met, no list is found inside itself. So whatever follows the lists
of a value down comes to an end: the value unfolds into a datum, which is the one that is shown,
compared and copied, and a list is looked for inside another one at every depth there is. -/
theorem no_list_inside_itself (maxDepth : Nat) (console : Console) (log : Log)
    (operations : List Operation) :
    let store := ((Machine.new maxDepth console log).performAll operations).world.store
    WellFounded store.IsItem ∧
      (∀ value datum, store.Unfolds value datum ↔ store.view value = datum) ∧
      (∀ value, (store.copy value).2.Unfolds (store.copy value).1 (store.view value)) ∧
      ∀ handle other, store.reaches handle other = true ↔
        Relation.ReflTransGen store.IsItem other.address handle.address := by
  intro store
  have hstore : store.Acyclic := acyclic_performAll maxDepth console log operations
  refine ⟨hstore.wellFounded, hstore.unfolds_iff, fun value => ?_, hstore.reaches_iff⟩
  have hcopy : (store.copy value).2.Acyclic := hstore.place _
  exact (hcopy.unfolds_iff _ _).mpr (store.view_place _)

end Machine

end Logo
