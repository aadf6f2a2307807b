import Logo.Proofs.Acyclic
import Logo.Proofs.Turns
import Logo.Text.Cluster

/-!
# Lists that belong to one list only

Whatever makes a list copies what it is made of, with one exception: the list with which a `map` or
a `filter` ends holds its items as they are. Apart from these gathered lists, a list stands at one
position at most. So lists of which neither is inside the other have nothing in common, and a change
inside one of them is not seen through the other.
-/

namespace Logo

open Relation (ReflTransGen)

namespace Store

variable {gathered : Nat → Prop} {store later : Store}

/-- Outside gathered lists, every position holds a list of the store, and no list stands at two
positions. -/
structure Owned (gathered : Nat → Prop) (store : Store) : Prop where
  known : ∀ {outer index inner}, ¬gathered outer → store.itemAt? outer index = some inner →
    inner < store.cells.size
  single : ∀ {first second i j inner}, ¬gathered first → ¬gathered second →
    store.itemAt? first i = some inner → store.itemAt? second j = some inner →
    first = second ∧ i = j

/-! ## Changes -/

theorem owned_empty (gathered : Nat → Prop) : Store.empty.Owned gathered where
  known _ hitem := by cases hitem
  single _ _ hitem := by cases hitem

section

variable (hstore : store.Owned gathered)

include hstore

/-- The lists of a datum stand at one position each, and no list from before stands at any. -/
theorem Owned.place (datum : Datum) : (store.place datum).2.Owned gathered where
  known hfree hitem := by
    have houter := lt_size_of_itemAt? hitem
    have hsize := (store.laid_place datum).le
    obtain hold | hnew := itemAt?_place hitem
    · exact Nat.lt_of_lt_of_le (hstore.known hfree hold) hsize
    · omega
  single := by
    intro first second i j inner hfirst hsecond hi hj
    obtain hold | hnew := itemAt?_place hi
    · have hinner := hstore.known hfirst hold
      obtain hold' | hnew' := itemAt?_place hj
      · exact hstore.single hfirst hsecond hold hold'
      · omega
    · obtain hold' | hnew' := itemAt?_place hj
      · have hinner := hstore.known hsecond hold'
        omega
      · exact (store.laid_place datum).item_unique ⟨hnew.1, lt_size_of_itemAt? hi⟩
          ⟨hnew'.1, lt_size_of_itemAt? hj⟩ hi hj

/-- The list that has just been placed stands at no position yet. -/
theorem Owned.root_free {datum : Datum} {outer index root : Nat}
    (hroot : (store.place datum).1.address? = some root) (hfree : ¬gathered outer) :
    (store.place datum).2.itemAt? outer index ≠ some root := by
  intro hitem
  have hlaid := store.laid_place datum
  have hbounds := hlaid.address_bounds List.mem_cons_self hroot
  obtain hold | hnew := itemAt?_place hitem
  · have hinner := hstore.known hfree hold
    omega
  · exact hlaid.root_not_item List.mem_cons_self hroot hnew.1 (lt_size_of_itemAt? hitem) hitem

theorem Owned.replace (handle : ListHandle) (position : Nat) (value : Value) :
    (((store.copy value).2.set? handle position (store.copy value).1).getD
      (store.copy value).2).Owned gathered where
  known hfree hitem := by
    rw [size_set?]
    obtain ⟨_, _, hnew⟩ | hold := itemAt?_set? hitem
    · exact ((store.laid_place _).address_bounds List.mem_cons_self hnew).2
    · exact (hstore.place _).known hfree hold
  single := by
    intro first second i j inner hfirst hsecond hi hj
    obtain ⟨rfl, rfl, hnew⟩ | hold := itemAt?_set? hi
    · obtain ⟨rfl, rfl, _⟩ | hold' := itemAt?_set? hj
      · exact ⟨rfl, rfl⟩
      · exact absurd hold' (hstore.root_free hnew hsecond)
    · obtain ⟨rfl, rfl, hnew'⟩ | hold' := itemAt?_set? hj
      · exact absurd hold (hstore.root_free hnew' hfirst)
      · exact (hstore.place _).single hfirst hsecond hold hold'

/-- A new list changes nothing if it is gathered, or if it holds no lists. -/
theorem Owned.build {items : List Value}
    (hitems : gathered store.cells.size ∨ ∀ value ∈ items, value.address? = none) :
    (store.build items).2.Owned gathered := by
  have hold : ∀ {outer index inner}, ¬gathered outer →
      (store.build items).2.itemAt? outer index = some inner →
      store.itemAt? outer index = some inner := by
    intro outer index inner hfree hitem
    rw [Store.build, itemAt?_allocate] at hitem
    split at hitem
    · rename_i hnew
      obtain ⟨value, hvalue, haddress⟩ := Option.bind_eq_some_iff.mp hitem
      obtain hgathered | hatoms := hitems
      · exact absurd (hnew ▸ hgathered) hfree
      · rw [hatoms value (List.mem_of_getElem? hvalue)] at haddress
        cases haddress
    · exact hitem
  refine ⟨fun hfree hitem => ?_, fun hfirst hsecond hi hj => ?_⟩
  · have hinner := hstore.known hfree (hold hfree hitem)
    rw [Store.build, allocate, Array.size_push]
    exact Nat.lt_succ_of_lt hinner
  · exact hstore.single hfirst hsecond (hold hfirst hi) (hold hsecond hj)

end

/-! ## Lists without anything in common -/

/-- A list and everything inside it, no gathered list among them. -/
def Ungathered (gathered : Nat → Prop) (store : Store) (handle : ListHandle) : Prop :=
  ∀ address, ReflTransGen store.IsItem address handle.address → ¬gathered address

/-- What is inside two lists is inside one of them because it is inside the other. -/
theorem Owned.nested (hstore : store.Owned gathered) {one other : ListHandle} {inner : Nat}
    (hone : store.Ungathered gathered one) (hother : store.Ungathered gathered other)
    (hinOne : ReflTransGen store.IsItem inner one.address)
    (hinOther : ReflTransGen store.IsItem inner other.address) :
    ReflTransGen store.IsItem one.address other.address ∨
      ReflTransGen store.IsItem other.address one.address := by
  have hunique : Relator.RightUnique fun inner outer =>
      store.IsItem inner outer ∧ ¬gathered outer := by
    rintro inner first second ⟨⟨i, hi⟩, hfirst⟩ ⟨⟨j, hj⟩, hsecond⟩
    exact (hstore.single hfirst hsecond hi hj).1
  have hlift : ∀ {handle : ListHandle} {inner : Nat}, store.Ungathered gathered handle →
      ReflTransGen store.IsItem inner handle.address →
      ReflTransGen (fun inner outer => store.IsItem inner outer ∧ ¬gathered outer) inner
        handle.address := by
    intro handle inner hfree hpath
    induction hpath using ReflTransGen.head_induction_on with
    | refl => exact .refl
    | head hitem hrest ih => exact .head ⟨hitem, hfree _ hrest⟩ ih
  have hforget : ∀ {inner outer : Nat},
      ReflTransGen (fun inner outer => store.IsItem inner outer ∧ ¬gathered outer) inner outer →
      ReflTransGen store.IsItem inner outer :=
    fun hpath => hpath.lift id fun _ _ hitem => hitem.1
  exact (ReflTransGen.total_of_right_unique hunique (hlift hone hinOne)
    (hlift hother hinOther)).imp hforget hforget

/-- A list is seen the same in two stores in which it and the lists inside it are the same. -/
theorem viewTo_congr {value : Value} (hsame : ∀ outer ∈ value.address?, ∀ address,
      ReflTransGen store.IsItem address outer → later.cells[address]? = store.cells[address]?)
    (depth : Nat) : later.viewTo depth value = store.viewTo depth value := by
  induction depth generalizing value with
  | zero => cases value <;> simp only [viewTo]
  | succ depth ih =>
    cases value with
    | atom _ | call _ | procedure _ => simp only [viewTo]
    | list handle =>
      have hcell := hsame _ rfl _ .refl
      have hitems : later.items handle = store.items handle := by rw [items, items, hcell]
      have hsource : later.source? handle = store.source? handle := by
        rw [source?, source?, hcell]
      rw [viewTo, viewTo, hitems, hsource]
      congr 1
      refine List.map_congr_left fun item hitem => ih fun outer houter address hpath => ?_
      cases item with
      | atom _ | call _ | procedure _ => cases houter
      | list inner =>
        cases houter
        exact hsame _ rfl _ (hpath.tail (isItem_iff.mpr ⟨inner, rfl, hitem⟩))

/-- Where an item of a list is replaced, other lists are seen as before unless that list is inside
them. -/
theorem Acyclic.view_replace (hstore : store.Acyclic) {inner other : ListHandle}
    (hinner : inner.address < store.cells.size) (hother : other.address < store.cells.size)
    (hapart : ¬ReflTransGen store.IsItem inner.address other.address) (position : Nat)
    (value : Value) :
    (((store.copy value).2.set? inner position (store.copy value).1).getD
      (store.copy value).2).view (.list other) = store.view (.list other) := by
  have hsize := (store.laid_place (store.view value)).le
  have hlater := hstore.replace hinner position value
  generalize hreplaced : ((store.copy value).2.set? inner position (store.copy value).1).getD
    (store.copy value).2 = later at hlater ⊢
  have hcells : ∀ address, address < store.cells.size → inner.address ≠ address →
      later.cells[address]? = store.cells[address]? := by
    intro address hold hne
    have hcell := Array.getElem?_eq_getElem hold
    rw [← hreplaced, set?]
    split
    · rw [Option.getD_some, Array.getElem?_modify, if_neg hne, hcell]
      exact store.extends_place _ _ _ hcell
    · rw [hcell]
      exact store.extends_place _ _ _ hcell
  have hseen : later.view (.list other) = store.viewTo later.cells.size (.list other) := by
    apply viewTo_congr
    rintro _ ⟨⟩ address hpath
    have hbound : address < store.cells.size := by
      cases hpath.cases_head with
      | inl hsame => exact hsame ▸ hother
      | inr hstep =>
        obtain ⟨outer, hitem, _⟩ := hstep
        exact hstore.lt_size hitem
    exact hcells address hbound fun hsame => hapart (hsame ▸ hpath)
  obtain ⟨rank, hrank⟩ := id hstore
  rw [hseen]
  apply hrank.viewTo_of_unfolds _ ((hstore.unfolds_iff _ _).mpr rfl)
  intro address _ hbound
  have hsmall := hrank.small hbound
  rw [← hreplaced, size_set?]
  exact Nat.lt_of_lt_of_le hsmall hsize

end Store

/-! ## Changing lists -/

/-- The part of `setItem` in which the item is replaced. -/
theorem World.store_of_replaceItem {world after : World} {index : Int64} {value result : Value}
    {handle : ListHandle} {length : Nat}
    (hrun : (match position? index with
        | some position =>
          if position < length then
            withStore fun store =>
              let (stored, store) := store.copy value
              (Value.none, (store.set? handle position stored).getD store)
          else throw (.outOfRange index length)
        | none => throw (.outOfRange index length) : Action Value) world = .ok result after) :
    ∃ position < length, after.store =
      ((world.store.copy value).2.set? handle position (world.store.copy value).1).getD
        (world.store.copy value).2 := by
  cases hfound : position? index with
  | none =>
    rw [hfound] at hrun
    cases hrun
  | some position =>
    rw [hfound] at hrun
    dsimp only at hrun
    split at hrun
    · rename_i hposition
      cases hrun
      exact ⟨position, hposition, rfl⟩
    · cases hrun

/-- A list is changed by putting a copy in the place of one of its items. -/
theorem World.store_of_setItem {world after : World} {index value result : Value}
    {handle : ListHandle} (hrun : setItem index (.list handle) value world = .ok result after) :
    ∃ position < (world.store.items handle).length, after.store =
      ((world.store.copy value).2.set? handle position (world.store.copy value).1).getD
        (world.store.copy value).2 := by
  rw [setItem, expectInteger] at hrun
  split at hrun
  · rename_i count _
    rw [bind_of_ok (show (pure count : Action Int64) world = .ok count world from rfl),
      bind_of_ok (show expectList (.list handle) world = .ok handle world from rfl),
      get_bind_apply] at hrun
    split at hrun
    · split at hrun
      · cases hrun
      · exact store_of_replaceItem hrun
    · exact store_of_replaceItem hrun
  · cases hrun

/-! ## Machines -/

def ownership (gathered : Nat → Prop) : Custody where
  sound := Store.Owned gathered
  held _ _ := True
  fine _ := True
  code _ := True

theorem ownership_gives {gathered : Nat → Prop} {store : Store} {result : Value × Store}
    (hresult : result.2.Owned gathered) : (ownership gathered).Gives store result :=
  ⟨hresult, fun _ _ => trivial, trivial⟩

/-- No action shares a cell that is owned. -/
theorem lawful_ownership (gathered : Nat → Prop) : (ownership gathered).Lawful where
  atom _ := trivial
  item _ _ _ := trivial
  built _ := trivial
  call := ⟨fun _ _ _ => trivial, fun _ => trivial⟩
  fine _ := trivial
  readList _ := trivial
  readProgram _ _ := ⟨fun _ _ => trivial, fun _ _ _ _ _ => trivial⟩
  empty := Store.owned_empty gathered
  heldAtom _ _ := trivial
  heldCall := ⟨fun _ => trivial, fun _ => trivial⟩
  heldItem _ _ _ _ := trivial
  view _ _ := trivial
  place := fun {_ datum} hstore _ => ownership_gives (hstore.place datum)
  buildAtoms atoms hstore := by
    refine ownership_gives (hstore.build (.inr fun value hvalue => ?_))
    obtain ⟨atom, _, rfl⟩ := List.mem_map.mp hvalue
    rfl
  replace := fun {_ handle value} position hstore _ _ =>
    ownership_gives (hstore.replace handle position value)

theorem ownership_admits (gathered : Nat → Prop) (operation : Operation) (machine : Machine) :
    (ownership gathered).Admits machine operation := by
  cases operation with
  | load _ | run _ _ | schedule _ => exact fun _ _ => trivial
  | place _ | read _ | resume _ | pause | tick | unschedule | reset => trivial

namespace Machine

section

variable [Segmentation]

/-- The next step ends a `map` or a `filter` with a new list, which stands at the address. -/
def Gathers (machine : Machine) (address : Nat) : Prop :=
  address = machine.world.store.cells.size ∧ ∃ frame mode span,
    (tick machine).state.frames.top? = some frame ∧
    frame.definition.kind = .special (.iterate mode) ∧ mode ≠ .find ∧
    frame.evaluated = true ∧ frame.result = some (.list ⟨address, span⟩)

/-- Where a form is over with a value, its frame is. -/
theorem Performs.top?_of_done {machine : Machine} {frame : Frame} {form : Special}
    (hperforms : machine.Performs frame) (hkind : frame.definition.kind = .special form)
    {value : Value} {world : World}
    (hrun : World.runSpecial form frame.arguments frame.continuation frame.result machine.world =
      .ok (.done value) world) :
    (tick machine).state.frames.top? = some
      ({ frame with bound := true, continuation := none, result := none }.finish value) := by
  rw [state_tick_of_running hperforms.running, step_of_special hperforms.top hperforms.unevaluated
    hperforms.complete hperforms.enough hkind, hrun]
  exact Stack.top?_replaceTop hperforms.top _

theorem mayStep_ownership {gathered : Nat → Prop} {machine : Machine}
    (hmachine : (ownership gathered).Guards machine)
    (hgathers : ∀ address, machine.Gathers address → gathered address) :
    (ownership gathered).MayStep machine := by
  intro frame mode hperforms hkind hmode items _ hrun
  apply ownership_gives
  apply hmachine.world.store.build
  left
  apply hgathers
  exact ⟨rfl, _, mode, none, hperforms.top?_of_done hkind hrun, hkind, hmode, rfl, rfl⟩

def Gathered (machine : Machine) (operations : List Operation) (address : Nat) : Prop :=
  ∃ met ∈ machine.tickedAll operations, met.Gathers address

theorem owned_performAll (maxDepth : Nat) (console : Console) (log : Log)
    (operations : List Operation) :
    ((Machine.new maxDepth console log).performAll operations).world.store.Owned
      ((Machine.new maxDepth console log).Gathered operations) := by
  have hguards := (Custody.Guards.new (lawful_ownership _) maxDepth console log).performAll
    (lawful_ownership ((Machine.new maxDepth console log).Gathered operations)) operations
    (fun operation _ met _ => ownership_admits _ operation met)
    (fun met hmet hguards => mayStep_ownership hguards
      fun address hgathers => ⟨met, hmet, hgathers⟩)
  exact hguards.world.store

/-- On every machine that can be met, no list stands at two positions, in one list or in two, except
in lists that a `map` or a `filter` has gathered. So if no such list is involved, a change of a list
that is reached through another one is not seen through a third, unless one of these two is inside
the other. -/
theorem lists_own_items_unless_gathered (maxDepth : Nat) (console : Console) (log : Log)
    (operations : List Operation) :
    let start := Machine.new maxDepth console log
    let world := (start.performAll operations).world
    let gathered := start.Gathered operations
    (∀ first second i j inner, ¬gathered first → ¬gathered second →
      world.store.itemAt? first i = some inner → world.store.itemAt? second j = some inner →
      first = second ∧ i = j) ∧
    ∀ one other inner : ListHandle, other.address < world.store.cells.size →
      world.store.Ungathered gathered one → world.store.Ungathered gathered other →
      ¬ReflTransGen world.store.IsItem one.address other.address →
      ¬ReflTransGen world.store.IsItem other.address one.address →
      ReflTransGen world.store.IsItem inner.address one.address →
      ∀ index value result after,
        World.setItem index (.list inner) value world = .ok result after →
        after.view (.list other) = world.view (.list other) := by
  intro start world gathered
  have howned : world.store.Owned gathered := owned_performAll maxDepth console log operations
  have hacyclic : world.store.Acyclic := acyclic_performAll maxDepth console log operations
  refine ⟨fun _ _ _ _ _ => howned.single, ?_⟩
  intro one other inner hbound hone hother hnotIn hnotAround hinside index value result after hrun
  have hapart : ¬ReflTransGen world.store.IsItem inner.address other.address := by
    intro hshared
    obtain hin | haround := howned.nested hone hother hinside hshared
    · exact hnotIn hin
    · exact hnotAround haround
  obtain ⟨position, hposition, hstore⟩ := World.store_of_setItem hrun
  have hinner : inner.address < world.store.cells.size := by
    by_contra hdangling
    have hnone := Array.getElem?_eq_none (Nat.le_of_not_lt hdangling)
    rw [Store.items, hnone] at hposition
    exact Nat.not_lt_zero _ hposition
  rw [World.view, hstore]
  exact hacyclic.view_replace hinner hbound hapart position value

end

open scoped Graphemes

/-- A list that was put in front of others is not changed by a change inside them. -/
theorem change_not_seen_through_new_list :
    let operations : List Operation :=
      [.read "make \"a [[1 2] [3]] make \"b fput [5] :a", .run 60 (.list ⟨0, none⟩)]
    let world := ((Machine.new 10 (.new []) (.new none)).performAll operations).world
    (world.environment.thing? "a").bind Value.address? = some 3 ∧
      (world.environment.thing? "b").bind Value.address? = some 8 ∧
      world.store.itemAt? 3 0 = some 1 ∧
      ∃ result after,
        World.setItem (.integer 1) (.list ⟨1, none⟩) (.integer 9) world = .ok result after ∧
        after.view (.list ⟨8, none⟩) = world.view (.list ⟨8, none⟩) := by
  intro operations world
  have hstores : ((world.environment.thing? "a").bind Value.address? = some 3 ∧
      (world.environment.thing? "b").bind Value.address? = some 8 ∧
      world.store.itemAt? 3 0 = some 1) ∧ 8 < world.store.cells.size ∧
      world.store.reaches ⟨8, none⟩ ⟨3, none⟩ = false ∧
      world.store.reaches ⟨3, none⟩ ⟨8, none⟩ = false ∧
      (World.setItem (.integer 1) (.list ⟨1, none⟩) (.integer 9) world).answer.toBool = true := by
    decide +kernel
  have hforms : ∀ met ∈ (Machine.new 10 (.new []) (.new none)).tickedAll operations,
      ∀ frame ∈ (tick met).state.frames.top?, ∀ mode ∈ [Iteration.map, .filter],
        frame.definition.kind ≠ .special (.iterate mode) := by
    decide +kernel
  have hfree : ∀ address, ¬(Machine.new 10 (.new []) (.new none)).Gathered operations address := by
    rintro address ⟨met, hmet, _, frame, mode, span, htop, hkind, hmode, _⟩
    refine hforms met hmet frame htop mode ?_ hkind
    cases mode <;> simp at hmode ⊢
  have hacyclic : world.store.Acyclic := acyclic_performAll 10 (.new []) (.new none) operations
  obtain ⟨⟨ha, hb, hitem⟩, hbound, hnotIn, hnotAround, hdone⟩ := hstores
  have hapart : ∀ handle other : ListHandle, world.store.reaches handle other = false →
      ¬ReflTransGen world.store.IsItem other.address handle.address := by
    intro handle other hreaches hpath
    rw [(hacyclic.reaches_iff handle other).mpr hpath] at hreaches
    cases hreaches
  obtain ⟨_, hunseen⟩ := lists_own_items_unless_gathered 10 (.new []) (.new none) operations
  cases hrun : World.setItem (.integer 1) (.list ⟨1, none⟩) (.integer 9) world with
  | error cause after =>
    rw [hrun] at hdone
    cases hdone
  | ok result after =>
    exact ⟨ha, hb, hitem, result, after, rfl, hunseen ⟨3, none⟩ ⟨8, none⟩ ⟨1, none⟩ hbound
      (fun address _ => hfree address) (fun address _ => hfree address) (hapart _ _ hnotIn)
      (hapart _ _ hnotAround) (.single ⟨0, hitem⟩) _ _ result after hrun⟩

/-- A list that has been filtered out of another one holds the same lists, and so a change of one of
them is seen through both. What a template gives twice stands at two positions of one list. -/
theorem gathered_lists_share_items :
    let filtered := (runScript 200
      "make \"a [[1 2] [3]] make \"b filter [true] :a setitem 1 first :b 9 show :a"
      (.new 10 (.new []) (.new none))).state
    let mapped := (runScript 200
      "make \"x [1] make \"b map [:x] [7 8] setitem 1 first :b 9 show :b"
      (.new 10 (.new []) (.new none))).state
    (filtered.world.environment.thing? "a").bind Value.address? = some 3 ∧
      (filtered.world.environment.thing? "b").bind Value.address? = some 5 ∧
      filtered.world.store.itemAt? 3 0 = some 1 ∧ filtered.world.store.itemAt? 5 0 = some 1 ∧
      filtered.world.console.output = "[[9 2] [3]]\n" ∧
      mapped.world.console.output = "[[9] [9]]\n" := by
  decide +kernel

end Machine

end Logo
