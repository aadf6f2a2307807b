import Logo.Proofs.Acyclic

/-!
# Stores alike up to addresses

Two runs of a program may place their lists at different addresses, and one of them may hold lists
that the other has no use for. What counts is which lists belong together: lists that do have the
same text, and their items belong together one by one. Values that differ only so far look the same,
and they still do when the same has been done to both.
-/

namespace Logo

variable {left right : List Value}

/-- Which addresses of two stores belong together. -/
abbrev Matching := Nat → Nat → Prop

/-- Lists of the left store that have been put aside: nobody holds them yet. -/
abbrev Reserve := Nat → Cell → Prop

namespace Matching

variable {pairs middle later : Matching}

def Grows (pairs later : Matching) : Prop :=
  ∀ left right, pairs left right → later left right

theorem Grows.refl (pairs : Matching) : pairs.Grows pairs :=
  fun _ _ => id

theorem Grows.trans (hfirst : pairs.Grows middle) (hsecond : middle.Grows later) :
    pairs.Grows later :=
  fun left right hpair => hsecond left right (hfirst left right hpair)

def add (pairs : Matching) (left right : Nat) : Matching := fun first second =>
  pairs first second ∨ first = left ∧ second = right

theorem grows_add (pairs : Matching) (left right : Nat) : pairs.Grows (pairs.add left right) :=
  fun _ _ => .inl

end Matching

/-- The values are the same, apart from where their lists stand. -/
inductive Value.Alike (pairs : Matching) : Value → Value → Prop where
  | atom (value : Atom) : Alike pairs (.atom value) (.atom value)
  | list {left right : ListHandle} (hpair : pairs left.address right.address)
      (hspan : left.span = right.span) : Alike pairs (.list left) (.list right)
  | call (site : Call) : Alike pairs (.call site) (.call site)
  | procedure (definition : Procedure) : Alike pairs (.procedure definition) (.procedure definition)

variable {pairs later : Matching}

theorem Value.Alike.mono (hgrows : pairs.Grows later) {left right : Value}
    (halike : left.Alike pairs right) : left.Alike later right := by
  cases halike with
  | atom value => exact .atom value
  | list hpair hspan => exact .list (hgrows _ _ hpair) hspan
  | call site => exact .call site
  | procedure definition => exact .procedure definition

theorem Value.Alike.all_mono (hgrows : pairs.Grows later)
    (halike : List.Forall₂ (Value.Alike pairs) left right) :
    List.Forall₂ (Value.Alike later) left right :=
  halike.imp fun _ _ => Value.Alike.mono hgrows

theorem Value.Alike.getElem? (halike : List.Forall₂ (Value.Alike pairs) left right) (index : Nat) :
    Option.Rel (Value.Alike pairs) left[index]? right[index]? := by
  induction halike generalizing index with
  | nil => exact .none
  | cons hfirst _ ih =>
    cases index with
    | zero => exact .some hfirst
    | succ index => exact ih index

theorem Value.Alike.set (halike : List.Forall₂ (Value.Alike pairs) left right) {value other : Value}
    (hvalue : value.Alike pairs other) (index : Nat) :
    List.Forall₂ (Value.Alike pairs) (left.set index value) (right.set index other) := by
  induction halike generalizing index with
  | nil => exact .nil
  | cons hfirst hrest ih =>
    cases index with
    | zero => exact .cons hvalue hrest
    | succ index => exact .cons hfirst (ih index)

theorem Value.Alike.swap {left right : Value} (halike : left.Alike pairs right) :
    right.Alike (fun first second => pairs second first) left := by
  cases halike with
  | atom value => exact .atom value
  | list hpair hspan => exact .list hpair hspan.symm
  | call site => exact .call site
  | procedure definition => exact .procedure definition

structure Cell.Alike (pairs : Matching) (left right : Cell) : Prop where
  source : left.source = right.source
  items : List.Forall₂ (Value.Alike pairs) left.items right.items

theorem Cell.Alike.mono (hgrows : pairs.Grows later) {left right : Cell}
    (halike : left.Alike pairs right) : left.Alike later right :=
  ⟨halike.source, Value.Alike.all_mono hgrows halike.items⟩

namespace Store

/-- The addresses are paired one to one, and the lists at them are alike. The lists that have been
put aside belong to none. -/
structure Matched (reserve : Reserve) (pairs : Matching) (left right : Store) : Prop where
  forward : ∀ {address first second}, pairs address first → pairs address second → first = second
  backward : ∀ {first second address}, pairs first address → pairs second address → first = second
  cells : ∀ {first second}, pairs first second →
    ∃ leftCell rightCell, left.cells[first]? = some leftCell ∧
      right.cells[second]? = some rightCell ∧ leftCell.Alike pairs rightCell
  kept : ∀ {address cell}, reserve address cell → left.cells[address]? = some cell
  free : ∀ {address cell other}, reserve address cell → ¬pairs address other

namespace Matched

variable {reserve : Reserve} {pairs : Matching} {left right later : Store}

/-! ## What alike values look like -/

section

variable (hmatched : left.Matched reserve pairs right)

include hmatched

theorem lt_left {first second : Nat} (hpair : pairs first second) : first < left.cells.size := by
  obtain ⟨cell, _, hcell, _⟩ := hmatched.cells hpair
  exact (Array.getElem?_eq_some_iff.mp hcell).1

theorem lt_right {first second : Nat} (hpair : pairs first second) : second < right.cells.size := by
  obtain ⟨_, cell, _, hcell, _⟩ := hmatched.cells hpair
  exact (Array.getElem?_eq_some_iff.mp hcell).1

/-- Values that are alike are lists of their stores, if they are lists. -/
theorem bounds {first second : List Value}
    (halike : List.Forall₂ (Value.Alike pairs) first second) :
    (∀ value ∈ first, ∀ address ∈ value.address?, address < left.cells.size) ∧
      ∀ value ∈ second, ∀ address ∈ value.address?, address < right.cells.size := by
  induction halike with
  | nil => exact ⟨List.forall_mem_nil _, List.forall_mem_nil _⟩
  | cons hvalue _ ih =>
    refine ⟨List.forall_mem_cons.mpr ⟨?_, ih.1⟩, List.forall_mem_cons.mpr ⟨?_, ih.2⟩⟩
    · intro address haddress
      cases hvalue with
      | atom _ | call _ | procedure _ => cases haddress
      | list hpair _ =>
        cases haddress
        exact hmatched.lt_left hpair
    · intro address haddress
      cases hvalue with
      | atom _ | call _ | procedure _ => cases haddress
      | list hpair _ =>
        cases haddress
        exact hmatched.lt_right hpair

theorem items {first second : ListHandle} (hpair : pairs first.address second.address) :
    List.Forall₂ (Value.Alike pairs) (left.items first) (right.items second) ∧
      left.source? first = right.source? second := by
  obtain ⟨leftCell, rightCell, hleft, hright, halike⟩ := hmatched.cells hpair
  rw [items_of_cell hleft, items_of_cell hright, source?, source?, hleft, hright]
  exact ⟨halike.items, halike.source⟩

/-- Values that are alike unfold to the same datum. -/
theorem unfolds {rank : Nat → Nat} (hrank : left.Ranked rank) {depth : Nat} {first second : Value}
    (hfits : left.Fits rank depth first) (halike : first.Alike pairs second) :
    right.Unfolds second (left.viewTo depth first) := by
  induction depth generalizing first second with
  | zero =>
    cases halike with
    | atom value => exact .atom value
    | call site => exact .call site
    | procedure definition => exact .procedure definition
    | list hpair hspan =>
      have hdepth := hfits _ rfl (hmatched.lt_left hpair)
      exact absurd hdepth (Nat.not_lt_zero _)
  | succ depth ih =>
    cases halike with
    | atom value => exact .atom value
    | call site => exact .call site
    | procedure definition => exact .procedure definition
    | list hpair hspan =>
      obtain ⟨hitems, hsource⟩ := hmatched.items hpair
      rw [viewTo, hsource, hspan]
      refine .list (List.forall₂_map_right_iff.mpr (List.Forall₂.flip ?_))
      have hfitting := (List.forall₂_and_left _ _).mpr ⟨hrank.fits_items hfits, hitems⟩
      exact hfitting.imp fun item other hboth => ih hboth.1 hboth.2

/-- Alike values show the same. -/
theorem view_eq (hleft : left.Acyclic) (hright : right.Acyclic) {first second : Value}
    (halike : first.Alike pairs second) : left.view first = right.view second := by
  obtain ⟨rank, hrank⟩ := hleft
  exact ((hright.unfolds_iff _ _).mp (hmatched.unfolds hrank (hrank.fits first) halike)).symm

/-! ## Lists inside lists -/

/-- What stands inside a list has its counterpart inside the list on the other side. -/
theorem path_right {inner outer other : Nat} (hpath : Relation.ReflTransGen left.IsItem inner outer)
    (hpair : pairs outer other) :
    ∃ counterpart, pairs inner counterpart ∧
      Relation.ReflTransGen right.IsItem counterpart other := by
  induction hpath generalizing other with
  | refl => exact ⟨other, hpair, .refl⟩
  | @tail middle outer hpath hitem ih =>
    obtain ⟨leftCell, rightCell, hleft, hright, halike⟩ := hmatched.cells hpair
    obtain ⟨index, hitem⟩ := hitem
    rw [itemAt?_of_cell hleft] at hitem
    obtain ⟨value, hvalue, haddress⟩ := Option.bind_eq_some_iff.mp hitem
    have hsame := Value.Alike.getElem? halike.items index
    rw [hvalue] at hsame
    cases hother : rightCell.items[index]? with
    | none =>
      rw [hother] at hsame
      cases hsame
    | some item =>
      rw [hother] at hsame
      cases hsame with
      | some halike =>
        cases halike with
        | atom _ | call _ | procedure _ => cases haddress
        | @list first second hpair hspan =>
          cases haddress
          obtain ⟨counterpart, hcounterpart, hinside⟩ := ih hpair
          refine ⟨counterpart, hcounterpart, hinside.tail ⟨index, ?_⟩⟩
          rw [itemAt?_of_cell hright, hother]
          rfl

theorem swap : right.Matched (fun _ _ => False) (fun first second => pairs second first) left where
  forward := hmatched.backward
  backward := hmatched.forward
  cells hpair := by
    obtain ⟨leftCell, rightCell, hleft, hright, halike⟩ := hmatched.cells hpair
    refine ⟨rightCell, leftCell, hright, hleft, halike.source.symm, List.Forall₂.flip ?_⟩
    exact halike.items.imp fun _ _ => Value.Alike.swap
  kept := False.elim
  free := False.elim

/-- A list is found inside another one if its counterpart is. -/
theorem reaches_eq (hleft : left.Acyclic) (hright : right.Acyclic)
    {first second target other : ListHandle} (hpair : pairs first.address second.address)
    (htarget : pairs target.address other.address) :
    left.reaches first target = right.reaches second other := by
  rw [Bool.eq_iff_iff, hleft.reaches_iff, hright.reaches_iff]
  constructor
  · intro hpath
    obtain ⟨counterpart, hcounterpart, hinside⟩ := hmatched.path_right hpath hpair
    rwa [hmatched.forward htarget hcounterpart]
  · intro hpath
    obtain ⟨counterpart, hcounterpart, hinside⟩ := hmatched.swap.path_right hpath hpair
    rwa [hmatched.backward htarget hcounterpart]

/-! ## Changes -/

/-- More lists on the left make no difference. -/
theorem extend (hextends : left.Extends later) : later.Matched reserve pairs right where
  forward := hmatched.forward
  backward := hmatched.backward
  cells hpair := by
    obtain ⟨leftCell, rightCell, hleft, hright, halike⟩ := hmatched.cells hpair
    exact ⟨leftCell, rightCell, hextends _ _ hleft, hright, halike⟩
  kept hreserve := hextends _ _ (hmatched.kept hreserve)
  free := hmatched.free

/-- A new list on the right gets a counterpart on the left that had none. -/
theorem claim {address : Nat} {leftCell rightCell : Cell}
    (hcell : left.cells[address]? = some leftCell) (hfree : ∀ other, ¬pairs address other)
    (halike : leftCell.Alike pairs rightCell) (hreserve : ∀ cell, ¬reserve address cell)
    (span : Option Span) :
    left.Matched reserve (pairs.add address right.cells.size)
      (right.allocate rightCell span).2 := by
  have hgrows := pairs.grows_add address right.cells.size
  have hextends := right.extends_allocate rightCell span
  constructor
  · rintro first second third (hfirst | ⟨rfl, rfl⟩) (hsecond | ⟨hsame, rfl⟩)
    · exact hmatched.forward hfirst hsecond
    · exact absurd (hsame ▸ hfirst) (hfree _)
    · exact absurd hsecond (hfree _)
    · rfl
  · rintro first second third (hfirst | ⟨rfl, rfl⟩) (hsecond | ⟨rfl, hsame⟩)
    · exact hmatched.backward hfirst hsecond
    · exact absurd (hmatched.lt_right (hsame ▸ hfirst)) (Nat.lt_irrefl _)
    · exact absurd (hmatched.lt_right hsecond) (Nat.lt_irrefl _)
    · rfl
  · rintro first second (hpair | ⟨rfl, rfl⟩)
    · obtain ⟨firstCell, secondCell, hfirst, hsecond, hcells⟩ := hmatched.cells hpair
      exact ⟨firstCell, secondCell, hfirst, hextends _ _ hsecond, hcells.mono hgrows⟩
    · exact ⟨leftCell, rightCell, hcell, Array.getElem?_push_size, halike.mono hgrows⟩
  · exact hmatched.kept
  · rintro other cell third hother (hpair | ⟨rfl, rfl⟩)
    · exact hmatched.free hother hpair
    · exact hreserve cell hother

end

/-- Lists that lie in the left store and belong to none become the counterparts of what is placed in
the right store. -/
theorem placeAll {start stop : Nat} {values : List Value} {data : List Datum}
    (hlaid : left.Laid start values data stop) (hmatched : left.Matched reserve pairs right)
    (hfree : ∀ {first second}, pairs first second → ¬(start ≤ first ∧ first < stop))
    (hreserve : ∀ {address cell}, reserve address cell → ¬(start ≤ address ∧ address < stop)) :
    ∃ more : Matching, pairs.Grows more ∧
      (∀ {first second}, more first second → pairs first second ∨ start ≤ first ∧ first < stop) ∧
      left.Matched reserve more (right.placeAll data).2 ∧
      List.Forall₂ (Value.Alike more) values (right.placeAll data).1 := by
  induction hlaid generalizing pairs right with
  | nil start => exact ⟨pairs, .refl pairs, .inl, hmatched, .nil⟩
  | atom value _ ih =>
    obtain ⟨more, hgrows, hnew, hafter, halike⟩ := ih hmatched hfree hreserve
    exact ⟨more, hgrows, hnew, hafter, .cons (.atom value) halike⟩
  | call site _ ih =>
    obtain ⟨more, hgrows, hnew, hafter, halike⟩ := ih hmatched hfree hreserve
    exact ⟨more, hgrows, hnew, hafter, .cons (.call site) halike⟩
  | procedure definition _ ih =>
    obtain ⟨more, hgrows, hnew, hafter, halike⟩ := ih hmatched hfree hreserve
    exact ⟨more, hgrows, hnew, hafter, .cons (.procedure definition) halike⟩
  | @list start middle stop inside values items data source span hinside hcell hrest
      ihInside ihRest =>
      have hle := hinside.le
      have hend := hrest.le
      obtain ⟨first, hfirst, hfirstNew, hfirstMatched, hfirstAlike⟩ := ihInside hmatched
        (fun hpair hbounds => hfree hpair (by omega))
        (fun hkept hbounds => hreserve hkept (by omega))
      have hunpaired : ∀ other, ¬first middle other := by
        intro other hpair
        obtain hold | hnew := hfirstNew hpair
        · exact hfree hold (by omega)
        · omega
      have hsame : Cell.Alike first ⟨inside, source⟩ ⟨(right.placeAll items).1, source⟩ :=
        ⟨rfl, hfirstAlike⟩
      have hclaimed := hfirstMatched.claim hcell hunpaired hsame
        (fun cell hkept => hreserve hkept (by omega)) span
      obtain ⟨more, hmore, hmoreNew, hmoreMatched, hmoreAlike⟩ := ihRest hclaimed
        (by
          rintro address other (hpair | ⟨rfl, rfl⟩) hbounds
          · obtain hold | hnew := hfirstNew hpair
            · exact hfree hold (by omega)
            · omega
          · omega)
        (fun hkept hbounds => hreserve hkept (by omega))
      rw [Store.placeAll, Store.place]
      have hgrows := (first.grows_add middle _).trans hmore
      refine ⟨more, hfirst.trans hgrows, ?_, hmoreMatched, ?_⟩
      · intro address other hpair
        obtain (hpair | ⟨rfl, rfl⟩) | hnew := hmoreNew hpair
        · exact (hfirstNew hpair).imp_right fun hbounds => by omega
        · exact .inr (by omega)
        · exact .inr (by omega)
      · exact .cons (.list (hmore _ _ (.inr ⟨rfl, rfl⟩)) rfl) hmoreAlike

variable (hmatched : left.Matched reserve pairs right)

include hmatched

/-- The same datum placed in both stores gives lists that belong together. -/
theorem place (datum : Datum) :
    ∃ more : Matching, pairs.Grows more ∧
      (left.place datum).2.Matched reserve more (right.place datum).2 ∧
      (left.place datum).1.Alike more (right.place datum).1 := by
  have hextended := hmatched.extend (left.extends_place datum)
  obtain ⟨more, hgrows, -, hafter, halike⟩ := placeAll (left.laid_place datum) hextended
    (fun hpair hbounds => absurd (hmatched.lt_left hpair) (by omega))
    (fun hkept hbounds => by
      have hbound := (Array.getElem?_eq_some_iff.mp (hmatched.kept hkept)).1
      omega)
  simp only [Store.placeAll] at hafter halike
  cases halike with
  | cons hvalue _ => exact ⟨more, hgrows, hafter, hvalue⟩

theorem build {first second : List Value} (hitems : List.Forall₂ (Value.Alike pairs) first second) :
    ∃ more : Matching, pairs.Grows more ∧
      (left.build first).2.Matched reserve more (right.build second).2 ∧
      (left.build first).1.Alike more (right.build second).1 := by
  have hextended := hmatched.extend (left.extends_allocate ⟨first, none⟩ none)
  have hsame : Cell.Alike pairs ⟨first, none⟩ ⟨second, none⟩ := ⟨rfl, hitems⟩
  refine ⟨_, pairs.grows_add _ _, hextended.claim Array.getElem?_push_size ?_ hsame ?_ none,
    .list (.inr ⟨rfl, rfl⟩) rfl⟩
  · intro other hpair
    exact absurd (hmatched.lt_left hpair) (Nat.lt_irrefl _)
  · intro cell hkept
    have hbound := (Array.getElem?_eq_some_iff.mp (hmatched.kept hkept)).1
    exact Nat.lt_irrefl _ hbound

/-- An item is replaced in lists that belong together. -/
theorem set? {first second : ListHandle} (hpair : pairs first.address second.address)
    {value other : Value} (halike : value.Alike pairs other) (position : Nat) :
    ((left.set? first position value).getD left).Matched reserve pairs
      ((right.set? second position other).getD right) := by
  have hitems := (hmatched.items hpair).1
  have hlength := hitems.length_eq
  rw [Store.set?, Store.set?, hlength]
  split
  · rw [Option.getD_some, Option.getD_some]
    refine ⟨hmatched.forward, hmatched.backward, ?_, ?_, hmatched.free⟩
    · intro address counterpart haddress
      obtain ⟨leftCell, rightCell, hleft, hright, hcells⟩ := hmatched.cells haddress
      rw [Array.getElem?_modify, Array.getElem?_modify, hleft, hright]
      by_cases hsame : first.address = address
      · subst hsame
        have hcounterpart := hmatched.forward hpair haddress
        rw [if_pos rfl, if_pos hcounterpart]
        exact ⟨_, _, rfl, rfl, rfl, Value.Alike.set hcells.items halike position⟩
      · have hcounterpart : second.address ≠ counterpart := by
          rintro rfl
          exact hsame (hmatched.backward hpair haddress)
        rw [if_neg hsame, if_neg hcounterpart]
        exact ⟨leftCell, rightCell, rfl, rfl, hcells⟩
    · intro address cell hkept
      have hother : first.address ≠ address := by
        rintro rfl
        exact hmatched.free hkept hpair
      rw [Array.getElem?_modify, if_neg hother]
      exact hmatched.kept hkept
  · exact hmatched

end Matched

end Store

end Logo
