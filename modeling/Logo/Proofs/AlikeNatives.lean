import Logo.Proofs.Likeness

/-!
# Natives act alike

What a native does with its inputs depends on what they look like and on which of them are the same
list. So a native acts alike on inputs that are alike, whatever that means.
-/

namespace Logo

/-! ## Computing with numbers -/

namespace Arithmetic

theorem comesTo_exact (operation : String) (left right : Int64) (result : Int) :
    ComesTo (fun _ => True) (exact operation left right result) := by
  rw [exact]
  split
  · exact .ok trivial
  · exact .error trivial

theorem comesTo_add (left right : Number) : ComesTo (fun _ => True) (add left right) := by
  fun_cases add left right
  · exact comesTo_exact _ _ _ _
  · exact .ok trivial

theorem comesTo_subtract (left right : Number) :
    ComesTo (fun _ => True) (subtract left right) := by
  fun_cases subtract left right
  · exact comesTo_exact _ _ _ _
  · exact .ok trivial

theorem comesTo_multiply (left right : Number) :
    ComesTo (fun _ => True) (multiply left right) := by
  fun_cases multiply left right
  · exact comesTo_exact _ _ _ _
  · exact .ok trivial

theorem comesTo_divide (left right : Number) : ComesTo (fun _ => True) (divide left right) := by
  fun_cases divide left right
  · exact .error trivial
  · exact comesTo_exact _ _ _ _
  · exact .ok trivial

theorem comesTo_modulo (left right : Int64) : ComesTo (fun _ => True) (modulo left right) := by
  fun_cases modulo left right
  · exact .error trivial
  · exact comesTo_exact _ _ _ _
  · exact .error trivial

theorem comesTo_toInteger (value : Float) (whole? : Option Int) :
    ComesTo (fun _ => True) (toInteger value whole?) := by
  fun_cases toInteger value whole?
  · exact .ok trivial
  · exact .error trivial
  · exact .error trivial

theorem comesTo_integer (number : Number) : ComesTo (fun _ => True) (integer number) := by
  cases number with
  | integer value => exact .ok trivial
  | float value => exact comesTo_toInteger value _

theorem comesTo_round (number : Number) : ComesTo (fun _ => True) (round number) := by
  cases number with
  | integer value => exact .ok trivial
  | float value => exact comesTo_toInteger value _

end Arithmetic

namespace Kinship

variable (same : Kinship)

/-! ## Words and lists -/

theorem comesTo_wordText (datum : Datum) : ComesTo (fun _ => True) (Words.wordText datum) := by
  rw [Words.wordText]
  split
  · exact .ok trivial
  · exact .error trivial

theorem comesTo_join (data : List Datum) : ComesTo (fun _ => True) (Words.join data) := by
  fun_induction Words.join data with
  | case1 => exact .ok trivial
  | case2 data ih => exact ih
  | case3 datum data hnil ih =>
    exact (comesTo_wordText datum).bind fun text _ => ih.bind fun rest _ => .ok trivial

theorem comesTo_sequence {datum : Datum} (hdatum : same.fine datum) :
    ComesTo (fun found => ∀ items, found = .list items → ∀ item ∈ items, same.fine item)
      (Words.sequence datum) := by
  fun_cases Words.sequence datum with
  | case1 items =>
    refine .ok fun others hsame => ?_
    cases hsame
    exact same.fineItem hdatum
  | case2 =>
    refine .ok fun others hsame => ?_
    cases hsame
  | case3 => exact .error trivial
  | case4 => exact .error trivial

theorem comesTo_rearrange [Segmentation] {datum : Datum} (hdatum : same.fine datum)
    {change : ∀ {α : Type}, List α → List α}
    (hchange : ∀ items : List Datum, ∀ item ∈ change items, item ∈ items) :
    ComesTo same.fine (Words.rearrange change datum) := by
  apply (same.comesTo_sequence hdatum).bind
  intro found hfound
  cases found with
  | list items =>
    exact .ok (same.fineBuilt fun item hitem => hfound items rfl item (hchange items item hitem))
  | word value => exact .ok (same.fineAtom _)

theorem comesTo_putFirst {thing target : Datum} (hthing : same.fine thing)
    (htarget : same.fine target) : ComesTo same.fine (Words.putFirst thing target) := by
  apply (same.comesTo_sequence htarget).bind
  intro found hfound
  cases found with
  | list items =>
    exact .ok (same.fineBuilt (List.forall_mem_cons.mpr ⟨hthing, hfound items rfl⟩))
  | word value => exact (comesTo_wordText thing).bind fun _ _ => .ok (same.fineAtom _)

theorem comesTo_putLast {thing target : Datum} (hthing : same.fine thing)
    (htarget : same.fine target) : ComesTo same.fine (Words.putLast thing target) := by
  apply (same.comesTo_sequence htarget).bind
  intro found hfound
  cases found with
  | list items =>
    refine .ok (same.fineBuilt ?_)
    simp only [List.forall_mem_append, List.forall_mem_singleton]
    exact ⟨hfound items rfl, hthing⟩
  | word value => exact (comesTo_wordText thing).bind fun _ _ => .ok (same.fineAtom _)

theorem fine_sentence {data : List Datum} (hdata : ∀ datum ∈ data, same.fine datum) :
    same.fine (Words.sentence data) := by
  refine same.fineBuilt fun item hitem => ?_
  obtain ⟨datum, hdatum, hitem⟩ := List.mem_flatMap.mp hitem
  have hfine := hdata datum hdatum
  cases datum with
  | list items text place => exact same.fineItem hfine item hitem
  | atom _ | call _ | procedure _ =>
    rw [List.mem_singleton.mp hitem]
    exact hfine

mutual

/-- Converted data are made of words and built lists alone, whatever they were before. -/
theorem comesTo_convertCase (convert : String → String) (datum : Datum) :
    ComesTo same.fine (Words.convertCase convert datum) := by
  cases datum with
  | list items source span =>
    rw [Words.convertCase]
    exact (comesTo_convertAll convert items).bind fun _ hconverted =>
      .ok (same.fineBuilt hconverted)
  | call site => exact .error trivial
  | procedure definition => exact .error trivial
  | atom value =>
    cases value with
    | symbol _ | quote _ | number _ | boolean _ => exact .ok (same.fineAtom _)
    | nil | none => exact .error trivial

theorem comesTo_convertAll (convert : String → String) (data : List Datum) :
    ComesTo (∀ item ∈ ·, same.fine item) (Words.convertAll convert data) := by
  cases data with
  | nil => exact .ok (List.forall_mem_nil _)
  | cons datum data =>
    rw [Words.convertAll]
    exact (comesTo_convertCase convert datum).bind fun _ hconverted =>
      (comesTo_convertAll convert data).bind fun _ hothers =>
        .ok (List.forall_mem_cons.mpr ⟨hconverted, hothers⟩)

end

/-! ## Parts of natives and special forms -/

variable {stage : same.Stage} {α β : Type} {good : same.Stage → α → β → Prop}
  {first second third fourth : Value} {inputs others : List Value}

theorem acts_atom (value : Atom) :
    same.Acts stage same.values (pure (.atom value)) (pure (.atom value)) :=
  .pure_value (same.atom value)

section

variable (hvalues : same.values stage first second)

include hvalues

theorem mismatch (expected : List TypeName) :
    same.Acts stage good (World.mismatch expected first) (World.mismatch expected second) := by
  apply Comparison.Acts.get_bind
  intro later hgrows left right hworlds
  rw [(same.view hworlds (same.mono hgrows hvalues)).1]
  exact .throw trivial

theorem number?_eq : first.number? = second.number? := by
  rw [Value.number?, Value.number?, (same.shape hvalues).atom?_eq]

theorem expectNumber :
    same.Acts stage (fun _ => Eq) (World.expectNumber first) (World.expectNumber second) := by
  rw [World.expectNumber, World.expectNumber, same.number?_eq hvalues]
  split
  · exact .pure_eq _
  · exact same.mismatch hvalues _

theorem expectInteger :
    same.Acts stage (fun _ => Eq) (World.expectInteger first) (World.expectInteger second) := by
  rw [World.expectInteger, World.expectInteger, same.number?_eq hvalues]
  split
  · exact .pure_eq _
  · exact same.mismatch hvalues _

theorem expectName :
    same.Acts stage (fun _ => Eq) (World.expectName first) (World.expectName second) := by
  rw [World.expectName, World.expectName, Value.text?, Value.text?,
    (same.shape hvalues).atom?_eq]
  split
  · exact .pure_eq _
  · exact same.mismatch hvalues _

theorem expectBoolean :
    same.Acts stage (fun _ => Eq) (World.expectBoolean first) (World.expectBoolean second) := by
  cases same.shape hvalues with
  | atom value =>
    rw [World.expectBoolean.eq_def]
    split
    · exact .pure_eq _
    · exact same.mismatch hvalues _
  | list _ _ | call _ | procedure _ => exact same.mismatch hvalues _

theorem expectList :
    same.Acts stage (fun later handle other => same.values later (.list handle) (.list other))
      (World.expectList first) (World.expectList second) := by
  cases same.shape hvalues with
  | list _ _ => exact .pure fun _ hgrows => same.mono hgrows hvalues
  | atom _ | call _ | procedure _ => exact same.mismatch hvalues _

theorem rounding {operation : Number → Except RuntimeError Number}
    (hoperation : ∀ number, ComesTo (fun _ => True) (operation number)) :
    same.Acts stage same.values (World.rounding operation first)
      (World.rounding operation second) := by
  apply (same.expectNumber hvalues).bind_eq
  intro later hgrows number
  apply (Comparison.Acts.lift (hoperation number)).bind
  rintro _ _ result _ ⟨rfl, -⟩
  exact same.acts_atom _

theorem rebuilding {operation : Datum → Except RuntimeError Datum}
    (hoperation : ∀ datum, same.fine datum → ComesTo same.fine (operation datum)) :
    same.Acts stage same.values (World.rebuilding operation first)
      (World.rebuilding operation second) := by
  apply Comparison.Acts.get_bind
  intro later hgrows left right hworlds
  obtain ⟨hview, hfine⟩ := same.view hworlds (same.mono hgrows hvalues)
  dsimp only
  rw [hview]
  apply (Comparison.Acts.lift (hoperation _ hfine)).bind
  rintro _ _ result _ ⟨rfl, hresult⟩
  exact same.place hresult

theorem isEmpty :
    same.Acts stage (fun _ => Eq) (World.isEmpty first) (World.isEmpty second) := by
  cases same.shape hvalues with
  | list handle other =>
    apply Comparison.Acts.get_bind
    intro later hgrows left right hworlds
    have hitems := same.items hworlds (same.mono hgrows hvalues)
    generalize left.store.items handle = items at hitems
    generalize right.store.items other = others at hitems
    cases hitems <;> exact .pure_eq _
  | atom value => cases value <;> exact .pure_eq _
  | call _ | procedure _ => exact .pure_eq _

variable [Segmentation]

/-- The same item is selected on both sides. -/
theorem select (position : Nat → Option Nat) (index : Int64) :
    same.Acts stage same.values (World.select first position index)
      (World.select second position index) := by
  cases same.shape hvalues with
  | list handle other =>
    apply Comparison.Acts.get_bind
    intro later hgrows left right hworlds
    have hitems := same.items hworlds (same.mono hgrows hvalues)
    dsimp only
    rw [hitems.length_eq]
    cases position (right.store.items other).length with
    | none => exact .throw trivial
    | some place =>
      rw [Option.bind_some, Option.bind_some]
      obtain ⟨hfirst, hsecond⟩ | ⟨_, _, hfirst, hsecond, hitem⟩ :=
        cases_rel (same.getElem? hitems place)
      · rw [hfirst, hsecond]
        exact .throw trivial
      · rw [hfirst, hsecond]
        exact .pure_value hitem
  | atom value =>
    rw [World.select]
    split
    · dsimp only
      split
      · exact same.acts_atom _
      · exact .throw trivial
    · exact same.mismatch hvalues _
  | call _ | procedure _ => exact same.mismatch hvalues _

theorem count : same.Acts stage same.values (World.count first) (World.count second) := by
  cases same.shape hvalues with
  | list handle other =>
    apply Comparison.Acts.get_bind
    intro later hgrows left right hworlds
    rw [(same.items hworlds (same.mono hgrows hvalues)).length_eq]
    exact same.acts_atom _
  | atom value =>
    rw [World.count]
    split
    · exact same.acts_atom _
    · exact same.mismatch hvalues _
  | call _ | procedure _ => exact same.mismatch hvalues _

end

section

variable (hleft : same.values stage first second) (hright : same.values stage third fourth)

include hleft hright

theorem arithmetic {operation : Number → Number → Except RuntimeError Number}
    (hoperation : ∀ a b, ComesTo (fun _ => True) (operation a b)) :
    same.Acts stage same.values (World.arithmetic operation first third)
      (World.arithmetic operation second fourth) := by
  apply (same.expectNumber hleft).bind_eq
  intro later hgrows a
  apply (same.expectNumber (same.mono hgrows hright)).bind_eq
  intro _ _ b
  apply (Comparison.Acts.lift (hoperation a b)).bind
  rintro _ _ result _ ⟨rfl, -⟩
  exact same.acts_atom _

theorem comparison (test : Ordering → Bool) :
    same.Acts stage same.values (World.comparison test first third)
      (World.comparison test second fourth) := by
  apply (same.expectNumber hleft).bind_eq
  intro later hgrows a
  apply (same.expectNumber (same.mono hgrows hright)).bind_eq
  intro _ _ b
  exact same.acts_atom _

theorem equality :
    same.Acts stage (fun _ => Eq) (World.equality first third) (World.equality second fourth) := by
  apply Comparison.Acts.get_bind
  intro later hgrows left right hworlds
  rw [(same.view hworlds (same.mono hgrows hleft)).1,
    (same.view hworlds (same.mono hgrows hright)).1]
  exact .pure_eq _

theorem rebuilding₂ {operation : Datum → Datum → Except RuntimeError Datum}
    (hoperation : ∀ {thing target}, same.fine thing → same.fine target →
      ComesTo same.fine (operation thing target)) :
    same.Acts stage same.values (World.rebuilding₂ operation first third)
      (World.rebuilding₂ operation second fourth) := by
  apply Comparison.Acts.get_bind
  intro later hgrows left right hworlds
  obtain ⟨hthing, hfine⟩ := same.view hworlds (same.mono hgrows hleft)
  obtain ⟨htarget, hother⟩ := same.view hworlds (same.mono hgrows hright)
  dsimp only
  rw [hthing, htarget]
  apply (Comparison.Acts.lift (hoperation hfine hother)).bind
  rintro _ _ result _ ⟨rfl, hresult⟩
  exact same.place hresult

variable [Segmentation]

theorem isMember :
    same.Acts stage (fun _ => Eq) (World.isMember first third) (World.isMember second fourth) := by
  apply Comparison.Acts.get_bind
  intro later hgrows left right hworlds
  obtain ⟨htarget, hfine⟩ := same.view hworlds (same.mono hgrows hright)
  dsimp only
  rw [(same.view hworlds (same.mono hgrows hleft)).1, htarget]
  apply (Comparison.Acts.lift (same.comesTo_sequence hfine)).bind
  rintro _ _ found _ ⟨rfl, -⟩
  cases found with
  | list items => exact .pure_eq _
  | word value =>
    apply (Comparison.Acts.lift (comesTo_wordText _)).bind
    rintro _ _ text _ ⟨rfl, -⟩
    exact .pure_eq _

end

/-- The part of `setItem` in which the item is replaced. -/
theorem replaceAt {handle other : ListHandle} (hhandle : same.values stage (.list handle) (.list other))
    (hvalue : same.values stage first second) (index : Int64) (length : Nat) :
    same.Acts stage same.values
      (match World.position? index with
        | some position =>
          if position < length then World.replaceItem handle position first
          else throw (.outOfRange index length)
        | none => throw (.outOfRange index length))
      (match World.position? index with
        | some position =>
          if position < length then World.replaceItem other position second
          else throw (.outOfRange index length)
        | none => throw (.outOfRange index length)) := by
  split
  · split
    · exact same.replace _ hhandle hvalue
    · exact .throw trivial
  · exact .throw trivial

/-- The same item is replaced on both sides. -/
theorem setItem (hindex : same.values stage first second) {target counterpart : Value}
    (htarget : same.values stage target counterpart) (hvalue : same.values stage third fourth) :
    same.Acts stage same.values (World.setItem first target third)
      (World.setItem second counterpart fourth) := by
  rw [World.setItem, World.setItem]
  apply (same.expectInteger hindex).bind_eq
  intro middle hmiddle index
  apply (same.expectList (same.mono hmiddle htarget)).bind
  intro later hlater handle other hhandle
  apply Comparison.Acts.get_bind
  intro final hfinal left right hworlds
  have hhandle := same.mono hfinal hhandle
  have hvalue := same.mono (same.trans (same.trans hmiddle hlater) hfinal) hvalue
  have hreplace := same.replaceAt hhandle hvalue index (right.store.items other).length
  dsimp only
  rw [(same.items hworlds hhandle).length_eq]
  cases same.shape hvalue with
  | list inner outer =>
    dsimp only
    rw [same.reaches hworlds hvalue hhandle]
    split
    · have hcause : RuntimeError.OfPrimitive .circularList := trivial
      exact (Comparison.Acts.throw hcause).bind fun _ _ _ _ => False.elim
    · exact hreplace
  | atom _ | call _ | procedure _ => exact hreplace

/-! ## The console and the turtle -/

theorem writeAll (form : Datum → String) (close : String)
    (hinputs : List.Forall₂ (same.values stage) inputs others) :
    same.Acts stage same.values (World.writeAll form close inputs)
      (World.writeAll form close others) := by
  refine (Comparison.Acts.modify ?_).bind fun _ _ _ _ _ => same.acts_atom .none
  intro later hgrows left right hworlds
  have hviews := congrArg (List.map form) (same.map_view hworlds (same.all_mono hgrows hinputs)).1
  rw [List.map_map, List.map_map] at hviews
  have htexts : inputs.map (fun value => form (left.view value)) =
      others.map fun value => form (right.view value) := hviews
  dsimp only
  rw [(same.devices hworlds).1, htexts]
  exact same.setConsole _ hworlds

theorem nextLine : same.Acts stage (fun _ => Eq) World.nextLine World.nextLine := by
  intro later hgrows left right hworlds
  have hread := congrArg Console.readLine (same.devices hworlds).1
  have hconsole : same.worlds later { left with console := left.console.readLine.2 }
      { right with console := right.console.readLine.2 } := by
    rw [hread]
    exact same.setConsole _ hworlds
  exact .ok (same.refl later) hconsole (congrArg (fun read => read.1.getD "") hread)

theorem moveTurtle (move : Turtle → Turtle) :
    same.Acts stage same.values (World.moveTurtle move) (World.moveTurtle move) := by
  refine Comparison.Acts.bind (Comparison.Acts.modify ?_) ?_
  · intro later hgrows left right hworlds
    rw [(same.devices hworlds).2.1]
    exact same.setTurtle _ hworlds
  · intro later hlater _ _ _
    apply Comparison.Acts.get_bind
    intro final hfinal left right hworlds
    rw [(same.devices hworlds).2.1]
    exact same.buildAtoms [.number (.integer _), .number (.integer _)]

theorem moveBy (move : Turtle → Float → Turtle) (hvalues : same.values stage first second) :
    same.Acts stage same.values (World.moveBy move first) (World.moveBy move second) :=
  (same.expectNumber hvalues).bind_eq fun _ _ _ => same.moveTurtle _

variable [Segmentation]

theorem freshSymbol (inputs others : List Value) :
    same.Acts stage same.values (World.runNative .freshSymbol inputs)
      (World.runNative .freshSymbol others) := by
  intro later hgrows left right hworlds
  have hsymbols := (same.devices hworlds).2.2
  refine .ok (same.refl later) ?_ ?_
  · rw [hsymbols]
    exact same.setSymbols _ hworlds
  · rw [hsymbols]
    exact same.atom _

/-! ## All natives -/

theorem runNative {action : Native} (hother : action ≠ .nameAgain)
    (hinputs : List.Forall₂ (same.values stage) inputs others) :
    same.Acts stage same.values (World.runNative action inputs)
      (World.runNative action others) := by
  have hfirst := same.getD hinputs 0
  have hsecond := same.getD hinputs 1
  have hthird := same.getD hinputs 2
  rw [World.runNative.eq_def, World.runNative.eq_def]
  cases action with
  | nameAgain => exact absurd rfl hother
  | freshSymbol => exact same.freshSymbol inputs others
  | add => exact same.arithmetic hfirst hsecond Arithmetic.comesTo_add
  | subtract => exact same.arithmetic hfirst hsecond Arithmetic.comesTo_subtract
  | multiply => exact same.arithmetic hfirst hsecond Arithmetic.comesTo_multiply
  | divide => exact same.arithmetic hfirst hsecond Arithmetic.comesTo_divide
  | modulo =>
    apply (same.expectInteger hfirst).bind_eq
    intro later hgrows a
    apply (same.expectInteger (same.mono hgrows hsecond)).bind_eq
    intro _ _ b
    apply (Comparison.Acts.lift (Arithmetic.comesTo_modulo a b)).bind
    rintro _ _ value _ ⟨rfl, -⟩
    exact same.acts_atom _
  | integer => exact same.rounding hfirst Arithmetic.comesTo_integer
  | round => exact same.rounding hfirst Arithmetic.comesTo_round
  | equal | notEqual =>
    exact (same.equality hfirst hsecond).bind_eq fun _ _ _ => same.acts_atom _
  | less | greater | lessEqual | greaterEqual => exact same.comparison hfirst hsecond _
  | and =>
    apply (same.expectBoolean hfirst).bind_eq
    intro later hgrows truth
    cases truth with
    | true =>
      exact (same.expectBoolean (same.mono hgrows hsecond)).bind_eq fun _ _ _ =>
        same.acts_atom _
    | false => exact same.acts_atom _
  | or =>
    apply (same.expectBoolean hfirst).bind_eq
    intro later hgrows truth
    cases truth with
    | true => exact same.acts_atom _
    | false =>
      exact (same.expectBoolean (same.mono hgrows hsecond)).bind_eq fun _ _ _ =>
        same.acts_atom _
  | not => exact (same.expectBoolean hfirst).bind_eq fun _ _ _ => same.acts_atom _
  | first | last => exact same.select hfirst _ _
  | item =>
    apply (same.expectInteger hfirst).bind_eq
    intro later hgrows index
    exact same.select (same.mono hgrows hsecond) _ _
  | setItem => exact same.setItem hfirst hsecond hthird
  | butFirst =>
    exact same.rebuilding hfirst fun _ hdatum =>
      same.comesTo_rearrange hdatum fun _ _ => List.mem_of_mem_tail
  | butLast =>
    exact same.rebuilding hfirst fun _ hdatum =>
      same.comesTo_rearrange hdatum fun _ _ => (List.dropLast_sublist _).mem
  | reverse =>
    exact same.rebuilding hfirst fun _ hdatum =>
      same.comesTo_rearrange hdatum fun _ _ => List.mem_reverse.mp
  | lowercase | uppercase =>
    exact same.rebuilding hfirst fun datum _ => same.comesTo_convertCase _ datum
  | putFirst => exact same.rebuilding₂ hfirst hsecond same.comesTo_putFirst
  | putLast => exact same.rebuilding₂ hfirst hsecond same.comesTo_putLast
  | joinWord =>
    apply Comparison.Acts.get_bind
    intro later hgrows left right hworlds
    rw [(same.map_view hworlds (same.all_mono hgrows hinputs)).1]
    apply (Comparison.Acts.lift (comesTo_join _)).bind
    rintro _ _ text _ ⟨rfl, -⟩
    exact same.acts_atom _
  | makeList =>
    apply Comparison.Acts.get_bind
    intro later hgrows left right hworlds
    obtain ⟨hviews, hfine⟩ := same.map_view hworlds (same.all_mono hgrows hinputs)
    rw [hviews]
    exact same.place (same.fineBuilt hfine)
  | sentence =>
    apply Comparison.Acts.get_bind
    intro later hgrows left right hworlds
    obtain ⟨hviews, hfine⟩ := same.map_view hworlds (same.all_mono hgrows hinputs)
    rw [hviews]
    exact same.place (same.fine_sentence hfine)
  | count => exact same.count hfirst
  | isEmpty => exact (same.isEmpty hfirst).bind_eq fun _ _ _ => same.acts_atom _
  | isWord | isNumber | isList =>
    have hshape := same.shape hfirst
    dsimp only
    generalize inputs.getD 0 .nil = value at hshape
    generalize others.getD 0 .nil = other at hshape
    cases hshape <;> exact same.acts_atom _
  | isMember => exact (same.isMember hfirst hsecond).bind_eq fun _ _ _ => same.acts_atom _
  | print | display | write => exact same.writeAll _ _ hinputs
  | readWord => exact same.nextLine.bind_eq fun _ _ _ => same.acts_atom _
  | readList =>
    apply same.nextLine.bind_eq
    intro later hgrows line
    split
    · rename_i list hread
      exact same.place (same.fineRead hread)
    · exact .throw trivial
  | forward | back | right | left => exact same.moveBy _ hfirst
  | position | home | clearScreen => exact same.moveTurtle _

end Kinship

namespace Likeness

variable (same : Likeness) {stage : same.Stage} {inputs others : List Value} [Segmentation]

theorem nameAgain_alike (hinputs : List.Forall₂ (same.values stage) inputs others) :
    same.Acts stage same.values (World.runNative .nameAgain inputs)
      (World.runNative .nameAgain others) := by
  rw [World.runNative, World.runNative]
  apply (same.expectName (same.getD hinputs 0)).bind_eq
  intro middle hmiddle name
  apply (same.expectName (same.mono hmiddle (same.getD hinputs 1))).bind_eq
  intro later hlater again
  apply Comparison.Acts.get_bind_at
  intro final hfinal left right hworlds
  rw [same.procedures hworlds]
  cases hagain : right.environment.procedures.nameAgain? name again with
  | some procedures =>
    exact .ok (same.refl final) (same.nameAgain hworlds hagain) (same.atom .none)
  | none => exact .error trivial (same.refl final) hworlds

/-- Natives do the same with inputs that are alike. -/
theorem runNative (action : Native) (hinputs : List.Forall₂ (same.values stage) inputs others) :
    same.Acts stage same.values (World.runNative action inputs)
      (World.runNative action others) := by
  by_cases hagain : action = .nameAgain
  · rw [hagain]
    exact same.nameAgain_alike hinputs
  · exact same.toKinship.runNative hagain hinputs

end Likeness

end Logo
