import Logo.Proofs.Casing
import Logo.Proofs.Operations
import Logo.Proofs.Placing
import Logo.Proofs.Tracking

/-!
# What reading a text can change

A text names the procedures that it may enter: those whose names stand behind the word `to`, and
those to which the word `alias` gives a second name. Reading goes over the text three times and
enters procedures every time, but under no other names, and nothing but the procedure table is
touched. That is so wherever a pass stops, also if it fails. A reading that fails takes back what
its passes have entered.
-/

namespace Logo

/-- A name stands behind the word `to`; the table knows it as `key`. -/
def Defines (tokens : List Token) (key : String) : Prop :=
  ∃ opening name place, [⟨.define, opening⟩, ⟨.symbol name, place⟩] <:+: tokens ∧
    Text.lowercase name = key

/-- The word `alias` and two quoted words stand behind one another; the table knows the second one
as `key`. -/
def NamesAgain (tokens : List Token) (key : String) : Prop :=
  ∃ keyword word name place second last,
    [⟨.symbol keyword, word⟩, ⟨.quote name, place⟩, ⟨.quote second, last⟩] <:+: tokens ∧
      Text.sameLetters keyword "alias" = true ∧ Text.lowercase second = key

/-- The tables differ at most in what they have under the names that the tokens give. -/
def SameUnnamed (tokens : List Token) (before after : Procedures) : Prop :=
  ∀ key, ¬ Defines tokens key → ¬ NamesAgain tokens key →
    after.entries.get? key = before.entries.get? key

/-- No word among the tokens is known to the table as `key`. -/
def isSilentOn (key : String) (tokens : List Token) : Bool :=
  tokens.all fun token =>
    match token.kind with
    | .symbol word | .quote word => Text.lowercase word != key
    | _ => true

namespace SameUnnamed

variable {tokens rest : List Token} {before after final : Procedures}

theorem refl (tokens : List Token) (table : Procedures) : SameUnnamed tokens table table :=
  fun _ _ _ => rfl

theorem define (hsame : SameUnnamed tokens before after) {opening place : Span} {name : String}
    (htokens : (⟨.define, opening⟩ :: ⟨.symbol name, place⟩ :: rest) <:+ tokens)
    (params : List String) (body : List Datum) (text : Option String) :
    SameUnnamed tokens before (after.define (.user name params body text)) := by
  intro key hdefines hagain
  have htriple : [⟨.define, opening⟩, ⟨.symbol name, place⟩] <:+: tokens :=
    (List.prefix_append [_, _] rest).isInfix.trans htokens.isInfix
  have hkey : key ≠ Text.lowercase name := by
    rintro rfl
    exact hdefines ⟨opening, name, place, htriple, rfl⟩
  have hname : Text.lowercase (Procedure.user name params body text).name = Text.lowercase name :=
    Text.lowercase_lowercase name
  rw [Procedures.define, NameTable.get?_insert, hname, if_neg hkey]
  exact hsame key hdefines hagain

/-- A second name changes no other. -/
theorem nameAgain? (hsame : SameUnnamed tokens before after) {token : Token} {name second : String}
    (htokens : (token :: rest) <:+ tokens) (halias : aliasAt? (token :: rest) = some (name, second))
    (hnamed : after.nameAgain? name second = some final) : SameUnnamed tokens before final := by
  intro key hdefines hagain
  obtain ⟨procedure, -, rfl⟩ := Option.map_eq_some_iff.mp hnamed
  have hkey : key ≠ Text.lowercase second := by
    rintro rfl
    apply hagain
    rw [aliasAt?.eq_def] at halias
    split at halias
    · rename_i keyword word other place again last behind hrest
      split at halias
      · rename_i hkeyword
        cases halias
        rw [hrest] at htokens
        exact ⟨keyword, word, name, place, second, last,
          (List.prefix_append [_, _, _] behind).isInfix.trans htokens.isInfix, hkeyword, rfl⟩
      · cases halias
    · cases halias
  rw [NameTable.get?_insert, if_neg hkey]
  exact hsame key hdefines hagain

/-- What is no word of the text keeps its procedure. -/
theorem find?_of_silent (hsame : SameUnnamed tokens before after) {name : String}
    (hsilent : isSilentOn (Text.lowercase name) tokens = true) :
    after.find? name = before.find? name := by
  rw [isSilentOn, List.all_eq_true] at hsilent
  refine hsame _ ?_ ?_
  · rintro ⟨opening, other, place, htokens, hname⟩
    have hword := hsilent ⟨.symbol other, place⟩ (htokens.subset (by simp))
    simp [hname] at hword
  · rintro ⟨keyword, word, other, place, second, last, htokens, -, hsecond⟩
    have hword := hsilent ⟨.quote second, last⟩ (htokens.subset (by simp))
    simp [hsecond] at hword

end SameUnnamed

/-! ## The passes of a reading -/

section Passes

variable {tokens rest : List Token} {before procedures final : Procedures}

theorem keeps_headers (hrest : rest <:+ tokens) :
    Keeps (SameUnnamed tokens before) (Pass.headers rest) := by
  fun_induction Pass.headers rest with
  | case1 => exact .pure ()
  | case2 opening name place after ih =>
    refine .bind (fun procedures hsame => ?_) fun _ => ih ((List.suffix_cons _ _).trans hrest)
    exact hsame.define hrest _ _ _
  | case3 => exact fun _ hsame => hsame
  | case4 token rest _ ih => exact ih ((List.suffix_cons _ _).trans hrest)

theorem keeps_aliases (hrest : rest <:+ tokens) :
    Keeps (SameUnnamed tokens before) (Pass.aliases rest) := by
  fun_induction Pass.aliases rest with
  | case1 => exact .pure ()
  | case2 token rest name second halias ih =>
    intro procedures hsame
    rw [get_bind_apply]
    cases hnamed : procedures.nameAgain? name second with
    | none => exact hsame
    | some named =>
      exact ih ((List.suffix_cons _ _).trans hrest) named (hsame.nameAgain? hrest halias hnamed)
  | case3 token rest hnone ih => exact ih ((List.suffix_cons _ _).trans hrest)

def TokenKind.isItem : TokenKind → Bool
  | .word _ | .leftBracket | .rightBracket => true
  | _ => false

section

variable {source : String} {opening closing : Span} {items : List Datum} {after : Shorter rest}

/-- List text takes only words and brackets, and from the front. -/
theorem exists_used_of_readItems
    (hread : readItems source opening rest = .ok (items, closing, after)) :
    ∃ used, rest = used ++ after.val ∧ ∀ token ∈ used, token.kind.isItem = true := by
  fun_induction readItems source opening rest generalizing items closing with
  | case1 opening text span rest ih =>
    obtain ⟨⟨others, last, behind⟩, hothers, hread⟩ := exists_ok_of_bind hread
    cases hread
    obtain ⟨used, hused, hitems⟩ := ih hothers
    exact ⟨_ :: used, congrArg _ hused, List.forall_mem_cons.mpr ⟨rfl, hitems⟩⟩
  | case2 opening span rest ihInner ih =>
    obtain ⟨⟨inner, innerClosing, middle⟩, hinner, hread⟩ := exists_ok_of_bind hread
    obtain ⟨⟨others, last, behind⟩, hothers, hread⟩ := exists_ok_of_bind hread
    cases hread
    obtain ⟨first, hfirst, hitems⟩ := ihInner hinner
    obtain ⟨second, hsecond, hothers⟩ := ih middle middle.property hothers
    have hrest : rest = first ++ second ++ behind.val := by
      rw [List.append_assoc, ← hsecond]
      exact hfirst
    exact ⟨_ :: (first ++ second), congrArg _ hrest,
      List.forall_mem_cons.mpr ⟨rfl, List.forall_mem_append.mpr ⟨hitems, hothers⟩⟩⟩
  | case3 opening span rest =>
    cases hread
    exact ⟨[_], rfl, by simp [TokenKind.isItem]⟩
  | case4 => cases hread

/-- So what stood next to each other still does. -/
theorem suffix_of_readItems
    (hread : readItems source opening rest = .ok (items, closing, after)) : after.val <:+ rest := by
  obtain ⟨used, hused, -⟩ := exists_used_of_readItems hread
  exact ⟨used, hused.symm⟩

end

theorem tracksLines_suffix (source : String) (tokens : List Token) (before : Procedures) :
    TracksLines source (· <:+ tokens) (fun _ => True) (SameUnnamed tokens before) where
  take hsuffix _ := (List.suffix_cons _ _).trans hsuffix
  list hsuffix hread :=
    ⟨trivial, ((suffix_of_readItems hread).trans (List.suffix_cons _ _)).trans hsuffix⟩
  atom _ := trivial
  call _ _ _ _ := trivial
  define hsuffix _ hsame := hsame.define hsuffix _ _ _
  procedure _ := trivial

/-- Wherever a reading stops, it has entered nothing but what the text names. -/
theorem keeps_program (source : String) (scan : Scan) (before : Procedures) :
    Keeps (SameUnnamed scan.tokens before) (Pass.program source scan) := by
  have hsuffix := List.suffix_refl scan.tokens
  refine .bind (keeps_headers hsuffix) fun _ => .bind (keeps_aliases hsuffix) fun _ => ?_
  exact TracksTable.keeps_lines (tracksLines_suffix source scan.tokens before).table hsuffix

/-- Reading a program changes only what it names. -/
theorem sameUnnamed_readProgram {source : String} {program : List Datum}
    (hread : readProgram before source = .ok (program, final)) :
    ∃ scan, Scan.ofSource source = .ok scan ∧ SameUnnamed scan.tokens before final := by
  obtain ⟨scan, hscan, -⟩ := exists_ok_of_readProgram hread
  rw [readProgram_of_scan hscan] at hread
  have hsame := keeps_program source scan before before (.refl scan.tokens before)
  cases hprogram : Pass.program source scan before with
  | error cause reached =>
    rw [hprogram] at hread
    cases hread
  | ok lines reached =>
    rw [hprogram] at hread hsame
    cases hread
    exact ⟨scan, hscan, hsame⟩

end Passes

namespace Machine

/-- A text whose reading fails leaves the machine as it was. That holds wherever the reading has
failed: by then it may have entered headers, second names and definitions, but no others than the
text names, and all of them are taken back. Reading a text that can be read changes the procedure
table and nothing else, and its program is put in fresh cells of the store; the table has what it
had before under every name that neither stands behind the word `to` in the text nor is a second
name that the text gives. -/
theorem reading_touches_only_names_of_text (machine : Machine) (source : String) :
    (∀ cause after, readProgramList source machine = .error cause after → after = machine) ∧
    (∀ scan cause reached, Scan.ofSource source = .ok scan →
      Pass.program source scan machine.world.environment.procedures = .error cause reached →
      SameUnnamed scan.tokens machine.world.environment.procedures reached ∧
        read source machine = .error (.parse cause) machine ∧
        readProgramList source machine = .error (.read (.parse cause)) machine) ∧
    ∀ value after, readProgramList source machine = .ok value after →
      ∃ program procedures scan,
        read source machine = .ok program (machine.withProcedures procedures) ∧
        (value, after) = (machine.withProcedures procedures).place (.built program) ∧
        machine.world.store.Extends after.world.store ∧
        Scan.ofSource source = .ok scan ∧
        SameUnnamed scan.tokens machine.world.environment.procedures procedures := by
  refine ⟨fun cause after hread => ?_, fun scan cause reached hscan hreached => ?_,
    fun value after hread => ?_⟩
  · obtain ⟨error, -, hcase⟩ | ⟨program, procedures, -, hcase⟩ :=
      readProgramList_cases source machine
    · cases hcase.symm.trans hread
      rfl
    · cases hcase.symm.trans hread
  · have hsame := keeps_program source scan machine.world.environment.procedures _ (.refl _ _)
    have hread : read source machine = .error (.parse cause) machine := by
      rw [read, readSource_apply, readProgram_of_scan hscan, hreached]
      rfl
    rw [hreached] at hsame
    refine ⟨hsame, hread, ?_⟩
    rw [readProgramList, hread]
  · obtain ⟨error, -, hcase⟩ | ⟨program, procedures, hprogram, hcase⟩ :=
      readProgramList_cases source machine
    · cases hcase.symm.trans hread
    · cases hcase.symm.trans hread
      obtain ⟨scan, hscan, hsame⟩ := sameUnnamed_readProgram hprogram
      refine ⟨program, procedures, scan, ?_, rfl,
        Store.extends_place machine.world.store (.built program), hscan, hsame⟩
      rw [read, readSource_apply, hprogram]

def failure? {ε σ α : Type} : EStateM.Result ε σ α → Option (ε × σ)
  | .ok _ _ => none
  | .error cause state => some (cause, state)

/-- A text that enters two headers and a second name before its reading fails, and one that can be
read. -/
theorem failed_reading_is_taken_back :
    let machine :=
      (readProgramList "to foo :a\n  print :a\nend" (.new 4 (.new []) (.new none))).state
    let known := machine.world.environment.procedures
    let faulty := "to foo\n  print 1\nto bar\nend\nalias \"foo \"baz"
    let source := "to SQ :x end alias \"sq \"Square"
    ((known.find? "foo").map (·.header) = some "foo :a" ∧ known.contains "bar" = false ∧
      known.contains "baz" = false) ∧
    (∃ scan cause reached, Scan.ofSource faulty = .ok scan ∧
      Pass.program faulty scan known = .error cause reached ∧
      cause.fault = .nestedDefinition "foo" ∧
      (reached.find? "foo").map (·.header) = some "foo" ∧ reached.contains "bar" = true ∧
      (reached.find? "baz").map (·.header) = some "foo" ∧
      reached.find? "readword" = known.find? "readword" ∧
      readProgramList faulty machine = .error (.read (.parse cause)) machine) ∧
    ∃ value after program procedures, readProgramList source machine = .ok value after ∧
      read source machine = .ok program (machine.withProcedures procedures) ∧
      procedures.find? "readword" = known.find? "readword" := by
  intro machine known faulty source
  have hfacts :
      ((known.find? "foo").map (·.header) = some "foo :a" ∧ known.contains "bar" = false ∧
        known.contains "baz" = false) ∧
      ((Scan.ofSource faulty).toOption.any fun scan =>
        isSilentOn (Text.lowercase "readword") scan.tokens &&
        (failure? (Pass.program faulty scan known)).any fun failure =>
          decide (failure.1.fault = .nestedDefinition "foo" ∧
            (failure.2.find? "foo").map (·.header) = some "foo" ∧
            failure.2.contains "bar" = true ∧
            (failure.2.find? "baz").map (·.header) = some "foo")) = true ∧
      ((Scan.ofSource source).toOption.any fun scan =>
        isSilentOn (Text.lowercase "readword") scan.tokens) = true ∧
      (readProgramList source machine).answer.toBool = true := by
    decide +kernel
  obtain ⟨hknown, hfaulty, hsource, hreads⟩ := hfacts
  have hmachine : machine.world.environment.procedures = known := rfl
  clear_value known machine faulty source
  refine ⟨hknown, ?_, ?_⟩
  · obtain ⟨-, hfails, -⟩ := reading_touches_only_names_of_text machine faulty
    rw [hmachine] at hfails
    cases hscan : Scan.ofSource faulty with
    | error cause =>
      rw [hscan] at hfaulty
      cases hfaulty
    | ok scan =>
      rw [hscan] at hfaulty
      obtain ⟨hsilent, hfaulty⟩ := Bool.and_eq_true_iff.mp hfaulty
      cases hreached : Pass.program faulty scan known with
      | ok program reached =>
        rw [hreached] at hfaulty
        cases hfaulty
      | error cause reached =>
        rw [hreached] at hfaulty
        obtain ⟨hfault, hfoo, hbar, hbaz⟩ := of_decide_eq_true hfaulty
        obtain ⟨hsame, -, hread⟩ := hfails scan cause reached hscan hreached
        exact ⟨scan, cause, reached, rfl, hreached, hfault, hfoo, hbar, hbaz,
          hsame.find?_of_silent hsilent, hread⟩
  · obtain ⟨-, -, hsuccess⟩ := reading_touches_only_names_of_text machine source
    rw [hmachine] at hsuccess
    cases hread : readProgramList source machine with
    | error cause after =>
      rw [hread] at hreads
      cases hreads
    | ok value after =>
      obtain ⟨program, procedures, scan, hprogram, -, -, hscan, hsame⟩ :=
        hsuccess value after hread
      rw [hscan] at hsource
      exact ⟨value, after, program, procedures, rfl, hprogram, hsame.find?_of_silent hsource⟩

end Machine

end Logo
