import Logo.Primitive.Table
import Logo.Proofs.Casing
import Logo.Proofs.Parallel
import Logo.Proofs.Reading

/-!
# Second names

A text is read in three passes over its tokens. The first enters every header with an empty body,
the second gives the second names, and the third enters the definitions under their own names. So a
second name keeps what the table had after the first pass: the procedure itself if the text does not
define it, and only its header if it does.
-/

namespace Logo

/-! ## What reading passes -/

/-- Between the two places there are tokens none of which begins or ends a definition. -/
def Passes (tokens rest : List Token) : Prop :=
  ∃ used, tokens = used ++ rest ∧ ∀ token ∈ used, token.kind ≠ .define ∧ token.kind ≠ .close

namespace Passes

variable {tokens middle rest : List Token}

theorem refl (tokens : List Token) : Passes tokens tokens :=
  ⟨[], rfl, by simp⟩

theorem cons {token : Token} (hdefine : token.kind ≠ .define) (hclose : token.kind ≠ .close)
    (hpasses : Passes tokens rest) : Passes (token :: tokens) rest := by
  obtain ⟨used, rfl, hused⟩ := hpasses
  exact ⟨token :: used, rfl, List.forall_mem_cons.mpr ⟨⟨hdefine, hclose⟩, hused⟩⟩

theorem trans (hfirst : Passes tokens middle) (hsecond : Passes middle rest) :
    Passes tokens rest := by
  obtain ⟨used, rfl, hused⟩ := hfirst
  obtain ⟨more, rfl, hmore⟩ := hsecond
  exact ⟨used ++ more, by simp, List.forall_mem_append.mpr ⟨hused, hmore⟩⟩

end Passes

variable {tokens : List Token} {reading : Reading} {procedures final : Procedures}

variable {source : String} {opening closing : Span}

theorem passes_readItems {items : List Datum} {after : Shorter tokens}
    (hread : readItems source opening tokens = .ok (items, closing, after)) :
    Passes tokens after := by
  obtain ⟨used, hused, hitems⟩ := exists_used_of_readItems hread
  refine ⟨used, hused, fun token hmem => ?_⟩
  have hitem := hitems token hmem
  constructor <;> rintro hkind <;> rw [hkind] at hitem <;> cases hitem

def Datum.definition? : Datum → Option Procedure
  | .procedure definition => some definition
  | _ => Option.none

/-- Reading an expression or a body passes neither the beginning nor the end of a definition, and
gives no definition. -/
theorem pairs_passes (source : String) (all : List Token) :
    Pairs source source (fun tokens others => tokens = others ∧ Passes all tokens)
      (fun line _ => line.definition? = Option.none) where
  kinds hpaired := by rw [hpaired.1]
  take hpaired hkind := by
    obtain ⟨htokens, hpasses⟩ := hpaired
    cases htokens
    obtain ⟨-, hdefine, hclose⟩ := TokenKind.isSimple_iff.mp hkind
    exact ⟨rfl, hpasses.trans ((Passes.refl _).cons hdefine hclose)⟩
  list hpaired := by
    obtain ⟨htokens, hpasses⟩ := hpaired
    cases htokens
    apply Agree.refl
    rintro ⟨items, closing, after⟩ hread
    exact ⟨rfl, rfl, hpasses.trans ((passes_readItems hread).cons (by simp) (by simp))⟩
  atom _ := rfl
  call _ _ _ _ := rfl

theorem passes_skipNewlines (tokens : List Token) : Passes tokens (skipNewlines tokens) :=
  ((pairs_passes "" tokens).skipNewlines ⟨rfl, .refl tokens⟩).2

theorem passes_takeParams (tokens : List Token) : Passes tokens (takeParams tokens).2 :=
  ((pairs_passes "" tokens).takeParams tokens tokens ⟨rfl, .refl tokens⟩).2.2

theorem passes_readExpression {line : Datum} {rest : Shorter tokens}
    (hread : readExpression reading tokens = .ok (line, rest)) :
    Passes tokens rest ∧ line.definition? = Option.none := by
  have hagree := (pairs_passes reading.source tokens).calls.readExpression (fun name => rfl)
    ⟨rfl, .refl tokens⟩
  obtain ⟨hline, -, hpasses⟩ := hagree.agree.of_eq_ok hread
  exact ⟨hpasses, hline⟩

variable {name : String}

/-- A body ends with the first word `end` behind its header. -/
theorem passes_readBody {body : List Datum} {rest : Shorter tokens}
    (hread : readBody reading name opening tokens = .ok (body, closing, rest)) :
    Passes tokens (⟨.close, closing⟩ :: rest) := by
  have hagree := (pairs_passes reading.source tokens).calls.readBody (fun name => rfl) opening
    opening trivial name tokens tokens ⟨rfl, .refl tokens⟩
  exact (hagree.agree.of_eq_ok hread).2.2

variable {definition : Procedure}

/-- What a definition is made of. -/
theorem exists_parts_of_readDefinition {rest : Shorter tokens}
    (hread : readDefinition reading opening tokens = .ok (definition, rest)) :
    ∃ name place after body closing, tokens = ⟨.symbol name, place⟩ :: after ∧
      Passes after (⟨.close, closing⟩ :: rest) ∧
      definition = .user name (takeParams after).1 body
        (some (sliceBytes reading.source opening.start closing.stop)) := by
  rw [readDefinition.eq_def] at hread
  split at hread
  · rename_i name place after
    obtain ⟨⟨body, closing, final⟩, hbody, hread⟩ := exists_ok_of_bind hread
    cases hread
    have hpasses := (passes_takeParams after).trans (passes_readBody hbody)
    exact ⟨name, place, after, body, closing, rfl, hpasses, rfl⟩
  · cases hread

/-! ## Headers and definitions -/

def headers : List Token → List (String × List String)
  | ⟨.define, _⟩ :: ⟨.symbol name, _⟩ :: rest => (name, (takeParams rest).1) :: headers rest
  | _ :: rest => headers rest
  | [] => []

theorem headers_cons {token : Token} (hkind : token.kind ≠ .define) (rest : List Token) :
    headers (token :: rest) = headers rest := by
  obtain ⟨kind, span⟩ := token
  rw [headers.eq_def]
  split
  · rename_i heq
    cases heq
    exact absurd rfl hkind
  · rename_i heq
    cases heq
    rfl
  · rename_i heq
    cases heq

def headerOnly (header : String × List String) : Procedure :=
  .user header.1 header.2 [] none

/-- The first pass enters the headers one after the other. -/
theorem eq_foldl_of_enterHeaders (henter : enterHeaders procedures tokens = .ok final) :
    final = ((headers tokens).map headerOnly).foldl Procedures.define procedures := by
  fun_induction enterHeaders procedures tokens with
  | case1 =>
    cases henter
    rfl
  | case2 procedures span name place after ih =>
    rw [ih henter, headers_cons (by simp), headers]
    rfl
  | case3 => cases henter
  | case4 procedures token rest hdefine ih =>
    have hkind : token.kind ≠ .define := by
      intro hkind
      obtain ⟨kind, span⟩ := token
      subst hkind
      exact hdefine _ rfl
    rw [ih henter, headers_cons hkind]

theorem Passes.headers_eq {tokens rest : List Token} (hpasses : Passes tokens rest) :
    headers tokens = headers rest := by
  obtain ⟨used, rfl, hused⟩ := hpasses
  induction used with
  | nil => rfl
  | cons token used ih =>
    obtain ⟨hfirst, hothers⟩ := List.forall_mem_cons.mp hused
    rw [List.cons_append, headers_cons hfirst.1, ih hothers]

/-- The procedure has this header, and it has been read with its text. -/
def Completes (header : String × List String) (definition : Procedure) : Prop :=
  ∃ body text, definition = .user header.1 header.2 body (some text)

theorem completes_of_readDefinition {span : Span} {rest : Shorter tokens}
    (hread : readDefinition reading opening tokens = .ok (definition, rest)) :
    ∃ header, headers (⟨.define, span⟩ :: tokens) = header :: headers rest.val ∧
      Completes header definition := by
  obtain ⟨name, place, after, body, closing, rfl, hpasses, rfl⟩ :=
    exists_parts_of_readDefinition hread
  refine ⟨(name, (takeParams after).1), ?_, body, _, rfl⟩
  rw [headers, hpasses.headers_eq, headers_cons (by simp)]

/-- The third pass enters one definition for every header, and these are the definitions among the
lines. -/
theorem definitions_of_readLines {finish : Span} {procedures final : Procedures}
    {tokens : List Token} {lines : List Datum}
    (hread : readLines source finish procedures tokens = .ok (lines, final)) :
    List.Forall₂ Completes (headers tokens) (lines.filterMap Datum.definition?) ∧
      final = (lines.filterMap Datum.definition?).foldl Procedures.define procedures := by
  fun_induction readLines source finish procedures tokens generalizing lines with
  | case1 procedures tokens hnext =>
    cases hread
    rw [(passes_skipNewlines tokens).headers_eq, hnext]
    exact ⟨.nil, rfl⟩
  | case2 procedures tokens opening inside hnext hinside ih =>
    obtain ⟨⟨procedure, rest, hrest⟩, hdefinition, hread⟩ := exists_ok_of_bind hread
    obtain ⟨⟨others, table⟩, hlines, hread⟩ := exists_ok_of_bind hread
    cases hread
    obtain ⟨header, hheaders, hcompletes⟩ :=
      @completes_of_readDefinition _ _ opening _ _ _ hdefinition
    obtain ⟨hdefinitions, htable⟩ := ih procedure rest hrest hlines
    rw [(passes_skipNewlines tokens).headers_eq, hnext, hheaders]
    exact ⟨.cons hcompletes hdefinitions, htable⟩
  | case3 procedures tokens next others hdefine hnext ih =>
    obtain ⟨⟨line, rest, hrest⟩, hline, hread⟩ := exists_ok_of_bind hread
    obtain ⟨⟨lines, table⟩, hlines, hread⟩ := exists_ok_of_bind hread
    cases hread
    obtain ⟨hpasses, hnone⟩ := passes_readExpression hline
    rw [(passes_skipNewlines tokens).headers_eq, hnext, hpasses.headers_eq,
      List.filterMap_cons_none hnone]
    exact ih rest hrest hlines

/-! ## What is found under a name -/

/-- The last definition under a name is found, where the other table has its header; a name without
a header stands for what it stood for. -/
theorem find?_definitions {found : List (String × List String)} {definitions : List Procedure}
    (hcompletes : List.Forall₂ Completes found definitions) (first second : Procedures)
    (name : String) :
    let headed := (found.map headerOnly).foldl Procedures.define first
    let final := definitions.foldl Procedures.define second
    ((∃ header ∈ found, Text.lowercase header.1 = Text.lowercase name) →
      ∃ header definition, Completes header definition ∧
        headed.find? name = some (headerOnly header) ∧ final.find? name = some definition) ∧
    ((∀ header ∈ found, Text.lowercase header.1 ≠ Text.lowercase name) →
      headed.find? name = first.find? name ∧ final.find? name = second.find? name) := by
  induction hcompletes generalizing first second with
  | nil => simp
  | @cons header definition found definitions hhead hrest ih =>
    obtain ⟨hdefined, hundefined⟩ :=
      ih (first.define (headerOnly header)) (second.define definition)
    have hheader : Text.lowercase (headerOnly header).name = Text.lowercase header.1 :=
      Text.lowercase_lowercase header.1
    have hdefinition : Text.lowercase definition.name = Text.lowercase header.1 := by
      obtain ⟨body, text, rfl⟩ := hhead
      exact Text.lowercase_lowercase header.1
    simp only [Procedures.find?_define, hheader, hdefinition] at hundefined
    constructor
    · rintro ⟨other, hother, hname⟩
      by_cases hlater : ∃ later ∈ found, Text.lowercase later.1 = Text.lowercase name
      · exact hdefined hlater
      · have hsame : other = header := by
          cases List.mem_cons.mp hother with
          | inl hsame => exact hsame
          | inr hmem => exact absurd ⟨other, hmem, hname⟩ hlater
        subst hsame
        obtain ⟨hheaded, hfinal⟩ := hundefined fun later hmem heq => hlater ⟨later, hmem, heq⟩
        rw [if_pos hname.symm] at hheaded hfinal
        exact ⟨other, definition, hhead, hheaded, hfinal⟩
    · intro hnone
      obtain ⟨hfirst, hothers⟩ := List.forall_mem_cons.mp hnone
      obtain ⟨hheaded, hfinal⟩ := hundefined hothers
      rw [if_neg (Ne.symm hfirst)] at hheaded hfinal
      exact ⟨hheaded, hfinal⟩

/-! ## Second names -/

def aliases : List Token → List (String × String)
  | [] => []
  | token :: rest => (aliasAt? (token :: rest)).toList ++ aliases rest

def nameAll? (procedures : Procedures) : List (String × String) → Option Procedures
  | [] => some procedures
  | (name, second) :: others =>
    (procedures.nameAgain? name second).bind fun procedures => nameAll? procedures others

theorem nameAll?_of_enterAliases (henter : enterAliases procedures tokens = .ok final) :
    nameAll? procedures (aliases tokens) = some final := by
  fun_induction enterAliases procedures tokens with
  | case1 =>
    cases henter
    rfl
  | case2 procedures token rest name second halias named hnamed ih =>
    rw [aliases, halias, Option.toList_some, List.singleton_append, nameAll?, hnamed]
    exact ih henter
  | case3 => cases henter
  | case4 procedures token rest hnone ih =>
    rw [aliases, hnone]
    exact ih henter

theorem find?_nameAgain? {second : String} (hagain : procedures.nameAgain? name second = some final)
    (other : String) :
    final.find? other =
      if Text.lowercase other = Text.lowercase second then procedures.find? name
      else procedures.find? other := by
  obtain ⟨procedure, hfind, rfl⟩ := Option.map_eq_some_iff.mp hagain
  rw [Procedures.find?, NameTable.get?_insert, hfind]
  rfl

section NameAll

variable {procedures final : Procedures} {given : List (String × String)}

theorem find?_nameAll?_of_ne (hnamed : nameAll? procedures given = some final) {other : String}
    (hother : ∀ pair ∈ given, Text.lowercase pair.2 ≠ Text.lowercase other) :
    final.find? other = procedures.find? other := by
  induction given generalizing procedures with
  | nil =>
    cases hnamed
    rfl
  | cons pair given ih =>
    obtain ⟨middle, hmiddle, hnamed⟩ := Option.bind_eq_some_iff.mp hnamed
    obtain ⟨hfirst, hothers⟩ := List.forall_mem_cons.mp hother
    rw [ih hnamed hothers, find?_nameAgain? hmiddle, if_neg (Ne.symm hfirst)]

/-- A second name that is given to one procedure only, under a name that is no second name itself,
stands for what was found under that name before. -/
theorem find?_nameAll? (hnamed : nameAll? procedures given = some final) {name second : String}
    (hpair : ∃ pair ∈ given, Text.lowercase pair.2 = Text.lowercase second)
    (honly : ∀ pair ∈ given, Text.lowercase pair.2 = Text.lowercase second →
      Text.lowercase pair.1 = Text.lowercase name)
    (hname : ∀ pair ∈ given, Text.lowercase pair.2 ≠ Text.lowercase name) :
    ∃ procedure, procedures.find? name = some procedure ∧ final.find? second = some procedure := by
  induction given generalizing procedures with
  | nil =>
    obtain ⟨pair, hmem, _⟩ := hpair
    cases hmem
  | cons pair given ih =>
    obtain ⟨middle, hmiddle, hnamed⟩ := Option.bind_eq_some_iff.mp hnamed
    obtain ⟨hpairName, hothers⟩ := List.forall_mem_cons.mp hname
    obtain ⟨honlyPair, honlyOthers⟩ := List.forall_mem_cons.mp honly
    by_cases hlater : ∃ later ∈ given, Text.lowercase later.2 = Text.lowercase second
    · obtain ⟨procedure, hfind, hfinal⟩ := ih hnamed hlater honlyOthers hothers
      rw [find?_nameAgain? hmiddle, if_neg (Ne.symm hpairName)] at hfind
      exact ⟨procedure, hfind, hfinal⟩
    · -- This pair is the last that gives the name.
      have hsecond : Text.lowercase pair.2 = Text.lowercase second := by
        obtain ⟨other, hmem, hother⟩ := hpair
        cases List.mem_cons.mp hmem with
        | inl hsame => exact hsame ▸ hother
        | inr hmem => exact absurd ⟨other, hmem, hother⟩ hlater
      obtain ⟨procedure, hfind, -⟩ := Option.map_eq_some_iff.mp hmiddle
      rw [find?_nameAll?_of_ne hnamed fun later hmem heq => hlater ⟨later, hmem, heq⟩,
        find?_nameAgain? hmiddle, if_pos hsecond.symm]
      rw [Procedures.find?, honlyPair hsecond] at hfind
      refine ⟨procedure, hfind, ?_⟩
      rw [Procedures.find?, honlyPair hsecond, hfind]

end NameAll

/-- A second name that a text gives stands for the same procedure as the first name, unless the text
itself defines that procedure. Then the first name has the procedure that was read, and the second
one a procedure with the same name and inputs that has no body and no text. -/
theorem second_name_has_header_of_text {procedures final : Procedures} {source : String}
    {program : List Datum} {scan : Scan} {name second : String}
    (hread : readProgram procedures source = .ok (program, final))
    (hscan : Scan.ofSource source = .ok scan) (hpair : (name, second) ∈ aliases scan.tokens)
    (hsecond : ∀ header ∈ headers scan.tokens, Text.lowercase header.1 ≠ Text.lowercase second)
    (honly : ∀ pair ∈ aliases scan.tokens, Text.lowercase pair.2 = Text.lowercase second →
      Text.lowercase pair.1 = Text.lowercase name)
    (hname : ∀ pair ∈ aliases scan.tokens, Text.lowercase pair.2 ≠ Text.lowercase name) :
    ∃ procedure, final.find? name = some procedure ∧
      ((∀ header ∈ headers scan.tokens, Text.lowercase header.1 ≠ Text.lowercase name) →
        procedures.find? name = some procedure ∧ final.find? second = some procedure) ∧
      ((∃ header ∈ headers scan.tokens, Text.lowercase header.1 = Text.lowercase name) →
        procedure.isUserDefined = true ∧ procedure.source.isSome = true ∧
          final.find? second = some { procedure with body := [], source := none }) := by
  obtain ⟨_, headed, named, hother, hheaded, hnamed, hlines⟩ := exists_passes_of_readProgram hread
  cases hscan.symm.trans hother
  obtain rfl := eq_foldl_of_enterHeaders hheaded
  have hgiven := nameAll?_of_enterAliases hnamed
  obtain ⟨hdefinitions, rfl⟩ := definitions_of_readLines hlines
  obtain ⟨found, hfound, hagain⟩ := find?_nameAll? hgiven ⟨_, hpair, rfl⟩ honly hname
  have hkept := find?_nameAll?_of_ne hgiven hname
  obtain ⟨hdefined, hundefined⟩ := find?_definitions hdefinitions procedures named name
  have hfinal := ((find?_definitions hdefinitions procedures named second).2 hsecond).2
  rw [hagain] at hfinal
  by_cases hheader : ∃ header ∈ headers scan.tokens, Text.lowercase header.1 = Text.lowercase name
  · obtain ⟨header, definition, ⟨body, text, rfl⟩, hheaded, hdefinition⟩ := hdefined hheader
    cases hfound.symm.trans hheaded
    obtain ⟨header', hmem, hname'⟩ := hheader
    exact ⟨_, hdefinition, fun hnone => absurd hname' (hnone header' hmem),
      fun _ => ⟨rfl, rfl, hfinal⟩⟩
  · have hnone : ∀ header ∈ headers scan.tokens, Text.lowercase header.1 ≠ Text.lowercase name :=
      fun header hmem heq => hheader ⟨header, hmem, heq⟩
    obtain ⟨hheaded, hkeptFinal⟩ := hundefined hnone
    rw [hkept, hfound] at hkeptFinal
    rw [hfound] at hheaded
    exact ⟨found, hkeptFinal, fun _ => ⟨hheaded.symm, hfinal⟩, fun hsome => absurd hsome hheader⟩

def definedAndNamedAgain : String :=
  "to f\noutput 5\nend\nalias \"f \"g"

theorem names_of_definedAndNamedAgain :
    ((Scan.ofSource definedAndNamedAgain).toOption.map fun scan =>
      (headers scan.tokens, aliases scan.tokens)) = some ([("f", [])], [("f", "g")]) := by
  decide +kernel

theorem bodies_of_definedAndNamedAgain :
    ((readProgram .standard definedAndNamedAgain).toOption.map fun result =>
      ((result.2.find? "f").map (·.body.length), (result.2.find? "g").map (·.body.length))) =
        some (some 1, some 0) := by
  decide +kernel

/-- The second name has none of the lines that the first one has. -/
theorem second_name_has_no_body :
    ((Scan.ofSource definedAndNamedAgain).toOption.map fun scan =>
      (headers scan.tokens, aliases scan.tokens)) = some ([("f", [])], [("f", "g")]) ∧
    ((readProgram .standard definedAndNamedAgain).toOption.map fun result =>
      ((result.2.find? "f").map (·.body.length), (result.2.find? "g").map (·.body.length))) =
        some (some 1, some 0) :=
  ⟨names_of_definedAndNamedAgain, bodies_of_definedAndNamedAgain⟩

theorem second_name_has_header_of_f :
    ∃ program final procedure,
      readProgram .standard definedAndNamedAgain = .ok (program, final) ∧
      final.find? "f" = some procedure ∧ procedure.source.isSome = true ∧
      final.find? "g" = some { procedure with body := [], source := none } := by
  have hbodies := bodies_of_definedAndNamedAgain
  have hnames := names_of_definedAndNamedAgain
  cases hscan : Scan.ofSource definedAndNamedAgain with
  | error cause => simp [hscan, Except.toOption] at hnames
  | ok scan =>
    simp only [hscan, Except.toOption, Option.map_some, Option.some.injEq, Prod.mk.injEq]
      at hnames
    obtain ⟨hheaders, haliases⟩ := hnames
    cases hread : readProgram .standard definedAndNamedAgain with
    | error cause => simp [hread, Except.toOption] at hbodies
    | ok result =>
      obtain ⟨procedure, hfind, -, hdefined⟩ := second_name_has_header_of_text hread hscan
        (by rw [haliases]; exact List.mem_singleton_self ("f", "g"))
        (by rw [hheaders]; decide +kernel) (by rw [haliases]; decide +kernel)
        (by rw [haliases]; decide +kernel)
      have hheader : ∃ header ∈ headers scan.tokens,
          Text.lowercase header.1 = Text.lowercase "f" := by
        rw [hheaders]
        exact ⟨_, List.mem_singleton_self _, rfl⟩
      obtain ⟨-, hsource, hsecond⟩ := hdefined hheader
      exact ⟨result.1, result.2, procedure, rfl, hfind, hsource, hsecond⟩

end Logo
