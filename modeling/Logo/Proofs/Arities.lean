import Logo.Proofs.SecondNames
import Mathlib.Logic.Relation

/-!
# Calls have the inputs of their procedures

A call without parentheses is read with as many inputs as its procedure has in the table at that
moment, and the table changes while a text is read. But after the headers and the second names have
been entered, no definition changes the number of inputs of any name: it has the header that stands
in the table already, as long as no two headers have the same name and no header is a second name
too. So every call fits the procedure that its name stands for when the whole text has been read,
wherever it stands: before, in or behind the definition of that procedure.
-/

namespace Logo

open Relation (ReflTransGen)

/-! ## Data whose calls fit -/

inductive Datum.PartOf : Datum → Datum → Prop where
  | item {item : Datum} {items : List Datum} {text : Option String} {place : Option Span}
      (hmem : item ∈ items) : PartOf item (.list items text place)
  | input {input : Datum} {site : Call} (hmem : input ∈ site.inputs) : PartOf input (.call site)
  | line {line : Datum} {definition : Procedure} (hmem : line ∈ definition.body) :
      PartOf line (.procedure definition)

def Procedures.HasArity (procedures : Procedures) (name : String) (arity : Nat) : Prop :=
  ∃ definition, procedures.find? name = some definition ∧ definition.arity = arity

/-- Every call in the datum, at any depth, has as many inputs as the procedure that its name stands
for. -/
def Datum.CallsFit (procedures : Procedures) (datum : Datum) : Prop :=
  ∀ call, ReflTransGen Datum.PartOf (.call call) datum →
    procedures.HasArity call.name call.inputs.length

namespace Datum.CallsFit

variable {procedures : Procedures}

variable {items : List Datum} {definition : Procedure}

theorem of_parts {whole : Datum}
    (hcall : ∀ call, whole = .call call → procedures.HasArity call.name call.inputs.length)
    (hparts : ∀ part, PartOf part whole → part.CallsFit procedures) :
    whole.CallsFit procedures := by
  intro call hpart
  obtain hsame | ⟨part, hdeeper, hdirect⟩ := ReflTransGen.cases_tail hpart
  · exact hcall call hsame
  · exact hparts part hdirect call hdeeper

theorem atom (value : Atom) : (Datum.atom value).CallsFit procedures := by
  apply of_parts
  · intro call heq
    cases heq
  · intro part hpart
    cases hpart

theorem list (hitems : ∀ item ∈ items, item.CallsFit procedures) (text : Option String)
    (place : Option Span) : (Datum.list items text place).CallsFit procedures := by
  apply of_parts
  · intro call heq
    cases heq
  · rintro part ⟨hmem⟩
    exact hitems part hmem

theorem call {site : Call} (harity : procedures.HasArity site.name site.inputs.length)
    (hinputs : ∀ input ∈ site.inputs, input.CallsFit procedures) :
    (Datum.call site).CallsFit procedures := by
  apply of_parts
  · rintro call ⟨⟩
    exact harity
  · rintro part ⟨hmem⟩
    exact hinputs part ‹_›

theorem procedure (hbody : ∀ line ∈ definition.body, line.CallsFit procedures) :
    (Datum.procedure definition).CallsFit procedures := by
  apply of_parts
  · intro call heq
    cases heq
  · rintro part ⟨hmem⟩
    exact hbody part ‹_›

theorem body (hfits : (Datum.procedure definition).CallsFit procedures) :
    ∀ line ∈ definition.body, line.CallsFit procedures :=
  fun _ hmem call hpart => hfits call (hpart.tail (.line hmem))

/-- List text has no calls. -/
theorem readItems {source : String} {opening closing : Span} {tokens : List Token}
    {after : Shorter tokens}
    (hread : Logo.readItems source opening tokens = .ok (items, closing, after)) :
    ∀ item ∈ items, item.CallsFit procedures := by
  fun_induction Logo.readItems source opening tokens generalizing items closing with
  | case1 opening text span rest ih =>
    obtain ⟨⟨others, last, behind⟩, hothers, hread⟩ := exists_ok_of_bind hread
    cases hread
    exact List.forall_mem_cons.mpr ⟨atom _, ih hothers⟩
  | case2 opening span rest ihInner ih =>
    obtain ⟨⟨inner, innerClosing, middle⟩, hinner, hread⟩ := exists_ok_of_bind hread
    obtain ⟨⟨others, last, behind⟩, hothers, hread⟩ := exists_ok_of_bind hread
    cases hread
    exact List.forall_mem_cons.mpr
      ⟨list (ihInner hinner) _ _, ih middle middle.property hothers⟩
  | case3 opening span rest =>
    cases hread
    exact List.forall_mem_nil _
  | case4 => cases hread

end Datum.CallsFit

variable {first second : Procedures} {name : String}

theorem SameArities.hasArity (hsame : SameArities first second) {arity : Nat}
    (hfirst : first.HasArity name arity) : second.HasArity name arity := by
  obtain ⟨definition, hfind, rfl⟩ := hfirst
  have hname := hsame name
  rw [hfind, Option.map_some] at hname
  exact Option.map_eq_some_iff.mp hname.symm

theorem SameArities.callsFit (hsame : SameArities first second) {datum : Datum}
    (hfits : datum.CallsFit first) : datum.CallsFit second :=
  fun call hpart => hsame.hasArity (hfits call hpart)

/-! ## Names that keep their number of inputs -/

/-- The last definition under a name is the one that is found. -/
theorem Procedures.find?_foldl_define (definitions : List Procedure) (procedures : Procedures)
    (name : String) :
    (definitions.foldl define procedures).find? name =
      (definitions.reverse.find? fun definition =>
        Text.lowercase definition.name == Text.lowercase name).or (procedures.find? name) := by
  induction definitions generalizing procedures with
  | nil => rfl
  | cons definition definitions ih =>
    rw [List.foldl_cons, ih, find?_define, List.reverse_cons, List.find?_append, Option.or_assoc,
      List.find?_singleton]
    refine congrArg (Option.or _) ?_
    by_cases hname : Text.lowercase name = Text.lowercase definition.name
    · simp [hname]
    · simp [hname, Ne.symm hname]

theorem Procedures.find?_foldl_define_of_ne {definitions : List Procedure}
    (hne : ∀ definition ∈ definitions, Text.lowercase definition.name ≠ Text.lowercase name)
    (procedures : Procedures) :
    (definitions.foldl define procedures).find? name = procedures.find? name := by
  have hnone : (definitions.reverse.find? fun definition =>
      Text.lowercase definition.name == Text.lowercase name) = none := by
    simpa using hne
  rw [find?_foldl_define, hnone, Option.none_or]

theorem lowercase_headerOnly (header : String × List String) :
    Text.lowercase (headerOnly header).name = Text.lowercase header.1 :=
  Text.lowercase_lowercase header.1

/-- Every header is found under its name, if no other one has the same name. -/
theorem find?_header {found : List (String × List String)}
    (hdistinct : (found.map fun header => Text.lowercase header.1).Nodup)
    {header : String × List String} (hmem : header ∈ found) (procedures : Procedures) :
    ((found.map headerOnly).foldl Procedures.define procedures).find? header.1 =
      some (headerOnly header) := by
  induction found generalizing procedures with
  | nil => cases hmem
  | cons first found ih =>
    rw [List.map_cons, List.nodup_cons] at hdistinct
    rw [List.map_cons, List.foldl_cons]
    cases List.mem_cons.mp hmem with
    | inr hlater => exact ih hdistinct.2 hlater _
    | inl hsame =>
      subst hsame
      rw [Procedures.find?_foldl_define_of_ne, Procedures.find?_define, lowercase_headerOnly,
        if_pos rfl]
      intro definition hdefinition hname
      obtain ⟨other, hother, rfl⟩ := List.mem_map.mp hdefinition
      rw [lowercase_headerOnly] at hname
      exact hdistinct.1 (List.mem_map.mpr ⟨other, hother, hname⟩)

variable {tokens : List Token}

/-- What stands behind a `to` is a header. -/
theorem mem_headers_of_suffix {rest : List Token} {opening span : Span}
    (hsuffix : ⟨.define, opening⟩ :: ⟨.symbol name, span⟩ :: rest <:+ tokens) :
    (name, (takeParams rest).1) ∈ headers tokens := by
  induction tokens with
  | nil => exact absurd (List.suffix_nil.mp hsuffix) (by simp)
  | cons token tokens ih =>
    cases List.suffix_cons_iff.mp hsuffix with
    | inl hsame =>
      rw [← hsame, headers]
      exact List.mem_cons_self
    | inr hlater =>
      rw [headers.eq_def]
      split
      · rename_i heq
        cases heq
        apply List.mem_cons_of_mem
        have hrest := ih hlater
        rwa [headers_cons (by simp)] at hrest
      · rename_i heq
        cases heq
        exact ih hlater
      · rename_i heq
        cases heq

def Implicit (name : String) : Prop :=
  name = "thing" ∨ ∃ op : Operator, name = op.procedure

/-- What has to hold of the names that a text defines and gives, so that none of them changes its
number of inputs once the headers and the second names have been entered. -/
structure SteadyNames (tokens : List Token) : Prop where
  distinct : ((headers tokens).map fun header => Text.lowercase header.1).Nodup
  separate : ∀ header ∈ headers tokens, ∀ pair ∈ aliases tokens,
    Text.lowercase pair.2 ≠ Text.lowercase header.1
  header : ∀ name, Implicit name → ∀ header ∈ headers tokens,
    Text.lowercase header.1 ≠ Text.lowercase name
  second : ∀ name, Implicit name → ∀ pair ∈ aliases tokens,
    Text.lowercase pair.2 ≠ Text.lowercase name

/-- The procedures that are called for operators and for variables have the inputs of the built-in
ones. -/
def Procedures.ImplicitFit (procedures : Procedures) : Prop :=
  ∀ name, Implicit name →
    (procedures.find? name).map (·.arity) = (Procedures.standard.find? name).map (·.arity)

def Operator.all : List Operator :=
  [.plus, .minus, .star, .slash, .equal, .equalEqual, .bangEqual, .less, .lessEqual, .greater,
    .greaterEqual]

/-- The inputs of the built-in procedures that are called for operators and for variables. -/
theorem standard_implicit : ∀ entry ∈ ("thing", 1) :: Operator.all.map (·.procedure, 2),
    (Procedures.standard.find? entry.1).map (·.arity) = some entry.2 := by
  simp only [Procedures.standard, Procedures.find?_foldl_define]
  decide +kernel

namespace Procedures.ImplicitFit

variable {procedures : Procedures} (hfit : procedures.ImplicitFit)

include hfit

theorem thing : procedures.HasArity "thing" 1 := by
  have hstandard := standard_implicit _ List.mem_cons_self
  exact Option.map_eq_some_iff.mp ((hfit _ (.inl rfl)).trans hstandard)

theorem operator (op : Operator) : procedures.HasArity op.procedure 2 := by
  have hop : op ∈ Operator.all := by cases op <;> decide
  have hstandard := standard_implicit _ (List.mem_cons_of_mem _ (List.mem_map_of_mem hop))
  exact Option.map_eq_some_iff.mp ((hfit _ (.inr ⟨op, rfl⟩)).trans hstandard)

end Procedures.ImplicitFit

namespace SteadyNames

variable {tokens : List Token} (hsteady : SteadyNames tokens) {procedures named : Procedures}

include hsteady

/-- What is called for operators and for variables is not touched by the first two passes. -/
theorem implicitFit (hfit : procedures.ImplicitFit)
    (hnamed : nameAll? (((headers tokens).map headerOnly).foldl Procedures.define procedures)
      (aliases tokens) = some named) : named.ImplicitFit := by
  intro name himplicit
  rw [find?_nameAll?_of_ne hnamed (hsteady.second name himplicit),
    Procedures.find?_foldl_define_of_ne, hfit name himplicit]
  intro definition hdefinition
  obtain ⟨header, hheader, rfl⟩ := List.mem_map.mp hdefinition
  rw [lowercase_headerOnly]
  exact hsteady.header name himplicit header hheader

/-- A definition has the header that the first pass has entered. -/
theorem sameArities_define
    (hnamed : nameAll? (((headers tokens).map headerOnly).foldl Procedures.define procedures)
      (aliases tokens) = some named)
    {current : Procedures} (hsame : SameArities named current) {opening span : Span} {name : String}
    {rest : List Token} (hsuffix : ⟨.define, opening⟩ :: ⟨.symbol name, span⟩ :: rest <:+ tokens)
    (body : List Datum) (text : Option String) :
    SameArities named (current.define (.user name (takeParams rest).1 body text)) := by
  have hmem := mem_headers_of_suffix hsuffix
  have hheader := find?_header hsteady.distinct hmem procedures
  rw [← find?_nameAll?_of_ne hnamed (hsteady.separate _ hmem)] at hheader
  have harity := (hsame name).symm.trans (congrArg (Option.map Procedure.arity) hheader)
  apply hsame.trans (.define _)
  rwa [Procedure.user, Procedures.find?, Text.lowercase_lowercase]

end SteadyNames

/-! ## Reading -/

variable {named : Procedures}

/-- What is read without parentheses has calls that fit the table, and so they fit every table in
which the names have as many inputs. -/
theorem tracksCalls_callsFit {reading : Reading}
    (hparen : ∀ token ∈ tokens, token.kind ≠ .leftParen) (himplicit : named.ImplicitFit)
    (hsame : SameArities reading.procedures named) :
    TracksCalls reading (· <:+ tokens) (Datum.CallsFit named) (fun _ => True) where
  take hsuffix _ := (List.suffix_cons _ _).trans hsuffix
  list hsuffix hread :=
    ⟨.list (Datum.CallsFit.readItems hread) _ _,
      ((suffix_of_readItems hread).trans (List.suffix_cons _ _)).trans hsuffix⟩
  atom := Datum.CallsFit.atom
  reference name _ := .call himplicit.thing (List.forall_mem_singleton.mpr (.atom (.symbol name)))
  operator op _ _ _ hleft hright := .call (himplicit.operator op) (by simp [hleft, hright])
  call _ hfind hlength hinputs := .call (hsame.hasArity ⟨_, hfind, hlength.symm⟩) hinputs
  group {opening rest} hsuffix := by
    have hmem : ⟨.leftParen, opening⟩ ∈ tokens := hsuffix.subset List.mem_cons_self
    exact absurd rfl (hparen _ hmem)
  finish := trivial
  token _ := trivial
  unclosed _ _ := trivial

theorem tracksTable_callsFit {source : String} {finish : Span} {tokens : List Token}
    {procedures named : Procedures} (hsteady : SteadyNames tokens)
    (hparen : ∀ token ∈ tokens, token.kind ≠ .leftParen) (hfit : procedures.ImplicitFit)
    (hnamed : nameAll? (((headers tokens).map headerOnly).foldl Procedures.define procedures)
      (aliases tokens) = some named) :
    TracksTable source finish (· <:+ tokens) (Datum.CallsFit named) (fun _ => True)
      (SameArities named) where
  calls hsame :=
    tracksCalls_callsFit hparen (hsteady.implicitFit hfit hnamed) hsame.symm
  define hsuffix _ hsame := hsteady.sameArities_define hnamed hsame hsuffix _ _
  procedure hbody := .procedure hbody

/-- Calls are read with the number of inputs that they will be run with. Where a text has no
parentheses and its definitions and second names do not get into each other's way, every call in its
program and in the bodies that it defines has exactly as many inputs as the procedure that its name
stands for after the whole text has been read. -/
theorem calls_fit_procedures_after_reading {procedures final : Procedures} {source : String}
    {program : List Datum} {scan : Scan}
    (hread : readProgram procedures source = .ok (program, final))
    (hscan : Scan.ofSource source = .ok scan) (hfit : procedures.ImplicitFit)
    (hparen : ∀ token ∈ scan.tokens, token.kind ≠ .leftParen) (hsteady : SteadyNames scan.tokens) :
    (∀ line ∈ program, line.CallsFit final) ∧
    ∀ name definition, final.find? name = some definition →
      (∃ known, procedures.find? known = some definition) ∨
        ∀ line ∈ definition.body, line.CallsFit final := by
  obtain ⟨_, headed, named, hother, hheaded, hnamed, hlines⟩ := exists_passes_of_readProgram hread
  cases hscan.symm.trans hother
  obtain rfl := eq_foldl_of_enterHeaders hheaded
  have htracks := @tracksTable_callsFit source scan.finish _ _ _ hsteady hparen hfit
    (nameAll?_of_enterAliases hnamed)
  obtain ⟨hprogram, hsame⟩ :=
    htracks.readLines (List.suffix_refl _) (fun _ => rfl) hlines
  have hfits : ∀ line ∈ program, line.CallsFit final :=
    fun line hmem => hsame.callsFit (hprogram line hmem)
  refine ⟨hfits, ?_⟩
  refine all_of_reading (fun name params => .inr (List.forall_mem_nil _))
    (fun name definition hfind => .inl ⟨name, hfind⟩) hread ?_
  intro reading opening inside definition rest _ hmem
  exact .inr (hfits _ hmem).body

def callsAroundDefinitions : String :=
  "print f 1 2\nto F :a :b\noutput g :a + :b\nend\nto g :c\noutput f :c 1\nend\n" ++
    "alias \"g \"h\nprint h 3"

theorem names_of_callsAroundDefinitions :
    ((Scan.ofSource callsAroundDefinitions).toOption.map fun scan =>
      (headers scan.tokens, aliases scan.tokens,
        scan.tokens.any fun token => token.kind matches .leftParen)) =
      some ([("F", ["a", "b"]), ("g", ["c"])], [("g", "h")], false) := by
  decide +kernel

theorem length_of_callsAroundDefinitions :
    (readProgram .standard callsAroundDefinitions).toOption.map (·.1.length) = some 5 := by
  decide +kernel

theorem steadyNames_of_headers (hheaders : headers tokens = [("F", ["a", "b"]), ("g", ["c"])])
    (haliases : aliases tokens = [("g", "h")]) : SteadyNames tokens := by
  have himplicit : ∀ name, Implicit name → name ∈ "thing" :: Operator.all.map (·.procedure) := by
    rintro name (rfl | ⟨op, rfl⟩)
    · exact List.mem_cons_self
    · cases op <;> decide
  have hnames : ∀ name ∈ "thing" :: Operator.all.map (·.procedure),
      Text.lowercase "F" ≠ Text.lowercase name ∧ Text.lowercase "g" ≠ Text.lowercase name ∧
        Text.lowercase "h" ≠ Text.lowercase name := by
    decide +kernel
  constructor
  · rw [hheaders]
    decide +kernel
  · rw [hheaders, haliases]
    decide +kernel
  · intro name hname
    obtain ⟨hf, hg, -⟩ := hnames name (himplicit name hname)
    simp [hheaders, hf, hg]
  · intro name hname
    obtain ⟨-, -, hh⟩ := hnames name (himplicit name hname)
    simp [haliases, hh]

theorem calls_fit_around_definitions :
    ∃ program final, readProgram .standard callsAroundDefinitions = .ok (program, final) ∧
      program.length = 5 ∧ ∀ line ∈ program, line.CallsFit final := by
  have hnames := names_of_callsAroundDefinitions
  have hlength := length_of_callsAroundDefinitions
  cases hscan : Scan.ofSource callsAroundDefinitions with
  | error cause =>
    rw [hscan] at hnames
    cases hnames
  | ok scan =>
    rw [hscan] at hnames
    obtain ⟨hheaders, hnames⟩ := Prod.mk.inj (Option.some.inj hnames)
    obtain ⟨haliases, hany⟩ := Prod.mk.inj hnames
    cases hread : readProgram .standard callsAroundDefinitions with
    | error cause =>
      rw [hread] at hlength
      cases hlength
    | ok result =>
      obtain ⟨program, final⟩ := result
      rw [hread] at hlength
      refine ⟨program, final, rfl, Option.some.inj hlength, ?_⟩
      have hparen : ∀ token ∈ scan.tokens, token.kind ≠ .leftParen := by
        intro token hmem hkind
        have hnot := List.any_eq_false.mp hany token hmem
        simp [hkind] at hnot
      exact (calls_fit_procedures_after_reading hread hscan (fun _ _ => rfl) hparen
        (steadyNames_of_headers hheaders haliases)).1

end Logo
