import Logo.Proofs.Arities
import Logo.Proofs.Excerpts
import Logo.Proofs.Rereading

/-!
# Definitions that are read again

A definition keeps its text, from the word `to` through the word `end`. If no two definitions of a
text have the same name, and if it gives no second names, then each of them is read again from its
own text alone: with the procedures that the text has left in the table the words of its body take
the same numbers of inputs as they did when the table was not yet complete.
-/

namespace Logo

open Datum (placelessAll)

/-! ## The same tokens elsewhere -/

/-- Both ends of the second span are places in the text, and the first span is the same with so many
bytes before it. -/
structure Span.Moved (text : String) (offset : Nat) (span other : Span) : Prop where
  start : ∃ front, front <+: text.toList ∧ other.start = byteLength front ∧
    span.start = offset + byteLength front
  stop : ∃ front, front <+: text.toList ∧ other.stop = byteLength front ∧
    span.stop = offset + byteLength front

variable {text : String} {scan : Scan} {offset : Nat}

variable {token : Token}

theorem Token.Shifted.moved {other : Token} (hshifted : token.Shifted offset other)
    (hscan : Scan.ofSource text = .ok scan) (hother : other ∈ scan.tokens) :
    token.span.Moved text offset other.span := by
  obtain ⟨before, covered, after, hspan, -, -⟩ := (tiled_ofSource hscan).token_covers hother
  have hsource := hspan.source_eq
  refine ⟨⟨before, ⟨_, hsource.symm⟩, hspan.start, ?_⟩,
    ⟨before ++ covered, ⟨after, ?_⟩, hspan.stop, ?_⟩⟩
  · rw [hshifted.start, hspan.start]
  · rw [hsource, List.append_assoc]
  · rw [hshifted.stop, hspan.stop]

/-- The tokens of the rest of a definition, up to the word `end`, in the whole text and in the text
of the definition. -/
inductive Excerpted (text : String) (offset : Nat) : List Token → List Token → Prop where
  | close {span other : Span} {rest : List Token} (hspan : span.Moved text offset other) :
      Excerpted text offset (⟨.close, span⟩ :: rest) [⟨.close, other⟩]
  | cons {kind : TokenKind} {span other : Span} {rest others : List Token}
      (hdefine : kind ≠ .define) (hclose : kind ≠ .close) (hspan : span.Moved text offset other)
      (hrest : Excerpted text offset rest others) :
      Excerpted text offset (⟨kind, span⟩ :: rest) (⟨kind, other⟩ :: others)

variable {rest others : List Token}

theorem excerpted_of_shifted {middle rest others : List Token} {closing : Span}
    (hmiddle : ∀ token ∈ middle, token.kind ≠ .define ∧ token.kind ≠ .close)
    (hmoved : List.Forall₂
      (fun token other : Token => token.kind = other.kind ∧ token.span.Moved text offset other.span)
      (middle ++ [⟨.close, closing⟩]) others) :
    Excerpted text offset (middle ++ ⟨.close, closing⟩ :: rest) others := by
  induction middle generalizing others with
  | nil =>
    obtain _ | @⟨_, other, _, _, ⟨hkind, hspan⟩, hnil⟩ := hmoved
    cases hnil
    obtain ⟨kind, place⟩ := other
    cases hkind
    exact .close hspan
  | cons token middle ih =>
    obtain _ | @⟨_, other, _, _, ⟨hkind, hspan⟩, hothers⟩ := hmoved
    obtain ⟨⟨hdefine, hclose⟩, hmiddle⟩ := List.forall_mem_cons.mp hmiddle
    obtain ⟨kind, place⟩ := other
    cases hkind
    exact .cons hdefine hclose hspan (ih hmiddle hothers)

namespace Excerpted

variable {text : String} {offset : Nat} {tokens others : List Token}

theorem head {kind : TokenKind} {span other : Span}
    (hpaired : Excerpted text offset (⟨kind, span⟩ :: tokens) (⟨kind, other⟩ :: others)) :
    span.Moved text offset other := by
  cases hpaired with
  | close hspan => exact hspan
  | cons _ _ hspan _ => exact hspan

theorem tail {token mate : Token}
    (hpaired : Excerpted text offset (token :: tokens) (mate :: others))
    (hclose : token.kind ≠ .close) : Excerpted text offset tokens others := by
  cases hpaired with
  | close => exact absurd rfl hclose
  | cons _ _ _ hrest => exact hrest

/-- The text of a definition ends with its word `end`. -/
theorem eq_nil_of_close {closing mate : Span}
    (hpaired : Excerpted text offset (⟨.close, closing⟩ :: tokens) (⟨.close, mate⟩ :: others)) :
    others = [] := by
  cases hpaired with
  | close => rfl
  | cons _ hclose _ _ => exact absurd rfl hclose

end Excerpted

section Reading

variable {source text : String} {before after : List Char}
  (hsource : source.toList = before ++ (text.toList ++ after))

variable {mate last opening : Span} {tokens others : List Token}

include hsource

/-- What stands between two places is the same in both texts. -/
theorem sliceBytes_moved {first other : Span} (hfirst : first.Moved text (byteLength before) mate)
    (hlast : last.Moved text (byteLength before) other) :
    sliceBytes source first.stop last.start = sliceBytes text mate.stop other.start ∧
      sliceBytes source first.start last.stop = sliceBytes text mate.start other.stop := by
  obtain ⟨⟨_, hstart, hmate, hfirst⟩, ⟨_, hstop, hmate', hfirst'⟩⟩ := hfirst
  obtain ⟨⟨_, hstart', hother, hlast⟩, ⟨_, hstop', hother', hlast'⟩⟩ := hlast
  rw [hmate, hfirst, hmate', hfirst', hother, hlast, hother', hlast']
  exact ⟨sliceBytes_of_part hsource hstop hstart', sliceBytes_of_part hsource hstart hstop'⟩

theorem placeless_bracketed {closing : Span} {items others : List Datum}
    (hopening : opening.Moved text (byteLength before) mate)
    (hclosing : closing.Moved text (byteLength before) last)
    (hitems : placelessAll items = placelessAll others) :
    (bracketed source opening closing items).placeless =
      (bracketed text mate last others).placeless := by
  simp only [bracketed, Datum.placeless, hitems, (sliceBytes_moved hsource hopening hclosing).1]

/-- An excerpt has the same lists. -/
theorem Excerpted.readItems (hpaired : Excerpted text (byteLength before) tokens others) :
    Agree (fun found found' => placelessAll found.1 = placelessAll found'.1 ∧
        found.2.1.Moved text (byteLength before) found'.2.1 ∧
        Excerpted text (byteLength before) found.2.2.val found'.2.2.val)
      (readItems source opening tokens) (readItems text mate others) := by
  fun_induction Logo.readItems source opening tokens generalizing mate others with
  | case1 opening word span rest ih =>
    obtain _ | ⟨hdefine, hclose, hspan, hrest⟩ := hpaired
    rw [Logo.readItems]
    apply (ih hrest).bind
    rintro ⟨items, closing, final⟩ ⟨items', closing', final'⟩ ⟨hitems, hfinal⟩
    exact .ok ⟨congrArg (_ :: ·) hitems, hfinal⟩
  | case2 opening span rest ihInner ih =>
    obtain _ | ⟨hdefine, hclose, hspan, hrest⟩ := hpaired
    rw [Logo.readItems]
    apply (ihInner hrest).bind
    rintro ⟨inner, innerClosing, middle⟩ ⟨inner', innerClosing', middle'⟩
      ⟨hinner, hinnerClosing, hmiddle⟩
    apply (ih middle.val middle.property hmiddle).bind
    rintro ⟨items, closing, final⟩ ⟨items', closing', final'⟩ ⟨hitems, hfinal⟩
    have hlist := placeless_bracketed hsource hspan hinnerClosing hinner
    refine .ok ⟨?_, hfinal⟩
    rw [placelessAll, placelessAll, hlist, hitems]
  | case3 opening span rest =>
    obtain _ | ⟨hdefine, hclose, hspan, hrest⟩ := hpaired
    rw [Logo.readItems]
    exact .ok ⟨rfl, hspan, hrest⟩
  | case4 opening tokens hword hopen hclose =>
    rw [Logo.readItems]
    · exact .error
    · rintro word span rest rfl
      cases hpaired
      exact hword _ _ _ rfl
    · rintro span rest rfl
      cases hpaired
      exact hopen _ _ rfl
    · rintro span rest rfl
      cases hpaired
      exact hclose _ _ rfl

theorem pairs_excerpted :
    Pairs source text (Excerpted text (byteLength before))
      (fun datum mate => datum.placeless = mate.placeless) where
  kinds hpaired := by
    cases hpaired with
    | close => rfl
    | cons => rfl
  take hpaired hkind := hpaired.tail (TokenKind.isSimple_iff.mp hkind).2.2
  list hpaired := by
    apply (Excerpted.readItems hsource (hpaired.tail (by simp))).imp
    rintro found found' ⟨hitems, hclosing, hrest⟩
    exact ⟨placeless_bracketed hsource hpaired.head hclosing hitems, hrest⟩
  atom _ := rfl
  call hinputs name span mate := by
    rw [Datum.placeless, Datum.placeless, Datum.forall₂_placeless.mp hinputs]

/-- The definition is read from its own text, and its body is the same but for the places. -/
theorem Excerpted.readDefinition {finish : Span} {known table : Procedures} {definition : Procedure}
    {rest : Shorter tokens} (hpaired : Excerpted text (byteLength before) tokens others)
    (hopening : opening.Moved text (byteLength before) mate) (hsame : SameArities known table)
    (hread : readDefinition ⟨source, finish, known⟩ opening tokens = .ok (definition, rest)) :
    ∃ body hshorter,
      readDefinition ⟨text, last, table⟩ mate others =
        .ok ({ definition with body }, ⟨[], hshorter⟩) ∧
      placelessAll body = placelessAll definition.body := by
  have hreadings : Pairs (Reading.mk source finish known).source
      (Reading.mk text last table).source (Excerpted text (byteLength before))
      (fun datum mate => datum.placeless = mate.placeless) := pairs_excerpted hsource
  have hagree := hreadings.calls.readDefinition hsame opening mate trivial hpaired
  obtain ⟨⟨found, behind, hshorter⟩, hagain, name, _, _, _, _, body, body', closing, closing', -, -,
    hbody, rfl, rfl, hrest⟩ := hagree.agree.exists_ok hread
  obtain rfl : behind = [] := hrest.eq_nil_of_close
  refine ⟨body', hshorter, ?_, (Datum.forall₂_placeless.mp hbody).symm⟩
  have hslice := (sliceBytes_moved hsource hopening hrest.head).2
  rw [hagain]
  dsimp only
  rw [← hslice]
  rfl

end Reading

variable {tokens : List Token}

theorem moved_of_shifted (hscan : Scan.ofSource text = .ok scan)
    (hshifted : List.Forall₂ (Token.Shifted offset) tokens scan.tokens) :
    List.Forall₂
      (fun token other : Token => token.kind = other.kind ∧ token.span.Moved text offset other.span)
      tokens scan.tokens := by
  have hmembers := (List.forall₂_and_left _ _).mpr ⟨fun _ hother => hother, hshifted.flip⟩
  apply hmembers.flip.imp
  rintro token other ⟨hother, hsame⟩
  exact ⟨hsame.kind, hsame.moved hscan hother⟩

/-! ## Headers and second names of the excerpt -/

theorem enterHeaders_cons (hkind : token.kind ≠ .define) (procedures : Procedures)
    (rest : List Token) :
    enterHeaders procedures (token :: rest) = enterHeaders procedures rest := by
  rw [enterHeaders]
  rintro span rfl
  exact hkind rfl

theorem Excerpted.enterHeaders_eq (hpaired : Excerpted text offset tokens others)
    (procedures : Procedures) : enterHeaders procedures others = .ok procedures := by
  induction hpaired with
  | close => rfl
  | cons hdefine _ _ _ ih => rw [enterHeaders_cons hdefine, ih]

variable {source name : String}

theorem Excerpted.enterHeaders_define {text : String} {before after : List Char} {place : Span}
    (hpaired : Excerpted text (byteLength before) (⟨.symbol name, place⟩ :: tokens) others)
    (hsource : source.toList = before ++ (text.toList ++ after)) (opening : Span)
    (procedures : Procedures) :
    enterHeaders procedures (⟨.define, opening⟩ :: others) =
      .ok (procedures.define (headerOnly (name, (takeParams tokens).1))) := by
  have hinside := hpaired.enterHeaders_eq
  cases hpaired with
  | @cons _ _ other _ others hdefine hclose hspan hrest =>
    obtain ⟨hparams, -⟩ := (pairs_excerpted hsource).takeParams tokens others hrest
    rw [enterHeaders, hparams]
    exact hinside _

theorem enterAliases_of_aliases_eq_nil (hnone : aliases tokens = []) (procedures : Procedures) :
    enterAliases procedures tokens = .ok procedures := by
  induction tokens with
  | nil => rfl
  | cons token rest ih =>
    obtain ⟨hfirst, hothers⟩ := List.append_eq_nil_iff.mp hnone
    rw [enterAliases, Option.toList_eq_nil_iff.mp hfirst]
    exact ih hothers

theorem aliasAt?_append {pair : String × String} (halias : aliasAt? tokens = some pair)
    (rest : List Token) : aliasAt? (tokens ++ rest) = some pair := by
  rw [aliasAt?.eq_def] at halias
  split at halias
  · exact halias
  · cases halias

theorem aliases_append_eq_nil {first second : List Token}
    (hnone : aliases (first ++ second) = []) : aliases first = [] ∧ aliases second = [] := by
  induction first with
  | nil => exact ⟨rfl, hnone⟩
  | cons token first ih =>
    rw [List.cons_append, aliases] at hnone
    obtain ⟨hhead, hrest⟩ := List.append_eq_nil_iff.mp hnone
    obtain ⟨hfirst, hsecond⟩ := ih hrest
    refine ⟨List.append_eq_nil_iff.mpr ⟨?_, hfirst⟩, hsecond⟩
    cases halias : aliasAt? (token :: first) with
    | none => rfl
    | some pair =>
      rw [← List.cons_append, aliasAt?_append halias] at hhead
      cases hhead

theorem aliases_spanless (tokens : List Token) :
    aliases (tokens.map Token.spanless) = aliases tokens := by
  induction tokens with
  | nil => rfl
  | cons token rest ih =>
    have hhead := aliasAt?_spanless (token :: rest)
    rw [List.map_cons] at hhead ⊢
    rw [aliases, aliases, ih, hhead]

theorem spanless_of_shifted (hshifted : List.Forall₂ (Token.Shifted offset) tokens others) :
    tokens.map Token.spanless = others.map Token.spanless := by
  induction hshifted with
  | nil => rfl
  | cons hfirst _ ih =>
    rw [List.map_cons, List.map_cons, ih, Token.spanless, Token.spanless, hfirst.kind]

/-! ## Tables that are not yet complete -/

variable {procedures : Procedures}

/-- Procedures that take the places of others with as many inputs. -/
theorem SameArities.foldl_define {procedures : Procedures} {definitions : List Procedure}
    (hdefinitions : ∀ definition ∈ definitions,
      (procedures.find? definition.name).map (·.arity) = some definition.arity) :
    SameArities procedures (definitions.foldl Procedures.define procedures) := by
  induction definitions generalizing procedures with
  | nil => exact fun name => rfl
  | cons definition definitions ih =>
    obtain ⟨hfirst, hothers⟩ := List.forall_mem_cons.mp hdefinitions
    have hdefine := SameArities.define hfirst
    refine hdefine.trans (ih fun other hother => ?_)
    rw [← hdefine other.name, hothers other hother]

section Completing

variable {found : List (String × List String)} {definitions : List Procedure}
  (hcompletes : List.Forall₂ Completes found definitions)

variable {definition : Procedure}

include hcompletes

theorem map_name_of_completes :
    definitions.map (Text.lowercase ·.name) = found.map (Text.lowercase ·.1) := by
  induction hcompletes with
  | nil => rfl
  | cons hfirst _ ih =>
    obtain ⟨body, text, rfl⟩ := hfirst
    rw [List.map_cons, List.map_cons, ih, Procedure.user, Text.lowercase_lowercase]

theorem exists_header_of_mem (hmem : definition ∈ definitions) :
    ∃ header ∈ found, Completes header definition := by
  induction hcompletes with
  | nil => cases hmem
  | @cons header _ _ _ hfirst _ ih =>
    obtain rfl | hmem := List.mem_cons.mp hmem
    · exact ⟨header, List.mem_cons_self, hfirst⟩
    · obtain ⟨other, hother, hcompletes⟩ := ih hmem
      exact ⟨other, List.mem_cons_of_mem header hother, hcompletes⟩

/-- With different names, every header is entered with as many inputs as its definition has. -/
theorem arity_headed (hdistinct : (found.map (Text.lowercase ·.1)).Nodup) (procedures : Procedures)
    (hmem : definition ∈ definitions) :
    (((found.map headerOnly).foldl Procedures.define procedures).find? definition.name).map
      (·.arity) = some definition.arity := by
  obtain ⟨header, hheader, body, text, rfl⟩ := exists_header_of_mem hcompletes hmem
  rw [Procedures.find?, Procedure.user, Text.lowercase_lowercase]
  exact congrArg (Option.map Procedure.arity) (find?_header hdistinct hheader procedures)

end Completing

/-! ## Where a definition is read -/

variable {front inside : List Token} {opening : Span}

theorem Passes.exists_eq_append (hpasses : Passes tokens rest)
    (htokens : tokens = front ++ ⟨.define, opening⟩ :: inside) :
    ∃ behind, rest = behind ++ ⟨.define, opening⟩ :: inside := by
  obtain ⟨used, rfl, hused⟩ := hpasses
  obtain ⟨more, rfl, hrest⟩ | ⟨more, rfl, hrest⟩ := List.append_eq_append_iff.mp htokens
  · exact ⟨more, hrest⟩
  · cases more with
    | nil => exact ⟨[], hrest.symm⟩
    | cons token more =>
      obtain ⟨rfl, -⟩ := List.cons.inj hrest
      have hdefine := hused ⟨.define, opening⟩ (by simp)
      exact absurd rfl hdefine.1

variable {finish : Span} {final : Procedures}

/-- Every word `to` of a text that is read begins a definition, which is read with the procedures
that are known before it and enters the table among the others. -/
theorem exists_definition_of_readLines {lines : List Datum}
    (hread : readLines source finish procedures tokens = .ok (lines, final))
    (htokens : tokens = front ++ ⟨.define, opening⟩ :: inside) :
    ∃ earlier definition later, ∃ rest : Shorter inside,
      readDefinition ⟨source, finish, earlier.foldl Procedures.define procedures⟩ opening inside =
        .ok (definition, rest) ∧
      List.Forall₂ Completes (headers tokens) (earlier ++ definition :: later) ∧
      final = (earlier ++ definition :: later).foldl Procedures.define procedures := by
  fun_induction readLines source finish procedures tokens generalizing lines front with
  | case1 procedures tokens hnext =>
    obtain ⟨behind, hbehind⟩ := (passes_skipNewlines tokens).exists_eq_append htokens
    rw [hnext] at hbehind
    cases behind <;> cases hbehind
  | case2 procedures tokens start others hnext hinside ih =>
    obtain ⟨⟨procedure, rest, hrest⟩, hdefinition, hread⟩ := exists_ok_of_bind hread
    obtain ⟨⟨lines, table⟩, hlines, hread⟩ := exists_ok_of_bind hread
    cases hread
    obtain ⟨header, hheaders, hcompletes⟩ :=
      @completes_of_readDefinition _ _ start _ _ _ hdefinition
    obtain ⟨behind, hbehind⟩ := (passes_skipNewlines tokens).exists_eq_append htokens
    rw [(passes_skipNewlines tokens).headers_eq, hnext, hheaders]
    rw [hnext] at hbehind
    -- The word `to` is that of this definition, or it stands behind the end of it.
    cases behind with
    | nil =>
      cases hbehind
      obtain ⟨hlater, rfl⟩ := definitions_of_readLines hlines
      exact ⟨[], procedure, _, ⟨rest, hrest⟩, hdefinition, .cons hcompletes hlater, rfl⟩
    | cons token behind =>
      obtain ⟨-, hothers⟩ := List.cons.inj hbehind
      obtain ⟨name, place, after, body, closing, rfl, hpasses, -⟩ :=
        exists_parts_of_readDefinition hdefinition
      have hinner : Passes (⟨.symbol name, place⟩ :: after) (⟨.close, closing⟩ :: rest) :=
        hpasses.cons (by simp) (by simp)
      obtain ⟨last, hlast⟩ := hinner.exists_eq_append hothers
      cases last with
      | nil => cases hlast
      | cons token last =>
        obtain ⟨-, hrestTokens⟩ := List.cons.inj hlast
        obtain ⟨earlier, definition, later, final, hdefined, hcompleted, rfl⟩ :=
          ih procedure rest hrest hlines hrestTokens
        exact ⟨procedure :: earlier, definition, later, final, hdefined,
          .cons hcompletes hcompleted, rfl⟩
  | case3 procedures tokens next others hdefine hnext ih =>
    obtain ⟨⟨line, rest, hrest⟩, hline, hread⟩ := exists_ok_of_bind hread
    obtain ⟨⟨lines, table⟩, hlines, hread⟩ := exists_ok_of_bind hread
    cases hread
    have hpasses := passes_skipNewlines tokens
    rw [hnext] at hpasses
    have hbehind := hpasses.trans (passes_readExpression hline).1
    obtain ⟨behind, hrestTokens⟩ := hbehind.exists_eq_append htokens
    rw [hbehind.headers_eq]
    exact ih rest hrest hlines hrestTokens

/-! ## Definitions and their texts -/

/-- The text goes from the word `to` at `opening` through the first word `end` behind it, and the
name stands behind the word `to`. -/
def SpansDefinition (source : String) (opening : Span) (inside : List Token) (name text : String) :
    Prop :=
  ∃ place middle closing rest before after,
    inside = ⟨.symbol name, place⟩ :: (middle ++ ⟨.close, closing⟩ :: rest) ∧
    (∀ token ∈ middle, token.kind ≠ .close) ∧
    (opening.through closing).Covers source before text.toList after

/-- The text alone defines the procedure anew. It has the same body but for places, and no other
entry of the table is changed. -/
def DefinesAgain (procedures : Procedures) (text : String) (definition : Procedure) : Prop :=
  ∃ body final,
    readProgram procedures text = .ok ([.procedure { definition with body }], final) ∧
    final.find? definition.name = some { definition with body } ∧
    placelessAll body = placelessAll definition.body ∧
    ∀ key, key ≠ definition.name → final.entries.get? key = procedures.entries.get? key

variable {table : Procedures} {definition : Procedure}

/-- A text that is one definition is read as such. -/
theorem readProgram_of_readDefinition {procedures table : Procedures} {opening : Span}
    {inside : List Token} {definition : Procedure}
    {hshorter : ([] : List Token).length < inside.length} (hscan : Scan.ofSource text = .ok scan)
    (htokens : scan.tokens = ⟨.define, opening⟩ :: inside)
    (hheaders : enterHeaders procedures scan.tokens = .ok table)
    (haliases : aliases scan.tokens = [])
    (hread : readDefinition ⟨text, scan.finish, table⟩ opening inside =
      .ok (definition, ⟨[], hshorter⟩)) :
    readProgram procedures text = .ok ([.procedure definition], table.define definition) := by
  have hnext : skipNewlines scan.tokens = ⟨.define, opening⟩ :: inside := by
    rw [htokens]
    rfl
  have hlines : readLines text scan.finish table scan.tokens =
      .ok ([.procedure definition], table.define definition) := by
    rw [readLines_of_define hnext rfl, hread]
    dsimp only [bind, Except.bind]
    rw [readLines_of_nil rfl]
  have htext : readTokens procedures text scan =
      .ok ([.procedure definition], table.define definition) := by
    rw [readTokens, hheaders]
    dsimp only [bind, Except.bind]
    rw [enterAliases_of_aliases_eq_nil haliases]
    exact hlines
  rw [readProgram_eq, hscan]
  dsimp only [bind, Except.bind, Except.mapError]
  rw [htext]

theorem get?_define_of_ne {procedure : Procedure} {key : String}
    (hkey : key ≠ Text.lowercase procedure.name) (procedures : Procedures) :
    (procedures.define procedure).entries.get? key = procedures.entries.get? key := by
  rw [Procedures.define, NameTable.get?_insert, if_neg hkey]

theorem definesAgain_of_readProgram {procedures : Procedures} {text name : String}
    {params : List String} {definition : Procedure} {body : List Datum}
    (hname : definition.name = Text.lowercase name)
    (hread : readProgram procedures text = .ok ([.procedure { definition with body }],
      (procedures.define (headerOnly (name, params))).define { definition with body }))
    (hbody : placelessAll body = placelessAll definition.body) :
    DefinesAgain procedures text definition := by
  refine ⟨body, _, hread, ?_, hbody, ?_⟩
  · rw [Procedures.find?_define, if_pos rfl]
  · intro key hkey
    have hdefinition : key ≠ Text.lowercase { definition with body }.name := by
      rwa [hname, Text.lowercase_lowercase, ← hname]
    have hheader : key ≠ Text.lowercase (headerOnly (name, params)).name := by
      rwa [headerOnly, Procedure.user, Text.lowercase_lowercase, ← hname]
    rw [get?_define_of_ne hdefinition, get?_define_of_ne hheader]

/-- A definition that has been read is read again from its text with any table in which, once its
header has been entered, the words take as many inputs as before. -/
theorem definesAgain_of_readDefinition {source : String} {front inside : List Token}
    {opening finish : Span} {known table : Procedures} {definition : Procedure}
    {rest : Shorter inside} (hscan : Scan.ofSource source = .ok scan)
    (haliases : aliases scan.tokens = [])
    (hdefine : scan.tokens = front ++ ⟨.define, opening⟩ :: inside)
    (hread : readDefinition ⟨source, finish, known⟩ opening inside = .ok (definition, rest))
    (hsame : ∀ header, Completes header definition →
      SameArities known (table.define (headerOnly header))) :
    ∃ name params body text, definition = .user name params body (some text) ∧
      SpansDefinition source opening inside name text ∧ DefinesAgain table text definition := by
  obtain ⟨name, place, after, body, closing, rfl, ⟨middle, hafter, hmiddle⟩, hdefinition⟩ :=
    exists_parts_of_readDefinition hread
  -- The tokens that are left have the others in their type, and only their list is needed.
  generalize rest.val = final at hafter
  subst hafter
  rw [← List.cons_append] at hdefine
  obtain ⟨before, text, after, excerpt, hcovers, hexcerpt, hshifted⟩ :=
    exists_excerpt hscan hdefine
  have hsource := hcovers.source_eq
  have htext : sliceBytes source opening.start closing.stop = text :=
    hcovers.sliceBytes_eq.trans String.ofList_toList
  obtain ⟨⟨kind, mate⟩, others, ⟨hkind, hopening⟩, hothers, htokens⟩ :=
    List.forall₂_cons_left_iff.mp (moved_of_shifted hexcerpt hshifted)
  cases hkind
  have hpaired : Excerpted text (byteLength before)
      (⟨.symbol name, place⟩ :: (middle ++ ⟨.close, closing⟩ :: final)) others :=
    excerpted_of_shifted (List.forall_mem_cons.mpr ⟨by simp, hmiddle⟩) hothers
  have hheaders := hpaired.enterHeaders_define hsource mate table
  rw [← htokens] at hheaders
  have hcompletes : Completes (name, (takeParams (middle ++ ⟨.close, closing⟩ :: final)).1)
      definition := ⟨body, _, hdefinition⟩
  obtain ⟨again, hshorter, hagain, hbody⟩ :=
    hpaired.readDefinition hsource hopening (hsame _ hcompletes) hread
  have hnone : aliases excerpt.tokens = [] := by
    have hwhole : aliases (front ++ (⟨.define, opening⟩ ::
        (⟨.symbol name, place⟩ :: middle ++ [⟨.close, closing⟩]) ++ final)) = [] := by
      rw [← haliases, hdefine]
      simp
    have hused := (aliases_append_eq_nil (aliases_append_eq_nil hwhole).2).1
    rwa [← aliases_spanless, ← spanless_of_shifted hshifted, aliases_spanless]
  have hprogram := readProgram_of_readDefinition hexcerpt htokens hheaders hnone hagain
  refine ⟨name, _, body, text, hdefinition.trans (by rw [htext]),
    ⟨place, middle, closing, final, before, after, rfl, fun token hmem => (hmiddle token hmem).2,
      hcovers⟩, ?_⟩
  have hname : definition.name = Text.lowercase name := by rw [hdefinition, Procedure.user]
  exact definesAgain_of_readProgram hname hprogram hbody

/-- If no two definitions of a text have the same name, each of them is kept in the table, and the
words of its body take as many inputs as they did when it was read. -/
theorem exists_readDefinition_of_readProgram {program : List Datum}
    (hread : readProgram procedures source = .ok (program, final))
    (hscan : Scan.ofSource source = .ok scan)
    (hdistinct : ((headers scan.tokens).map (Text.lowercase ·.1)).Nodup)
    (haliases : aliases scan.tokens = [])
    (hdefine : scan.tokens = front ++ ⟨.define, opening⟩ :: inside) :
    ∃ known definition, ∃ rest : Shorter inside,
      readDefinition ⟨source, scan.finish, known⟩ opening inside = .ok (definition, rest) ∧
      final.find? definition.name = some definition ∧
      ∀ header, Completes header definition →
        SameArities known (final.define (headerOnly header)) := by
  obtain ⟨_, headed, named, hother, hheaded, hnamed, hlines⟩ := exists_passes_of_readProgram hread
  cases hscan.symm.trans hother
  obtain rfl := eq_foldl_of_enterHeaders hheaded
  cases (enterAliases_of_aliases_eq_nil haliases _).symm.trans hnamed
  obtain ⟨earlier, definition, later, rest, hdefinition, hcompletes, hfinal⟩ :=
    exists_definition_of_readLines hlines hdefine
  have harities := fun (definition : Procedure) =>
    @arity_headed _ _ hcompletes definition hdistinct procedures
  have hknown := SameArities.foldl_define fun definition (hmem : definition ∈ earlier) =>
    harities definition (List.mem_append_left _ hmem)
  have hall := SameArities.foldl_define harities
  rw [← hfinal] at hall
  have hfind : final.find? definition.name = some definition := by
    rw [← map_name_of_completes hcompletes, List.map_append, List.map_cons] at hdistinct
    have hlater := (List.nodup_cons.mp (List.nodup_append.mp hdistinct).2.1).1
    rw [hfinal, List.foldl_append, List.foldl_cons, Procedures.find?_foldl_define_of_ne,
      Procedures.find?_define, if_pos rfl]
    intro other hother hname
    exact hlater (List.mem_map.mpr ⟨other, hother, hname⟩)
  refine ⟨_, definition, rest, hdefinition, hfind, ?_⟩
  rintro header ⟨body, text, rfl⟩
  have hheader : (final.find? (headerOnly header).name).map (·.arity) =
      some (headerOnly header).arity := congrArg (Option.map Procedure.arity) hfind
  exact (hknown.symm.trans hall).trans (.define hheader)

/-- Every definition of a text keeps its text, from the word `to` through the word `end`. If no two
definitions have the same name and no second names are given, this text alone is read again with the
procedures that have been read. It gives the same procedure and changes nothing else. -/
theorem stored_definition_reads_back {procedures final : Procedures} {source : String}
    {program : List Datum} {scan : Scan} {front inside : List Token} {opening : Span}
    (hread : readProgram procedures source = .ok (program, final))
    (hscan : Scan.ofSource source = .ok scan)
    (hdistinct : ((headers scan.tokens).map (Text.lowercase ·.1)).Nodup)
    (haliases : aliases scan.tokens = [])
    (hdefine : scan.tokens = front ++ ⟨.define, opening⟩ :: inside) :
    ∃ name params body text, SpansDefinition source opening inside name text ∧
      final.find? name = some (.user name params body (some text)) ∧
      DefinesAgain final text (.user name params body (some text)) := by
  obtain ⟨known, definition, rest, hdefinition, hfind, hsame⟩ :=
    exists_readDefinition_of_readProgram hread hscan hdistinct haliases hdefine
  obtain ⟨name, params, body, text, rfl, hspans, hagain⟩ :=
    definesAgain_of_readDefinition hscan haliases hdefine hdefinition hsame
  rw [Procedure.user, Procedures.find?, Text.lowercase_lowercase] at hfind
  exact ⟨name, params, body, text, hspans, hfind, hagain⟩

def callOfLaterDefinition : String :=
  "show [é] ; ß\nto f\noutput g [é]\nend\nto g :y\nend"

theorem later_call_reads_back :
    ∃ program final scan front opening inside,
      readProgram .standard callOfLaterDefinition = .ok (program, final) ∧
      Scan.ofSource callOfLaterDefinition = .ok scan ∧
      scan.tokens = front ++ ⟨.define, opening⟩ :: inside ∧ opening = ⟨15, 17, 2, 1⟩ ∧
      ∃ name params body text, SpansDefinition callOfLaterDefinition opening inside name text ∧
        final.find? name = some (.user name params body (some text)) ∧
        DefinesAgain final text (.user name params body (some text)) := by
  have hscan : Scan.ofSource callOfLaterDefinition = .ok
      ⟨[⟨.symbol "show", ⟨0, 4, 1, 1⟩⟩, ⟨.leftBracket, ⟨5, 6, 1, 6⟩⟩, ⟨.word "é", ⟨6, 8, 1, 7⟩⟩,
          ⟨.rightBracket, ⟨8, 9, 1, 8⟩⟩, ⟨.newline, ⟨14, 15, 1, 13⟩⟩] ++
        ⟨.define, ⟨15, 17, 2, 1⟩⟩ ::
        [⟨.symbol "f", ⟨18, 19, 2, 4⟩⟩, ⟨.newline, ⟨19, 20, 2, 5⟩⟩,
          ⟨.symbol "output", ⟨20, 26, 3, 1⟩⟩, ⟨.symbol "g", ⟨27, 28, 3, 8⟩⟩,
          ⟨.leftBracket, ⟨29, 30, 3, 10⟩⟩, ⟨.word "é", ⟨30, 32, 3, 11⟩⟩,
          ⟨.rightBracket, ⟨32, 33, 3, 12⟩⟩, ⟨.newline, ⟨33, 34, 3, 13⟩⟩,
          ⟨.close, ⟨34, 37, 4, 1⟩⟩, ⟨.newline, ⟨37, 38, 4, 4⟩⟩, ⟨.define, ⟨38, 40, 5, 1⟩⟩,
          ⟨.symbol "g", ⟨41, 42, 5, 4⟩⟩, ⟨.reference "y", ⟨43, 45, 5, 6⟩⟩,
          ⟨.newline, ⟨45, 46, 5, 8⟩⟩, ⟨.close, ⟨46, 49, 6, 1⟩⟩], ⟨49, 49, 6, 4⟩⟩ := by
    with_unfolding_all rfl
  have hread : (readProgram .standard callOfLaterDefinition).toOption.isSome = true := by
    decide +kernel
  cases hresult : readProgram .standard callOfLaterDefinition with
  | error cause =>
    rw [hresult] at hread
    cases hread
  | ok result =>
    exact ⟨result.1, result.2, _, _, _, _, rfl, hscan, rfl, rfl,
      stored_definition_reads_back hresult hscan (by decide +kernel) (by decide +kernel) rfl⟩

end Logo
