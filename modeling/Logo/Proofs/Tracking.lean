import Logo.Proofs.Parallel

/-!
# What reading keeps

Reading takes tokens that are no opening brackets, and whole lists. So what these two steps keep is
kept by a whole reading, and what holds of literals and lists, and of a call if it holds of the
inputs, holds of everything that is read. Each definition enters the procedure table with a body of
such lines. This is the case of two readings side by side in which the tokens are the same.
-/

namespace Logo

variable {usable : List Token → Prop} {fine : Datum → Prop}

/-- The tokens are of a kind that reading keeps, and what is read is of a kind that is built up from
atoms and lists through calls. -/
structure Tracks (source : String) (usable : List Token → Prop) (fine : Datum → Prop) : Prop where
  take : ∀ {token rest}, usable (token :: rest) → token.kind ≠ .leftBracket → usable rest
  list : ∀ {opening rest items closing after}, usable (⟨.leftBracket, opening⟩ :: rest) →
    readItems source opening rest = .ok (items, closing, after) →
      fine (bracketed source opening closing items) ∧ usable after
  atom : ∀ value, fine (.atom value)
  call : ∀ name inputs span, (∀ input ∈ inputs, fine input) → fine (.call ⟨name, inputs, span⟩)

/-- The same with a view to the calls and to the errors: a call may be fine only with as many inputs
as its procedure has, and in parentheses only if they are usable. An error may be at the end, at the
next token, and where a list is not closed. -/
structure TracksCalls (reading : Reading) (usable : List Token → Prop) (fine : Datum → Prop)
    (located : Span → Prop) : Prop where
  take : ∀ {token rest}, usable (token :: rest) → token.kind ≠ .leftBracket → usable rest
  list : ∀ {opening rest items closing after}, usable (⟨.leftBracket, opening⟩ :: rest) →
    readItems reading.source opening rest = .ok (items, closing, after) →
      fine (bracketed reading.source opening closing items) ∧ usable after
  atom : ∀ value, fine (.atom value)
  reference : ∀ name span, fine (.call ⟨"thing", [.symbol name], span⟩)
  operator : ∀ op span {left right}, fine left → fine right →
    fine (.call ⟨Operator.procedure op, [left, right], span⟩)
  call : ∀ {name procedure inputs} span, reading.procedures.find? name = some procedure →
    inputs.length = procedure.arity → (∀ input ∈ inputs, fine input) →
      fine (.call ⟨name, inputs, span⟩)
  group : ∀ {opening rest}, usable (⟨.leftParen, opening⟩ :: rest) → ∀ name inputs span,
    (∀ input ∈ inputs, fine input) → fine (.call ⟨name, inputs, span⟩)
  finish : located reading.finish
  token : ∀ {token rest}, usable (token :: rest) → located token.span
  unclosed : ∀ {opening rest cause}, usable (⟨.leftBracket, opening⟩ :: rest) →
    readItems reading.source opening rest = .error cause → located cause.span

theorem Tracks.calls {reading : Reading} (htracks : Tracks reading.source usable fine) :
    TracksCalls reading usable fine (fun _ => True) where
  take := htracks.take
  list := htracks.list
  atom := htracks.atom
  reference name span :=
    htracks.call _ _ _ (List.forall_mem_singleton.mpr (htracks.atom (.symbol name)))
  operator op span _ _ hleft hright := htracks.call _ _ _ (by simp [hleft, hright])
  call _ _ _ hinputs := htracks.call _ _ _ hinputs
  group _ name inputs span := htracks.call name inputs span
  finish := trivial
  token _ := trivial
  unclosed _ _ := trivial

theorem forall_mem_of_forall₂ {data others : List Datum}
    (hdata : List.Forall₂ (fun datum _ => fine datum) data others) :
    ∀ datum ∈ data, fine datum := by
  induction hdata with
  | nil => exact List.forall_mem_nil _
  | cons hdatum _ ih => exact List.forall_mem_cons.mpr ⟨hdatum, ih⟩

theorem TracksCalls.pairs {source : String} {finish : Span} {procedures : Procedures}
    {located : Span → Prop} (htracks : TracksCalls ⟨source, finish, procedures⟩ usable fine located)
    (others : Procedures) :
    PairsCalls ⟨source, finish, procedures⟩ ⟨source, finish, others⟩
      (fun tokens others => usable tokens ∧ tokens = others) (fun datum _ => fine datum)
      (fun span _ => located span) where
  kinds hpaired := by rw [hpaired.2]
  take hpaired hkind := by
    obtain ⟨husable, ⟨⟩⟩ := hpaired
    exact ⟨htracks.take husable (TokenKind.isSimple_iff.mp hkind).1, rfl⟩
  list {opening mate rest others} hpaired := by
    obtain ⟨husable, ⟨⟩⟩ := hpaired
    cases hread : readItems source opening rest with
    | error cause => exact .error (htracks.unclosed husable hread)
    | ok found =>
      obtain ⟨hlist, hrest⟩ := htracks.list husable hread
      exact .ok ⟨hlist, hrest, rfl⟩
  atom := htracks.atom
  reference name span _ := htracks.reference name span
  operator op span _ _ _ _ _ hleft hright := htracks.operator op span hleft hright
  call span _ hfind hcount hinputs :=
    htracks.call span hfind hcount (forall_mem_of_forall₂ hinputs)
  group hpaired _ _ name span _ hinputs :=
    htracks.group hpaired.1 name _ span (forall_mem_of_forall₂ hinputs)
  finish := htracks.finish
  token hpaired := htracks.token hpaired.1

/-- What holds of the procedure table, and stays true when a definition enters it. -/
structure TracksLines (source : String) (usable : List Token → Prop) (fine : Datum → Prop)
    (holds : Procedures → Prop) : Prop extends Tracks source usable fine where
  define : ∀ {opening name span rest params body text procedures},
    usable (⟨.define, opening⟩ :: ⟨.symbol name, span⟩ :: rest) → (∀ line ∈ body, fine line) →
      holds procedures → holds (procedures.define (.user name params body text))
  procedure : ∀ {name params body text}, (∀ line ∈ body, fine line) →
    fine (.procedure (.user name params body text))

/-- The same with a view to the calls and the errors, and to the inputs that a definition names. -/
structure TracksTable (source : String) (finish : Span) (usable : List Token → Prop)
    (fine : Datum → Prop) (located : Span → Prop) (holds : Procedures → Prop) : Prop where
  calls : ∀ {procedures}, holds procedures →
    TracksCalls ⟨source, finish, procedures⟩ usable fine located
  define : ∀ {opening name span rest body text procedures},
    usable (⟨.define, opening⟩ :: ⟨.symbol name, span⟩ :: rest) → (∀ line ∈ body, fine line) →
      holds procedures → holds (procedures.define (.user name (takeParams rest).1 body text))
  procedure : ∀ {name params body text}, (∀ line ∈ body, fine line) →
    fine (.procedure (.user name params body text))

section Lines

variable {source : String} {usable : List Token → Prop} {fine : Datum → Prop}
  {located : Span → Prop} {holds : Procedures → Prop} {finish : Span}
  {procedures final : Procedures} {tokens : List Token} {lines : List Datum}

theorem TracksLines.table (htracks : TracksLines source usable fine holds) :
    TracksTable source finish usable fine (fun _ => True) holds where
  calls _ := htracks.toTracks.calls
  define husable hbody := htracks.define husable hbody
  procedure := htracks.procedure

theorem TracksTable.pairs (htracks : TracksTable source finish usable fine located holds) :
    PairsTable source source finish finish (fun tokens others => usable tokens ∧ tokens = others)
      (fun datum _ => fine datum) (fun span _ => located span)
      (fun first second => holds first ∧ SameArities first second) where
  calls htables := (htracks.calls htables.1).pairs _
  arities htables := htables.2
  enter htables hpaired := by
    obtain ⟨husable, ⟨⟩⟩ := hpaired
    exact ⟨(htracks.calls htables.1).take husable (by simp), rfl⟩
  leave htables hpaired := by
    obtain ⟨husable, ⟨⟩⟩ := hpaired
    exact ⟨(htracks.calls htables.1).take husable (by simp), rfl⟩
  define hpaired _ hbody := by
    have hlines := forall_mem_of_forall₂ hbody
    refine ⟨htracks.procedure hlines, fun htables => ?_⟩
    exact ⟨htracks.define hpaired.1 hlines htables.1, htables.2.define_both rfl rfl⟩

variable (htracks : TracksTable source finish usable fine located holds) (husable : usable tokens)
  (hholds : holds procedures)

include htracks husable hholds

theorem TracksTable.readLines
    (hread : readLines source finish procedures tokens = .ok (lines, final)) :
    (∀ line ∈ lines, fine line) ∧ holds final := by
  have hagree := htracks.pairs.readLines ⟨hholds, fun _ => rfl⟩ ⟨husable, rfl⟩
  obtain ⟨hlines, hfinal, -⟩ := hagree.agree.of_eq_ok hread
  exact ⟨forall_mem_of_forall₂ hlines, hfinal⟩

omit hholds in
/-- Wherever the reading of lines stops, the property of the table holds. -/
theorem TracksTable.keeps_lines : Keeps holds (Pass.lines source finish tokens) := by
  induction hlength : tokens.length using Nat.strongRecOn generalizing tokens with
  | ind length ih =>
    intro table htable
    have hcalls := (htracks.calls htable).pairs table
    have hskipped := hcalls.skipNewlines ⟨husable, rfl⟩
    cases hnext : skipNewlines tokens with
    | nil =>
      rw [Pass.lines_of_nil hnext]
      exact htable
    | cons next rest =>
      rw [hnext] at hskipped
      by_cases hdefine : next.kind = .define
      · rw [Pass.lines_of_define hnext hdefine, get_bind_apply]
        obtain ⟨kind, opening⟩ := next
        subst hdefine
        have hagree := hcalls.readDefinition (fun _ => rfl) opening opening (hcalls.token hskipped)
          (htracks.pairs.enter ⟨htable, fun _ => rfl⟩ hskipped)
        cases hread : readDefinition ⟨source, finish, table⟩ opening rest with
        | error cause => exact htable
        | ok definition =>
          obtain ⟨name, place, _, inside, _, body, _, closing, _, rfl, -, hbody, hfound, -,
            hclosing⟩ := hagree.agree.of_eq_ok hread
          have hshorter :=
            length_lt_of_lt_of_lt (length_lt_of_skipNewlines hnext) definition.2.property
          have hentered : holds (table.define definition.1) :=
            hfound ▸ htracks.define hskipped.1 (forall_mem_of_forall₂ hbody) htable
          have hrest := (htracks.pairs.leave ⟨htable, fun _ => rfl⟩ hclosing).1
          exact Keeps.bind (ih _ (hlength ▸ hshorter) hrest rfl) (fun _ => .pure _) _ hentered
      · rw [Pass.lines_of_next hnext hdefine, get_bind_apply]
        have hagree := hcalls.readExpression (fun _ => rfl) hskipped
        cases hread : readExpression ⟨source, finish, table⟩ (next :: rest) with
        | error cause => exact htable
        | ok found =>
          have hshorter := length_lt_of_skipNewlines_of_lt hnext found.2.property
          have hrest := (hagree.agree.of_eq_ok hread).2.1
          exact Keeps.bind (ih _ (hlength ▸ hshorter) hrest rfl) (fun _ => .pure _) _ htable

omit htracks husable hholds in
theorem TracksLines.readLines (htracks : TracksLines source usable fine holds)
    (husable : usable tokens) (hholds : holds procedures)
    (hread : readLines source finish procedures tokens = .ok (lines, final)) :
    (∀ line ∈ lines, fine line) ∧ holds final :=
  TracksTable.readLines htracks.table husable hholds hread

end Lines

end Logo
