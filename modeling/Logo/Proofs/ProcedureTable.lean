import Logo.Proofs.Passes

/-!
# What reading puts into the procedure table

Reading a text enters procedures of the program itself and gives known procedures second names, and
enters nothing else. So what holds of all procedures in a table, and of every procedure that a
program can define, holds of all of them after a text has been read.
-/

namespace Logo

namespace Procedures

def All (property : Procedure → Prop) (procedures : Procedures) : Prop :=
  ∀ name procedure, procedures.find? name = some procedure → property procedure

variable {property : Procedure → Prop} {procedures final : Procedures}

@[simp]
theorem find?_define (procedures : Procedures) (procedure : Procedure) (name : String) :
    (procedures.define procedure).find? name =
      if Text.lowercase name = Text.lowercase procedure.name then some procedure
      else procedures.find? name := by
  rw [find?, define, NameTable.get?_insert, find?]

theorem all_empty : (empty).All property := by
  intro name procedure hfind
  cases hfind

theorem All.define (hall : procedures.All property) {procedure : Procedure}
    (hprocedure : property procedure) : (procedures.define procedure).All property := by
  intro name found hfind
  rw [find?_define] at hfind
  split at hfind
  · cases hfind
    exact hprocedure
  · exact hall name found hfind

theorem All.foldl_define {definitions : List Procedure} (hall : procedures.All property)
    (hdefinitions : ∀ procedure ∈ definitions, property procedure) :
    (definitions.foldl Procedures.define procedures).All property := by
  induction definitions generalizing procedures with
  | nil => exact hall
  | cons procedure rest ih =>
    rw [List.foldl_cons]
    apply ih
    · exact hall.define (hdefinitions procedure List.mem_cons_self)
    · intro other hother
      exact hdefinitions other (List.mem_cons_of_mem procedure hother)

theorem All.nameAgain? (hall : procedures.All property) {name second : String}
    (hagain : procedures.nameAgain? name second = some final) : final.All property := by
  rw [Procedures.nameAgain?, Option.map_eq_some_iff] at hagain
  obtain ⟨procedure, hprocedure, rfl⟩ := hagain
  intro other found hfind
  rw [find?, NameTable.get?_insert] at hfind
  split at hfind
  · cases hfind
    exact hall name procedure hprocedure
  · exact hall other found hfind

end Procedures

/-! ## The passes of a reading -/

section Reading

variable {property : Procedure → Prop}
  (huser : ∀ name params body source, property (.user name params body source))
  {procedures final : Procedures}

include huser

variable {tokens : List Token} {source : String} {lines : List Datum}

omit huser in
/-- Headers are entered as procedures without a body. -/
theorem all_of_enterHeaders (hheader : ∀ name params, property (.user name params [] none))
    (hall : procedures.All property) (henter : enterHeaders procedures tokens = .ok final) :
    final.All property := by
  fun_induction enterHeaders procedures tokens with
  | case1 =>
    cases henter
    exact hall
  | case2 procedures span name nameSpan after ih =>
    exact ih (hall.define (hheader _ _)) henter
  | case3 => cases henter
  | case4 procedures token rest _ ih => exact ih hall henter

omit huser in
theorem all_of_enterAliases (hall : procedures.All property)
    (henter : enterAliases procedures tokens = .ok final) : final.All property := by
  fun_induction enterAliases procedures tokens with
  | case1 =>
    cases henter
    exact hall
  | case2 procedures token rest name second haliased again hagain ih =>
    exact ih (hall.nameAgain? hagain) henter
  | case3 => cases henter
  | case4 procedures token rest hnone ih => exact ih hall henter

theorem property_of_readDefinition {reading : Reading} {opening : Span} {procedure : Procedure}
    {rest : Shorter tokens}
    (hread : readDefinition reading opening tokens = .ok (procedure, rest)) :
    property procedure := by
  rw [readDefinition.eq_def] at hread
  split at hread
  · obtain ⟨⟨body, closing, rest⟩, _, hread⟩ := exists_ok_of_bind hread
    cases hread
    exact huser _ _ _ _
  · cases hread

omit huser in
/-- Lines leave only such definitions in the table as they have found there or hold themselves. -/
theorem all_of_readLines {finish : Span} (hall : procedures.All property)
    (hread : readLines source finish procedures tokens = .ok (lines, final))
    (hdefined : ∀ {reading opening inside procedure rest},
      readDefinition reading opening inside = .ok (procedure, rest) →
        .procedure procedure ∈ lines → property procedure) :
    final.All property := by
  fun_induction readLines source finish procedures tokens generalizing lines with
  | case1 =>
    cases hread
    exact hall
  | case2 procedures tokens opening inside hnext hinside ih =>
    obtain ⟨⟨procedure, rest, hrest⟩, hdefinition, hread⟩ := exists_ok_of_bind hread
    obtain ⟨⟨others, table⟩, hlines, hread⟩ := exists_ok_of_bind hread
    cases hread
    have hprocedure := hdefined hdefinition List.mem_cons_self
    exact ih procedure rest hrest (hall.define hprocedure) hlines
      fun hother hmem => hdefined hother (List.mem_cons_of_mem _ hmem)
  | case3 procedures tokens next others hdefine hnext ih =>
    obtain ⟨⟨line, rest, hrest⟩, _, hread⟩ := exists_ok_of_bind hread
    obtain ⟨⟨lines, table⟩, hlines, hread⟩ := exists_ok_of_bind hread
    cases hread
    exact ih rest hrest hall hlines
      fun hother hmem => hdefined hother (List.mem_cons_of_mem _ hmem)

omit huser in
/-- A program that can be read has tokens from which its lines are read. -/
theorem exists_ok_of_readProgram (hread : readProgram procedures source = .ok (lines, final)) :
    ∃ scan, Scan.ofSource source = .ok scan ∧
      readTokens procedures source scan = .ok (lines, final) := by
  rw [readProgram_eq] at hread
  obtain ⟨scan, hscan, hread⟩ := exists_ok_of_bind hread
  exact ⟨scan, ok_of_mapError hscan, ok_of_mapError hread⟩

omit huser in
/-- The tokens of a program that can be read are gone over three times. -/
theorem exists_passes_of_readProgram (hread : readProgram procedures source = .ok (lines, final)) :
    ∃ scan headed named, Scan.ofSource source = .ok scan ∧
      enterHeaders procedures scan.tokens = .ok headed ∧
      enterAliases headed scan.tokens = .ok named ∧
      readLines source scan.finish named scan.tokens = .ok (lines, final) := by
  obtain ⟨scan, hscan, hread⟩ := exists_ok_of_readProgram hread
  obtain ⟨headed, hheaded, hread⟩ := exists_ok_of_bind hread
  obtain ⟨named, hnamed, hlines⟩ := exists_ok_of_bind hread
  exact ⟨scan, headed, named, hscan, hheaded, hnamed, hlines⟩

omit huser in
/-- A text leaves only such procedures in the table as were there, as have no body yet, or as it
defines. -/
theorem all_of_reading (hheader : ∀ name params, property (.user name params [] none))
    (hall : procedures.All property) (hread : readProgram procedures source = .ok (lines, final))
    (hdefined : ∀ {reading opening inside procedure rest},
      readDefinition reading opening inside = .ok (procedure, rest) →
        .procedure procedure ∈ lines → property procedure) :
    final.All property := by
  obtain ⟨scan, headed, named, -, hheaded, hnamed, hlines⟩ := exists_passes_of_readProgram hread
  have hallHeaded := all_of_enterHeaders hheader hall hheaded
  exact all_of_readLines (all_of_enterAliases hallHeaded hnamed) hlines hdefined

theorem all_of_readProgram (hall : procedures.All property)
    (hread : readProgram procedures source = .ok (lines, final)) : final.All property :=
  all_of_reading (fun name params => huser name params [] none) hall hread
    fun hdefinition _ => property_of_readDefinition huser hdefinition

end Reading

/-! ## Tables over time -/

namespace Procedures

variable {before middle after : Procedures}

/-- The table comes from another one by texts that have been read and by second names. -/
inductive Becomes (before : Procedures) : Procedures → Prop where
  | refl : Becomes before before
  | read {middle after : Procedures} {text : String} {lines : List Datum}
      (hbefore : Becomes before middle)
      (hread : readProgram middle text = .ok (lines, after)) : Becomes before after
  | nameAgain {middle after : Procedures} {name second : String}
      (hbefore : Becomes before middle)
      (hagain : middle.nameAgain? name second = some after) : Becomes before after

theorem Becomes.trans (hfirst : before.Becomes middle) (hsecond : middle.Becomes after) :
    before.Becomes after := by
  induction hsecond with
  | refl => exact hfirst
  | read _ hread ih => exact .read ih hread
  | nameAgain _ hagain ih => exact .nameAgain ih hagain

theorem All.becomes {property : Procedure → Prop} (hall : before.All property)
    (huser : ∀ name params body source, property (.user name params body source))
    (hbecomes : before.Becomes after) : after.All property := by
  induction hbecomes with
  | refl => exact hall
  | read _ hread ih => exact all_of_readProgram huser ih hread
  | nameAgain _ hagain ih => exact ih.nameAgain? hagain

end Procedures

end Logo
