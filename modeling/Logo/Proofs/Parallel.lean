import Logo.Proofs.ProcedureTable
import Mathlib.Data.List.Forall2

/-!
# Reading two texts side by side

Two sequences of tokens that show the same kinds one after the other are read in the same way,
whatever stands in them besides: both readings fail, or both succeed and leave tokens that are alike
again. Only two things have to be known of the sequences, that they stay alike when a token is taken
from both, and when a list is. What is read is alike too if atoms, lists and calls are. A definition
is read up to its end even where the sequences are not alike behind it. Where reading fails, the
error has the place of a token that has been met, or that of the end.
-/

namespace Logo

variable {paired : List Token → List Token → Prop} {alike : Datum → Datum → Prop}

/-- Both results are errors, or both are values of which this holds. -/
inductive Agree {ε α β : Type} (related : α → β → Prop) : Except ε α → Except ε β → Prop where
  | ok {value : α} {other : β} (hvalue : related value other) :
      Agree related (.ok value) (.ok other)
  | error {cause other : ε} : Agree related (.error cause) (.error other)

namespace Agree

variable {ε α β α' β' : Type} {related : α → β → Prop} {later : α' → β' → Prop}
  {result : Except ε α} {other : Except ε β}

section

variable (hagree : Agree related result other)

include hagree

theorem bind {next : α → Except ε α'} {otherNext : β → Except ε β'}
    (hnext : ∀ value value', related value value' → Agree later (next value) (otherNext value')) :
    Agree later (result >>= next) (other >>= otherNext) := by
  cases hagree with
  | ok hvalue => exact hnext _ _ hvalue
  | error => exact .error

theorem imp {weaker : α → β → Prop}
    (hweaker : ∀ value value', related value value' → weaker value value') :
    Agree weaker result other := by
  cases hagree with
  | ok hvalue => exact .ok (hweaker _ _ hvalue)
  | error => exact .error

theorem and_eq :
    Agree (fun value value' => related value value' ∧ result = .ok value ∧ other = .ok value')
      result other := by
  cases hagree with
  | ok hvalue => exact .ok ⟨hvalue, rfl, rfl⟩
  | error => exact .error

theorem map {change : α → α'} {otherChange : β → β'}
    (hchange : ∀ value value', related value value' →
      later (change value) (otherChange value')) :
    Agree later (result.map change) (other.map otherChange) := by
  cases hagree with
  | ok hvalue => exact .ok (hchange _ _ hvalue)
  | error => exact .error

theorem mapError {ε' : Type} {change : ε → ε'} :
    Agree related (result.mapError change) (other.mapError change) := by
  cases hagree with
  | ok hvalue => exact .ok hvalue
  | error => exact .error

end

theorem refl {related : α → α → Prop}
    (hresult : ∀ value, result = .ok value → related value value) :
    Agree related result result := by
  cases result with
  | ok value => exact .ok (hresult value rfl)
  | error cause => exact .error

theorem symm (hagree : Agree related result other) :
    Agree (fun value' value => related value value') other result := by
  cases hagree with
  | ok hvalue => exact .ok hvalue
  | error => exact .error

theorem exists_ok {value : α} (hagree : Agree related result other) (hresult : result = .ok value) :
    ∃ value', other = .ok value' ∧ related value value' := by
  subst hresult
  cases hagree with
  | ok hvalue => exact ⟨_, rfl, hvalue⟩

theorem of_exists (hresult : ∀ value, result = .ok value → ∃ value', other = .ok value' ∧
      related value value') (hother : ∀ value', other = .ok value' → ∃ value, result = .ok value) :
    Agree related result other := by
  cases result with
  | ok value =>
    obtain ⟨value', rfl, hvalue⟩ := hresult value rfl
    exact .ok hvalue
  | error cause =>
    cases other with
    | error cause' => exact .error
    | ok value' =>
      obtain ⟨value, hvalue⟩ := hother value' rfl
      cases hvalue

/-- What has been read in one way only is related to itself. -/
theorem of_eq_ok {related : α → α → Prop} {value : α} (hagree : Agree related result result)
    (hresult : result = .ok value) : related value value := by
  subst hresult
  cases hagree with
  | ok hvalue => exact hvalue

end Agree

/-- Both readings fail, at places that belong together, or both have values of which this holds. -/
inductive AgreeAt {α β : Type} (located : Span → Span → Prop) (related : α → β → Prop) :
    Except ParseError α → Except ParseError β → Prop where
  | ok {value : α} {other : β} (hvalue : related value other) :
      AgreeAt located related (.ok value) (.ok other)
  | error {cause other : ParseError} (hplace : located cause.span other.span) :
      AgreeAt located related (.error cause) (.error other)

section

variable {α β α' β' : Type} {located : Span → Span → Prop} {related : α → β → Prop}
  {result : Except ParseError α} {other : Except ParseError β}

theorem AgreeAt.bind {later : α' → β' → Prop} {next : α → Except ParseError α'}
    {otherNext : β → Except ParseError β'} (hagree : AgreeAt located related result other)
    (hnext : ∀ value value', related value value' →
      AgreeAt located later (next value) (otherNext value')) :
    AgreeAt located later (result >>= next) (other >>= otherNext) := by
  cases hagree with
  | ok hvalue => exact hnext _ _ hvalue
  | error hplace => exact .error hplace

theorem AgreeAt.agree (hagree : AgreeAt located related result other) :
    Agree related result other := by
  cases hagree with
  | ok hvalue => exact .ok hvalue
  | error hplace => exact .error

theorem Agree.anywhere (hagree : Agree related result other) :
    AgreeAt (fun _ _ => True) related result other := by
  cases hagree with
  | ok hvalue => exact .ok hvalue
  | error => exact .error trivial

end

def Both {α β : Type} {short later : List Token → Prop} (alike : α → β → Prop)
    (paired : List Token → List Token → Prop) (result : α × { rest : List Token // short rest })
    (other : β × { rest : List Token // later rest }) : Prop :=
  alike result.1 other.1 ∧ paired result.2 other.2

def TokenKind.isSimple : TokenKind → Bool
  | .leftBracket | .define | .close => false
  | _ => true

theorem TokenKind.isSimple_iff {kind : TokenKind} :
    kind.isSimple = true ↔ kind ≠ .leftBracket ∧ kind ≠ .define ∧ kind ≠ .close := by
  cases kind <;> simp [isSimple]

/-- Sequences of tokens that show the same kinds, also when a token has been taken from them. -/
structure PairsTokens (paired : List Token → List Token → Prop) : Prop where
  kinds : ∀ {tokens others}, paired tokens others →
    tokens.head?.map (·.kind) = others.head?.map (·.kind)
  take : ∀ {token mate rest others}, paired (token :: rest) (mate :: others) →
    token.kind.isSimple = true → paired rest others

namespace PairsTokens

variable {paired : List Token → List Token → Prop} (hpairs : PairsTokens paired)

variable {others tokens : List Token}

include hpairs

theorem eq_nil (hpaired : paired [] others) : others = [] := by
  cases others with
  | nil => rfl
  | cons mate others => cases hpairs.kinds hpaired

theorem exists_cons {token : Token} {rest : List Token} (hpaired : paired (token :: rest) others) :
    ∃ span after, others = ⟨token.kind, span⟩ :: after := by
  cases others with
  | nil => cases hpairs.kinds hpaired
  | cons mate others =>
    have hkind := hpairs.kinds hpaired
    simp only [List.head?_cons, Option.map_some, Option.some.injEq] at hkind
    exact ⟨mate.span, others, by rw [hkind]⟩

theorem exists_cons_left {mate : Token} (hpaired : paired tokens (mate :: others)) :
    ∃ span rest, tokens = ⟨mate.kind, span⟩ :: rest := by
  cases tokens with
  | nil => cases hpairs.eq_nil hpaired
  | cons token rest =>
    obtain ⟨span, after, hothers⟩ := hpairs.exists_cons hpaired
    cases hothers
    exact ⟨token.span, rest, rfl⟩

/-- Line ends are skipped on both sides. -/
theorem skipNewlines (hpaired : paired tokens others) :
    paired (skipNewlines tokens) (skipNewlines others) := by
  induction tokens generalizing others with
  | nil =>
    obtain rfl := hpairs.eq_nil hpaired
    exact hpaired
  | cons token rest ih =>
    obtain ⟨span, after, rfl⟩ := hpairs.exists_cons hpaired
    obtain ⟨kind, place⟩ := token
    cases hnewline : kind.isNewline with
    | true =>
      simp only [Logo.skipNewlines, List.dropWhile_cons, hnewline, if_true]
      refine ih (hpairs.take hpaired ?_)
      cases kind <;> first | rfl | cases hnewline
    | false =>
      simp only [Logo.skipNewlines, List.dropWhile_cons, hnewline, Bool.false_eq_true, if_false]
      exact hpaired

/-- The same parameters are taken on both sides. -/
theorem takeParams (tokens others : List Token) (hpaired : paired tokens others) :
    (takeParams tokens).1 = (takeParams others).1 ∧
      paired (takeParams tokens).2 (takeParams others).2 := by
  induction tokens generalizing others with
  | nil =>
    obtain rfl := hpairs.eq_nil hpaired
    exact ⟨rfl, hpaired⟩
  | cons token rest ih =>
    obtain ⟨span, after, rfl⟩ := hpairs.exists_cons hpaired
    obtain ⟨kind, place⟩ := token
    cases kind with
    | reference name =>
      obtain ⟨hparams, hrest⟩ := ih after (hpairs.take hpaired rfl)
      simp only [Logo.takeParams]
      exact ⟨congrArg _ hparams, hrest⟩
    | define | close | nil | boolean _ | number _ | quote _ | operator _ | symbol _ | word _
    | leftParen | rightParen | leftBracket | rightBracket | newline => exact ⟨rfl, hpaired⟩

end PairsTokens

/-- The same when a list has been taken from the tokens, and data that are built up alike. -/
structure Pairs (source other : String) (paired : List Token → List Token → Prop)
    (alike : Datum → Datum → Prop) : Prop extends PairsTokens paired where
  list : ∀ {opening mate rest others},
    paired (⟨.leftBracket, opening⟩ :: rest) (⟨.leftBracket, mate⟩ :: others) →
      Agree (fun found found' =>
          alike (bracketed source opening found.2.1 found.1)
            (bracketed other mate found'.2.1 found'.1) ∧
          paired found.2.2.val found'.2.2.val)
        (readItems source opening rest) (readItems other mate others)
  atom : ∀ value, alike (.atom value) (.atom value)
  call : ∀ {inputs others}, List.Forall₂ alike inputs others → ∀ name span mate,
    alike (.call ⟨name, inputs, span⟩) (.call ⟨name, others, mate⟩)

/-- The same with a view to the calls and to the errors: calls may be alike only with as many inputs
as the procedure has, and in parentheses only if these are paired. Errors may be at the end, at the
next token, and where a list is not closed. -/
structure PairsCalls (first second : Reading) (paired : List Token → List Token → Prop)
    (alike : Datum → Datum → Prop) (located : Span → Span → Prop) : Prop
    extends PairsTokens paired where
  list : ∀ {opening mate rest others},
    paired (⟨.leftBracket, opening⟩ :: rest) (⟨.leftBracket, mate⟩ :: others) →
      AgreeAt located (fun found found' =>
          alike (bracketed first.source opening found.2.1 found.1)
            (bracketed second.source mate found'.2.1 found'.1) ∧
          paired found.2.2.val found'.2.2.val)
        (readItems first.source opening rest) (readItems second.source mate others)
  atom : ∀ value, alike (.atom value) (.atom value)
  reference : ∀ name span mate,
    alike (.call ⟨"thing", [.symbol name], span⟩) (.call ⟨"thing", [.symbol name], mate⟩)
  operator : ∀ op span mate {left left' right right'}, alike left left' → alike right right' →
    alike (.call ⟨Operator.procedure op, [left, right], span⟩)
      (.call ⟨Operator.procedure op, [left', right'], mate⟩)
  call : ∀ {name procedure inputs others} span mate,
    first.procedures.find? name = some procedure → inputs.length = procedure.arity →
      List.Forall₂ alike inputs others →
        alike (.call ⟨name, inputs, span⟩) (.call ⟨name, others, mate⟩)
  group : ∀ {opening mate rest others},
    paired (⟨.leftParen, opening⟩ :: rest) (⟨.leftParen, mate⟩ :: others) →
      ∀ {inputs inputs'} name span span', List.Forall₂ alike inputs inputs' →
        alike (.call ⟨name, inputs, span⟩) (.call ⟨name, inputs', span'⟩)
  finish : located first.finish second.finish
  token : ∀ {token mate rest others}, paired (token :: rest) (mate :: others) →
    located token.span mate.span

/-- Without a view to them. -/
theorem Pairs.calls {first second : Reading}
    (hpairs : Pairs first.source second.source paired alike) :
    PairsCalls first second paired alike (fun _ _ => True) where
  toPairsTokens := hpairs.toPairsTokens
  list hpaired := (hpairs.list hpaired).anywhere
  atom := hpairs.atom
  reference name := hpairs.call (.cons (hpairs.atom (.symbol name)) .nil) _
  operator _ _ _ _ _ _ _ hleft hright := hpairs.call (.cons hleft (.cons hright .nil)) _ _ _
  call span mate _ _ hinputs := hpairs.call hinputs _ span mate
  group _ _ _ name span mate hinputs := hpairs.call hinputs name span mate
  finish := trivial
  token _ := trivial

/-! ## What comes behind line ends -/

section Next

variable {reading : Reading} {opening : Span} {tokens rest : List Token} {next : Token}

theorem readGroup_of_symbol {name : String} {span : Span}
    (hnext : skipNewlines tokens = ⟨.symbol name, span⟩ :: rest) :
    readGroup reading opening tokens =
      if reading.procedures.contains name then
        readGroupInputs reading opening rest >>= fun result =>
          .ok (.call ⟨name, result.1, span⟩, ⟨result.2.val,
            length_le_of_lt_of_le (length_lt_of_skipNewlines hnext) result.2.property⟩)
      else readParenthesized reading tokens := by
  rw [readGroup.eq_def]
  split
  · rename_i hother
    cases hnext.symm.trans hother
    rfl
  · rename_i hnone
    exact absurd hnext (hnone _ _ _)

theorem readGroup_of_ne
    (hnext : ∀ name span inside, skipNewlines tokens ≠ ⟨.symbol name, span⟩ :: inside) :
    readGroup reading opening tokens = readParenthesized reading tokens := by
  rw [readGroup.eq_def]
  split
  · rename_i hother
    exact absurd hother (hnext _ _ _)
  · rfl

theorem readGroupInputs_of_nil (hnext : skipNewlines tokens = []) :
    readGroupInputs reading opening tokens = .error ⟨.unterminatedGroup, opening⟩ := by
  rw [readGroupInputs.eq_def]
  split
  · rfl
  all_goals
    rename_i hother
    cases hnext.symm.trans hother

theorem readGroupInputs_of_close (hnext : skipNewlines tokens = next :: rest)
    (hkind : next.kind = .rightParen) :
    readGroupInputs reading opening tokens =
      .ok ([], ⟨rest, Nat.le_of_lt (length_lt_of_skipNewlines hnext)⟩) := by
  obtain ⟨kind, span⟩ := next
  subst hkind
  rw [readGroupInputs.eq_def]
  split
  all_goals
    rename_i hother
    cases hnext.symm.trans hother
  · rfl
  · rename_i hnone
    exact absurd rfl (hnone _)

theorem readGroupInputs_of_next (hnext : skipNewlines tokens = next :: rest)
    (hkind : next.kind ≠ .rightParen) :
    readGroupInputs reading opening tokens =
      readLevel reading .equality (next :: rest) >>= fun first =>
        readGroupInputs reading opening first.2.val >>= fun others =>
          .ok (first.1 :: others.1, ⟨others.2.val,
            length_le_of_lt_of_le (length_lt_of_skipNewlines_of_lt hnext first.2.property)
              others.2.property⟩) := by
  rw [readGroupInputs.eq_def]
  split
  all_goals
    rename_i hother
    cases hnext.symm.trans hother
  · exact absurd rfl hkind
  · rfl

variable {name : String}

theorem readBody_of_nil (hnext : skipNewlines tokens = []) :
    readBody reading name opening tokens = .error ⟨.missingEnd name, opening⟩ := by
  rw [readBody.eq_def]
  split
  · rfl
  all_goals
    rename_i hother
    cases hnext.symm.trans hother

section

variable (hnext : skipNewlines tokens = next :: rest)

include hnext

theorem readBody_of_close (hkind : next.kind = .close) :
    readBody reading name opening tokens =
      .ok ([], next.span, ⟨rest, length_lt_of_skipNewlines hnext⟩) := by
  obtain ⟨kind, span⟩ := next
  subst hkind
  rw [readBody.eq_def]
  split
  all_goals
    rename_i hother
    cases hnext.symm.trans hother
  · rfl
  · rename_i hnone _
    exact absurd rfl (hnone _)

theorem readBody_of_define (hkind : next.kind = .define) :
    readBody reading name opening tokens = .error ⟨.nestedDefinition name, next.span⟩ := by
  obtain ⟨kind, span⟩ := next
  subst hkind
  rw [readBody.eq_def]
  split
  all_goals
    rename_i hother
    cases hnext.symm.trans hother
  · rfl
  · rename_i hnone
    exact absurd rfl (hnone _)

theorem readBody_of_next (hclose : next.kind ≠ .close) (hdefine : next.kind ≠ .define) :
    readBody reading name opening tokens =
      readExpression reading (next :: rest) >>= fun line =>
        readBody reading name opening line.2.val >>= fun others =>
          .ok (line.1 :: others.1, others.2.1, ⟨others.2.2.val,
            length_lt_of_lt_of_lt (length_lt_of_skipNewlines_of_lt hnext line.2.property)
              others.2.2.property⟩) := by
  rw [readBody.eq_def]
  split
  all_goals
    rename_i hother
    cases hnext.symm.trans hother
  · exact absurd rfl hclose
  · exact absurd rfl hdefine
  · rfl

end

variable {source : String} {finish : Span} {procedures : Procedures}

theorem readLines_of_nil (hnext : skipNewlines tokens = []) :
    readLines source finish procedures tokens = .ok ([], procedures) := by
  rw [readLines.eq_def]
  split
  · rfl
  all_goals
    rename_i hother
    cases hnext.symm.trans hother

theorem readLines_of_define (hnext : skipNewlines tokens = next :: rest)
    (hkind : next.kind = .define) :
    readLines source finish procedures tokens =
      readDefinition ⟨source, finish, procedures⟩ next.span rest >>= fun definition =>
        readLines source finish (procedures.define definition.1) definition.2.val >>= fun others =>
          .ok (.procedure definition.1 :: others.1, others.2) := by
  obtain ⟨kind, span⟩ := next
  subst hkind
  rw [readLines.eq_def]
  split
  all_goals
    rename_i hother
    cases hnext.symm.trans hother
  · rfl
  · rename_i hnone
    exact absurd rfl (hnone _)

theorem readLines_of_next (hnext : skipNewlines tokens = next :: rest)
    (hkind : next.kind ≠ .define) :
    readLines source finish procedures tokens =
      readExpression ⟨source, finish, procedures⟩ (next :: rest) >>= fun line =>
        readLines source finish procedures line.2.val >>= fun others =>
          .ok (line.1 :: others.1, others.2) := by
  rw [readLines.eq_def]
  split
  all_goals
    rename_i hother
    cases hnext.symm.trans hother
  · exact absurd rfl hkind
  · rfl

end Next

/-! ## Expressions -/

/-- Whichever of the functions reads them, the two sequences are read alike. -/
structure ReadAlike (first second : Reading) (paired : List Token → List Token → Prop)
    (alike : Datum → Datum → Prop) (located : Span → Span → Prop) (tokens others : List Token) :
    Prop where
  operand : ∀ level, AgreeAt located (Both alike paired) (readOperand first level tokens)
    (readOperand second level others)
  level : ∀ level, AgreeAt located (Both alike paired) (readLevel first level tokens)
    (readLevel second level others)
  operators : ∀ level {left mate}, alike left mate →
    AgreeAt located (Both alike paired) (readOperators first level left tokens)
      (readOperators second level mate others)
  inputs : ∀ count,
    AgreeAt located (Both (fun inputs inputs' => inputs.length = count ∧
        List.Forall₂ alike inputs inputs') paired)
      (readInputs first count tokens) (readInputs second count others)
  group : ∀ opening mate,
    paired (⟨.leftParen, opening⟩ :: tokens) (⟨.leftParen, mate⟩ :: others) →
      AgreeAt located (Both alike paired) (readGroup first opening tokens)
        (readGroup second mate others)
  groupInputs : ∀ opening mate, located opening mate →
    AgreeAt located (Both (List.Forall₂ alike) paired) (readGroupInputs first opening tokens)
      (readGroupInputs second mate others)

def SameArities (first second : Procedures) : Prop :=
  ∀ name, (first.find? name).map (·.arity) = (second.find? name).map (·.arity)

namespace SameArities

variable {first second third : Procedures}

variable {definition : Procedure}

theorem symm (hsame : SameArities first second) : SameArities second first :=
  fun name => (hsame name).symm

theorem trans (hfirst : SameArities first second) (hsecond : SameArities second third) :
    SameArities first third :=
  fun name => (hfirst name).trans (hsecond name)

theorem contains (hsame : SameArities first second) (name : String) :
    first.contains name = second.contains name := by
  have hname := congrArg Option.isSome (hsame name)
  rwa [Option.isSome_map, Option.isSome_map] at hname

theorem define_both (hsame : SameArities first second) {mate : Procedure}
    (hname : definition.name = mate.name) (harity : definition.arity = mate.arity) :
    SameArities (first.define definition) (second.define mate) := by
  intro name
  rw [Procedures.find?_define, Procedures.find?_define, hname]
  split
  · exact congrArg some harity
  · exact hsame name

/-- A procedure that takes the place of another with as many inputs. -/
theorem define (hdefinition : (first.find? definition.name).map (·.arity) = some definition.arity) :
    SameArities first (first.define definition) := by
  intro name
  rw [Procedures.find?_define]
  split
  · rename_i hname
    rw [Option.map_some, ← hdefinition, Procedures.find?, Procedures.find?, hname]
  · rfl

end SameArities

namespace PairsCalls

section Expressions

variable {first second : Reading} {paired : List Token → List Token → Prop}
  {alike : Datum → Datum → Prop} {located : Span → Span → Prop}
  (hpairs : PairsCalls first second paired alike located)
  (hsame : SameArities first.procedures second.procedures) {tokens others : List Token}
  (hpaired : paired tokens others)
  (hshorter : ∀ rest after, rest.length < tokens.length → paired rest after →
    ReadAlike first second paired alike located rest after)

include hpairs hsame hpaired hshorter

/-- Paired tokens begin with primaries that are alike. -/
theorem readPrimary :
    AgreeAt located (Both alike paired) (readPrimary first tokens) (readPrimary second others) := by
  rw [Logo.readPrimary.eq_def first tokens, Logo.readPrimary.eq_def second others]
  cases tokens with
  | nil =>
    obtain rfl := hpairs.eq_nil hpaired
    exact .error hpairs.finish
  | cons token rest =>
    obtain ⟨span, after, rfl⟩ := hpairs.exists_cons hpaired
    obtain ⟨kind, place⟩ := token
    have hlength : rest.length < (⟨kind, place⟩ :: rest : List Token).length :=
      Nat.lt_succ_self _
    cases kind with
    | number value => exact .ok ⟨hpairs.atom _, hpairs.take hpaired rfl⟩
    | boolean value => exact .ok ⟨hpairs.atom _, hpairs.take hpaired rfl⟩
    | nil => exact .ok ⟨hpairs.atom _, hpairs.take hpaired rfl⟩
    | quote text => exact .ok ⟨hpairs.atom _, hpairs.take hpaired rfl⟩
    | reference name =>
      exact .ok ⟨hpairs.reference name place span, hpairs.take hpaired rfl⟩
    | symbol name =>
      have hrest := hpairs.take hpaired rfl
      have hname := hsame name
      dsimp only
      cases hfirst : first.procedures.find? name with
      | none =>
        have hsecond : second.procedures.find? name = none := by
          simpa [hfirst] using hname.symm
        rw [hsecond]
        exact .ok ⟨hpairs.atom _, hrest⟩
      | some procedure =>
        obtain ⟨mate, hsecond, harity⟩ : ∃ mate, second.procedures.find? name = some mate ∧
            mate.arity = procedure.arity := by simpa [hfirst] using hname.symm
        rw [hsecond]
        dsimp only
        rw [harity]
        apply ((hshorter rest after hlength hrest).inputs _).bind
        rintro inputs inputs' ⟨⟨hcount, hinputs⟩, hafter⟩
        exact .ok ⟨hpairs.call place span hfirst hcount hinputs, hafter⟩
    | leftBracket =>
      apply (hpairs.list hpaired).bind
      rintro found found' ⟨hlist, hafter⟩
      exact .ok ⟨hlist, hafter⟩
    | leftParen =>
      have hrest := hpairs.take hpaired rfl
      apply ((hshorter rest after hlength hrest).group place span hpaired).bind
      rintro datum datum' ⟨hdatum, hafter⟩
      exact .ok ⟨hdatum, hafter⟩
    | define | close | word _ | operator _ | rightParen | rightBracket | newline =>
      exact .error (hpairs.token hpaired)

omit hsame in
/-- Paired tokens go on with the same operators. -/
theorem readOperators (level : Level) {left mate : Datum} (hleft : alike left mate) :
    AgreeAt located (Both alike paired) (readOperators first level left tokens)
      (readOperators second level mate others) := by
  have hstay : ∀ {tokens others}, paired tokens others →
      AgreeAt located (Both alike paired) (.ok (left, Remaining.all tokens) : Except ParseError _)
        (.ok (mate, Remaining.all others)) := fun hpaired => .ok ⟨hleft, hpaired⟩
  rw [Logo.readOperators.eq_def first level left tokens,
    Logo.readOperators.eq_def second level mate others]
  cases tokens with
  | nil =>
    obtain rfl := hpairs.eq_nil hpaired
    exact hstay hpaired
  | cons token rest =>
    obtain ⟨span, after, rfl⟩ := hpairs.exists_cons hpaired
    obtain ⟨kind, place⟩ := token
    cases kind with
    | operator op =>
      dsimp only
      split
      · have hrest := hpairs.take hpaired rfl
        apply ((hshorter rest after (Nat.lt_succ_self _) hrest).operand _).bind
        rintro ⟨right, middle⟩ ⟨right', middle'⟩ ⟨hright, hmiddle⟩
        have hcall := hpairs.operator op place span hleft hright
        have hlength := Nat.lt_succ_of_lt middle.property
        apply ((hshorter middle middle' hlength hmiddle).operators _ hcall).bind
        rintro datum datum' ⟨hdatum, hafter⟩
        exact .ok ⟨hdatum, hafter⟩
      · exact hstay hpaired
    | define | close | nil | boolean _ | number _ | quote _ | reference _ | symbol _ | word _
    | leftParen | rightParen | leftBracket | rightBracket | newline => exact hstay hpaired

omit hpairs hsame hpaired in
theorem readLevel_of_operand {level : Level}
    (hoperand : AgreeAt located (Both alike paired) (readOperand first level tokens)
      (readOperand second level others)) :
    AgreeAt located (Both alike paired) (readLevel first level tokens)
      (readLevel second level others) := by
  rw [readLevel, readLevel]
  apply hoperand.bind
  rintro ⟨left, middle⟩ ⟨mate, middle'⟩ ⟨hleft, hmiddle⟩
  apply ((hshorter middle middle' middle.property hmiddle).operators _ hleft).bind
  rintro datum datum' ⟨hdatum, hafter⟩
  exact .ok ⟨hdatum, hafter⟩

/-- From the tightest operators to the loosest ones. -/
theorem readOperand (level : Level) :
    AgreeAt located (Both alike paired) (readOperand first level tokens)
      (readOperand second level others) := by
  have hfactor : AgreeAt located (Both alike paired) (Logo.readOperand first .factor tokens)
      (Logo.readOperand second .factor others) := by
    rw [Logo.readOperand, Logo.readOperand]
    exact hpairs.readPrimary hsame hpaired hshorter
  have hterm : AgreeAt located (Both alike paired) (Logo.readOperand first .term tokens)
      (Logo.readOperand second .term others) := by
    rw [Logo.readOperand, Logo.readOperand]
    exact readLevel_of_operand hshorter hfactor
  have hcomparison : AgreeAt located (Both alike paired) (Logo.readOperand first .comparison tokens)
      (Logo.readOperand second .comparison others) := by
    rw [Logo.readOperand, Logo.readOperand]
    exact readLevel_of_operand hshorter hterm
  have hequality : AgreeAt located (Both alike paired) (Logo.readOperand first .equality tokens)
      (Logo.readOperand second .equality others) := by
    rw [Logo.readOperand, Logo.readOperand]
    exact readLevel_of_operand hshorter hcomparison
  cases level <;> assumption

theorem readLevel (level : Level) :
    AgreeAt located (Both alike paired) (readLevel first level tokens)
      (readLevel second level others) :=
  readLevel_of_operand hshorter (hpairs.readOperand hsame hpaired hshorter level)

/-- Newlines may be skipped before an expression. -/
theorem readLevel_skipNewlines (level : Level) :
    AgreeAt located (Both alike paired) (Logo.readLevel first level (Logo.skipNewlines tokens))
      (Logo.readLevel second level (Logo.skipNewlines others)) := by
  have hskip := length_skipNewlines_le tokens
  apply hpairs.readLevel hsame (hpairs.skipNewlines hpaired)
  intro rest after hrest
  exact hshorter rest after (Nat.lt_of_lt_of_le hrest hskip)

/-- As many inputs are read on both sides. -/
theorem readInputs (count : Nat) :
    AgreeAt located (Both (fun inputs inputs' => inputs.length = count ∧
        List.Forall₂ alike inputs inputs') paired)
      (readInputs first count tokens) (readInputs second count others) := by
  cases count with
  | zero =>
    rw [Logo.readInputs, Logo.readInputs]
    exact .ok ⟨⟨rfl, .nil⟩, hpaired⟩
  | succ count =>
    rw [Logo.readInputs, Logo.readInputs]
    apply (hpairs.readLevel hsame hpaired hshorter .equality).bind
    rintro ⟨input, middle⟩ ⟨input', middle'⟩ ⟨hinput, hmiddle⟩
    apply ((hshorter middle middle' middle.property hmiddle).inputs count).bind
    rintro inputs inputs' ⟨⟨hcount, hinputs⟩, hrest⟩
    exact .ok ⟨⟨congrArg (· + 1) hcount, .cons hinput hinputs⟩, hrest⟩

omit hsame hpaired hshorter in
theorem nextSpan (hpaired : paired tokens others) :
    located (nextSpan first.finish tokens) (nextSpan second.finish others) := by
  cases tokens with
  | nil =>
    obtain rfl := hpairs.eq_nil hpaired
    exact hpairs.finish
  | cons token rest =>
    obtain ⟨span, after, rfl⟩ := hpairs.exists_cons hpaired
    exact hpairs.token hpaired

theorem readParenthesized :
    AgreeAt located (Both alike paired) (readParenthesized first tokens)
      (readParenthesized second others) := by
  rw [Logo.readParenthesized, Logo.readParenthesized]
  apply (hpairs.readLevel_skipNewlines hsame hpaired hshorter .equality).bind
  rintro ⟨datum, middle⟩ ⟨datum', middle'⟩ ⟨hdatum, hmiddle⟩
  have hskipped := hpairs.skipNewlines hmiddle
  dsimp only
  split
  · rename_i hnext
    rw [hnext] at hskipped
    obtain ⟨span, after, hnext'⟩ := hpairs.exists_cons hskipped
    rw [hnext'] at hskipped
    split
    · rename_i hclose
      rw [hnext'] at hclose
      cases hclose
      exact .ok ⟨hdatum, hpairs.take hskipped rfl⟩
    · rename_i hclose
      exact absurd hnext' (hclose _ _)
  · rename_i hnone
    split
    · rename_i hnext
      rw [hnext] at hskipped
      obtain ⟨span, rest, hclose⟩ := hpairs.exists_cons_left hskipped
      exact absurd hclose (hnone _ _)
    · exact .error (hpairs.nextSpan hskipped)

/-- Groups are read alike. -/
theorem readGroup (opening mate : Span)
    (hopening : paired (⟨.leftParen, opening⟩ :: tokens) (⟨.leftParen, mate⟩ :: others)) :
    AgreeAt located (Both alike paired) (readGroup first opening tokens)
      (readGroup second mate others) := by
  have hskipped := hpairs.skipNewlines hpaired
  have hparenthesized := hpairs.readParenthesized hsame hpaired hshorter
  by_cases hsymbol : ∃ name span inside,
      Logo.skipNewlines tokens = ⟨.symbol name, span⟩ :: inside
  · obtain ⟨name, span, inside, hnext⟩ := hsymbol
    rw [hnext] at hskipped
    obtain ⟨span', inside', hnext'⟩ := hpairs.exists_cons hskipped
    rw [hnext'] at hskipped
    rw [readGroup_of_symbol hnext, readGroup_of_symbol hnext', hsame.contains name]
    split
    · have hinside := hpairs.take hskipped rfl
      have hlength := length_lt_of_skipNewlines hnext
      apply ((hshorter inside inside' hlength hinside).groupInputs opening mate
        (hpairs.token hopening)).bind
      rintro inputs inputs' ⟨hinputs, hrest⟩
      exact .ok ⟨hpairs.group hopening _ _ _ hinputs, hrest⟩
    · exact hparenthesized
  · have hother : ∀ name span inside,
        Logo.skipNewlines others ≠ ⟨.symbol name, span⟩ :: inside := by
      intro name span inside hnext
      rw [hnext] at hskipped
      obtain ⟨place, rest, hnext'⟩ := hpairs.exists_cons_left hskipped
      exact hsymbol ⟨name, place, rest, hnext'⟩
    rw [readGroup_of_ne fun name span inside hnext => hsymbol ⟨name, span, inside, hnext⟩,
      readGroup_of_ne hother]
    exact hparenthesized

theorem readGroupInputs (opening mate : Span) (hopening : located opening mate) :
    AgreeAt located (Both (List.Forall₂ alike) paired) (readGroupInputs first opening tokens)
      (readGroupInputs second mate others) := by
  have hskipped := hpairs.skipNewlines hpaired
  have hlevel := hpairs.readLevel_skipNewlines hsame hpaired hshorter .equality
  cases hnext : Logo.skipNewlines tokens with
  | nil =>
    rw [hnext] at hskipped
    rw [readGroupInputs_of_nil hnext, readGroupInputs_of_nil (hpairs.eq_nil hskipped)]
    exact .error hopening
  | cons next rest =>
    rw [hnext] at hskipped hlevel
    obtain ⟨span', rest', hnext'⟩ := hpairs.exists_cons hskipped
    rw [hnext'] at hskipped hlevel
    by_cases hclose : next.kind = .rightParen
    · rw [readGroupInputs_of_close hnext hclose, readGroupInputs_of_close hnext' hclose]
      exact .ok ⟨.nil, hpairs.take hskipped (by rw [hclose]; rfl)⟩
    · rw [readGroupInputs_of_next hnext hclose, readGroupInputs_of_next hnext' hclose]
      apply hlevel.bind
      rintro ⟨input, middle⟩ ⟨input', middle'⟩ ⟨hinput, hmiddle⟩
      have hlength := length_lt_of_skipNewlines_of_lt hnext middle.property
      apply ((hshorter middle middle' hlength hmiddle).groupInputs opening mate hopening).bind
      rintro inputs inputs' ⟨hinputs, hrest⟩
      exact .ok ⟨.cons hinput hinputs, hrest⟩

omit hpaired hshorter in
/-- Paired tokens are read alike. -/
theorem readAlike (tokens others : List Token) (hpaired : paired tokens others) :
    ReadAlike first second paired alike located tokens others := by
  induction hlength : tokens.length using Nat.strongRecOn generalizing tokens others with
  | ind length ih =>
    have hshorter : ∀ rest after, rest.length < tokens.length → paired rest after →
        ReadAlike first second paired alike located rest after :=
      fun rest after hrest hpaired => ih rest.length (hlength ▸ hrest) rest after hpaired rfl
    exact {
      operand := hpairs.readOperand hsame hpaired hshorter
      level := hpairs.readLevel hsame hpaired hshorter
      operators := fun level _ _ hleft => hpairs.readOperators hpaired hshorter level hleft
      inputs := hpairs.readInputs hsame hpaired hshorter
      group := hpairs.readGroup hsame hpaired hshorter
      groupInputs := hpairs.readGroupInputs hsame hpaired hshorter }

omit hshorter in
theorem readExpression :
    AgreeAt located (Both alike paired) (readExpression first tokens)
      (readExpression second others) :=
  (hpairs.readAlike hsame tokens others hpaired).level .equality

end Expressions

/-! ## Definitions and programs -/

section Definitions

variable {first second : Reading} {paired : List Token → List Token → Prop}
  {alike : Datum → Datum → Prop} {located : Span → Span → Prop}
  (hpairs : PairsCalls first second paired alike located)
  (hsame : SameArities first.procedures second.procedures) (opening mate : Span)
  (hopening : located opening mate)

include hpairs hsame hopening

/-- The lines of two bodies are alike, and the words `end` are paired. -/
theorem readBody (name : String) (tokens others : List Token) (hpaired : paired tokens others) :
    AgreeAt located (fun found found' => List.Forall₂ alike found.1 found'.1 ∧
        paired (⟨.close, found.2.1⟩ :: found.2.2.val) (⟨.close, found'.2.1⟩ :: found'.2.2.val))
      (readBody first name opening tokens) (readBody second name mate others) := by
  obtain ⟨length, hlength⟩ : ∃ length, tokens.length = length := ⟨_, rfl⟩
  induction length using Nat.strongRecOn generalizing tokens others with
  | ind length ih =>
    have hskipped := hpairs.skipNewlines hpaired
    cases hnext : Logo.skipNewlines tokens with
    | nil =>
      rw [hnext] at hskipped
      rw [readBody_of_nil hnext, readBody_of_nil (hpairs.eq_nil hskipped)]
      exact .error hopening
    | cons next rest =>
      rw [hnext] at hskipped
      obtain ⟨span, rest', hnext'⟩ := hpairs.exists_cons hskipped
      rw [hnext'] at hskipped
      by_cases hclose : next.kind = .close
      · rw [readBody_of_close hnext hclose, readBody_of_close hnext' hclose]
        refine .ok ⟨.nil, ?_⟩
        rw [← hclose]
        exact hskipped
      by_cases hdefine : next.kind = .define
      · rw [readBody_of_define hnext hdefine, readBody_of_define hnext' hdefine]
        exact .error (hpairs.token hskipped)
      rw [readBody_of_next hnext hclose hdefine, readBody_of_next hnext' hclose hdefine]
      apply (hpairs.readExpression hsame hskipped).bind
      rintro ⟨line, middle⟩ ⟨line', middle'⟩ ⟨hline, hmiddle⟩
      have hshorter := length_lt_of_skipNewlines_of_lt hnext middle.property
      apply (ih _ (hlength ▸ hshorter) middle middle' hmiddle rfl).bind
      rintro found found' ⟨hlines, hrest⟩
      exact .ok ⟨.cons hline hlines, hrest⟩

/-- Two definitions have the same name and the same inputs, and bodies that are alike. -/
theorem readDefinition {tokens others : List Token} (hpaired : paired tokens others) :
    AgreeAt located (fun found found' => ∃ name place place' rest rest' body body' closing closing',
        tokens = ⟨.symbol name, place⟩ :: rest ∧ others = ⟨.symbol name, place'⟩ :: rest' ∧
        List.Forall₂ alike body body' ∧
        found.1 = .user name (Logo.takeParams rest).1 body
          (some (sliceBytes first.source opening.start closing.stop)) ∧
        found'.1 = .user name (Logo.takeParams rest).1 body'
          (some (sliceBytes second.source mate.start closing'.stop)) ∧
        paired (⟨.close, closing⟩ :: found.2.val) (⟨.close, closing'⟩ :: found'.2.val))
      (readDefinition first opening tokens) (readDefinition second mate others) := by
  rw [Logo.readDefinition.eq_def first, Logo.readDefinition.eq_def second]
  cases tokens with
  | nil =>
    obtain rfl := hpairs.eq_nil hpaired
    exact .error hopening
  | cons token rest =>
    obtain ⟨span, after, rfl⟩ := hpairs.exists_cons hpaired
    obtain ⟨kind, place⟩ := token
    cases kind with
    | symbol name =>
      have hrest := hpairs.take hpaired rfl
      obtain ⟨hparams, hbody⟩ := hpairs.takeParams rest after hrest
      apply (hpairs.readBody hsame opening mate hopening name _ _ hbody).bind
      rintro ⟨body, closing, final⟩ ⟨body', closing', final'⟩ ⟨hlines, hfinal⟩
      refine .ok ⟨name, place, span, rest, after, body, body', closing, closing', rfl, rfl,
        hlines, rfl, ?_, hfinal⟩
      rw [hparams]
    | define | close | nil | boolean _ | number _ | quote _ | operator _ | reference _ | word _
    | leftParen | rightParen | leftBracket | rightBracket | newline => exact .error hopening

end Definitions

end PairsCalls

/-- The procedures that are known to the two readings stay alike when definitions that have been
read enter them. -/
structure PairsTable (source other : String) (finish last : Span)
    (paired : List Token → List Token → Prop) (alike : Datum → Datum → Prop)
    (located : Span → Span → Prop) (tables : Procedures → Procedures → Prop) : Prop where
  calls : ∀ {first second}, tables first second →
    PairsCalls ⟨source, finish, first⟩ ⟨other, last, second⟩ paired alike located
  arities : ∀ {first second}, tables first second → SameArities first second
  enter : ∀ {first second opening mate inside others}, tables first second →
    paired (⟨.define, opening⟩ :: inside) (⟨.define, mate⟩ :: others) → paired inside others
  leave : ∀ {first second closing mate rest others}, tables first second →
    paired (⟨.close, closing⟩ :: rest) (⟨.close, mate⟩ :: others) → paired rest others
  define : ∀ {opening mate name place place' inside others closing closing' rest after body body'},
    paired (⟨.define, opening⟩ :: ⟨.symbol name, place⟩ :: inside)
      (⟨.define, mate⟩ :: ⟨.symbol name, place'⟩ :: others) →
    paired (⟨.close, closing⟩ :: rest) (⟨.close, closing'⟩ :: after) →
    List.Forall₂ alike body body' →
      let params := (takeParams inside).1
      let found := .user name params body (some (sliceBytes source opening.start closing.stop))
      let mate := .user name params body' (some (sliceBytes other mate.start closing'.stop))
      alike (.procedure found) (.procedure mate) ∧
        ∀ {first second}, tables first second → tables (first.define found) (second.define mate)

/-- Paired tokens have lines that are alike, and tables too. -/
theorem PairsTable.readLines {source other : String} {finish last : Span}
    {located : Span → Span → Prop} {tables : Procedures → Procedures → Prop}
    (hpairs : PairsTable source other finish last paired alike located tables)
    {first second : Procedures} (htables : tables first second) {tokens others : List Token}
    (hpaired : paired tokens others) :
    AgreeAt located
      (fun found found' => List.Forall₂ alike found.1 found'.1 ∧ tables found.2 found'.2)
      (readLines source finish first tokens) (readLines other last second others) := by
  induction hlength : tokens.length using Nat.strongRecOn
    generalizing tokens others first second with
  | ind length ih =>
    have hcalls := hpairs.calls htables
    have hsame := hpairs.arities htables
    have hskipped := hcalls.skipNewlines hpaired
    cases hnext : skipNewlines tokens with
    | nil =>
      rw [hnext] at hskipped
      rw [readLines_of_nil hnext, readLines_of_nil (hcalls.eq_nil hskipped)]
      exact .ok ⟨.nil, htables⟩
    | cons next rest =>
      rw [hnext] at hskipped
      obtain ⟨span, rest', hnext'⟩ := hcalls.exists_cons hskipped
      rw [hnext'] at hskipped
      by_cases hdefine : next.kind = .define
      · rw [readLines_of_define hnext hdefine, readLines_of_define hnext' hdefine]
        obtain ⟨kind, opening⟩ := next
        subst hdefine
        have hinside := hpairs.enter htables hskipped
        have hplace := hcalls.token hskipped
        apply (hcalls.readDefinition hsame opening span hplace hinside).bind
        rintro ⟨found, middle⟩ ⟨found', middle'⟩ ⟨name, place, place', inside, inside', body,
          body', closing, closing', rfl, rfl, hbody, rfl, rfl, hclosing⟩
        obtain ⟨hfound, hentered⟩ := hpairs.define hskipped hclosing hbody
        have hshorter := length_lt_of_lt_of_lt (length_lt_of_skipNewlines hnext) middle.property
        have hmiddle := hpairs.leave htables hclosing
        apply (ih _ (hlength ▸ hshorter) (hentered htables) hmiddle rfl).bind
        rintro lines lines' ⟨hlines, hfinal⟩
        exact .ok ⟨.cons hfound hlines, hfinal⟩
      · rw [readLines_of_next hnext hdefine, readLines_of_next hnext' hdefine]
        apply (hcalls.readExpression hsame hskipped).bind
        rintro ⟨line, middle⟩ ⟨line', middle'⟩ ⟨hline, hmiddle⟩
        have hshorter := length_lt_of_skipNewlines_of_lt hnext middle.property
        apply (ih _ (hlength ▸ hshorter) htables hmiddle rfl).bind
        rintro lines lines' ⟨hlines, hfinal⟩
        exact .ok ⟨.cons hline hlines, hfinal⟩

end Logo
