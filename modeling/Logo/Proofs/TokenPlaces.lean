import Logo.Proofs.Numerals
import Mathlib.Data.List.Induction

/-!
# Where tokens stand

The tokens of a text and what stands between them make up the whole text. Every token covers
characters of its own, in the order of the tokens, and says where they are: in bytes from the start,
and by line and column. Between the tokens there is white space and, outside of lists, comments. A
word in a list is what it covers; every other token is read again from what it covers alone.
-/

namespace Logo

/-! ## Lines and columns -/

/-- The characters of a text behind its last line end. -/
def lastLine (text : List Char) : List Char :=
  (text.reverse.takeWhile (· != '\n')).reverse

theorem length_lastLine_concat (text : List Char) (c : Char) :
    (lastLine (text ++ [c])).length = if c = '\n' then 0 else (lastLine text).length + 1 := by
  by_cases hline : c = '\n'
  · simp [lastLine, hline]
  · simp [lastLine, hline]

theorem Position.line_behind (before : List Char) :
    (behind before).line = 1 + before.count '\n' := by
  induction before using List.reverseRecOn with
  | nil => rfl
  | append_singleton before c ih =>
    rw [← advance_behind, advance, List.count_append, List.count_singleton]
    dsimp only
    rw [ih]
    by_cases hline : c = '\n'
    · simp [hline, Nat.add_assoc]
    · simp [hline]

theorem Position.column_behind (before : List Char) :
    (behind before).column = 1 + (lastLine before).length := by
  induction before using List.reverseRecOn with
  | nil => rfl
  | append_singleton before c ih =>
    rw [← advance_behind, advance, length_lastLine_concat]
    dsimp only
    rw [ih]
    split
    · rfl
    · rw [Nat.add_assoc]

/-- The span covers this part of the source, and says where it starts. -/
structure Span.Covers (source : String) (before text after : List Char) (span : Span) : Prop where
  source_eq : source.toList = before ++ (text ++ after)
  start : span.start = byteLength before
  stop : span.stop = byteLength (before ++ text)
  line : span.line = 1 + before.count '\n'
  column : span.column = 1 + (lastLine before).length

variable {source : String} {before text after : List Char}

theorem Span.covers_between (hsource : source.toList = before ++ (text ++ after)) :
    (Span.between (.behind before) (.behind (before ++ text))).Covers source before text after where
  source_eq := hsource
  start := Position.offset_behind before
  stop := Position.offset_behind (before ++ text)
  line := Position.line_behind before
  column := Position.column_behind before

variable {span : Span}

theorem Span.Covers.sliceBytes_eq (hspan : span.Covers source before text after) :
    sliceBytes source span.start span.stop = .ofList text := by
  rw [hspan.start, hspan.stop, ← Position.offset_behind, ← Position.offset_behind]
  exact sliceBytes_behind hspan.source_eq

variable {short : List Char}

/-- Of a text that has all the characters from the front that are taken, the same ones are taken. -/
theorem takeWhile_between {holds : Char → Bool} (hshort : short <+: text)
    (htake : text.takeWhile holds <+: short) : short.takeWhile holds = text.takeWhile holds := by
  obtain ⟨more, rfl⟩ := hshort
  rw [List.takeWhile_append] at htake ⊢
  split at htake
  · rename_i hall
    rw [if_pos hall]
    have hnone : more.takeWhile holds = [] := by
      have hlength := htake.length_le
      rw [List.length_append] at hlength
      exact List.length_eq_zero_iff.mp (by omega)
    rw [hnone, List.append_nil]
    exact (List.takeWhile_prefix holds).eq_of_length hall
  · rw [if_neg ‹_›]

variable {c : Char} {lexeme : Lexeme} {rest : List Char}

/-- A numeral is read from its own characters. -/
theorem numberLexeme_between {rest : List Char} (hlexeme : numberLexeme c rest = .ok lexeme)
    (hshort : short <+: rest) (htail : lexeme.tail <+: short) :
    numberLexeme c short = .ok lexeme := by
  have hmore : rest.takeWhile Char.isDigit <+: short := by
    obtain ⟨value, -, rfl⟩ | ⟨fraction, -, -, rfl⟩ := numberLexeme_cases hlexeme
    · exact htail
    · exact (List.prefix_append _ _).trans htail
  have hdigits := takeWhile_between hshort hmore
  have hwhole : wholeDigits c short = wholeDigits c rest := by
    rw [wholeDigits, wholeDigits, hdigits]
  obtain ⟨behind, hbehind⟩ := hmore
  have hdrop : short.drop (short.takeWhile Char.isDigit).length = behind := by
    rw [hdigits, ← hbehind, List.drop_left]
  obtain ⟨others, hothers⟩ := hshort
  have hdropRest : rest.drop (rest.takeWhile Char.isDigit).length = behind ++ others := by
    nth_rewrite 2 [← hothers]
    rw [← hbehind, List.append_assoc, List.drop_left]
  by_cases hpoint : ∃ digit after, behind ++ others = '.' :: digit :: after ∧ digit.isDigit = true
  · obtain ⟨digit, after, hafter, hdigit⟩ := hpoint
    rw [numberLexeme_eq_float (hdropRest.trans hafter) hdigit] at hlexeme
    cases hlexeme
    -- The point and the digits behind it are still there.
    rw [Lexeme.code, ← hbehind, List.prefix_append_right_inj] at htail
    obtain ⟨left, rfl⟩ := htail
    have hleft : after = after.takeWhile Char.isDigit ++ left ++ others := by
      simpa using hafter.symm
    have hfraction : (after.takeWhile Char.isDigit ++ left).takeWhile Char.isDigit =
        after.takeWhile Char.isDigit :=
      takeWhile_between ⟨others, hleft.symm⟩ (List.prefix_append _ _)
    rw [numberLexeme_eq_float hdrop hdigit, hdigits, hwhole]
    simp only [List.append_eq, hfraction]
  · have hinteger : ∀ digit after, behind ++ others = '.' :: digit :: after →
        digit.isDigit = false := by
      intro digit after hafter
      exact Bool.eq_false_iff.mpr fun hdigit => hpoint ⟨digit, after, hafter, hdigit⟩
    rw [numberLexeme_eq_integer (by rwa [hdropRest])] at hlexeme
    rw [numberLexeme_eq_integer, integerLexeme, hwhole, hdigits]
    · exact hlexeme
    · intro digit after hafter
      rw [hdrop] at hafter
      exact hinteger digit (after ++ others) (by rw [hafter]; rfl)

theorem operatorLexeme_between (single double : Operator) {rest : List Char}
    (hshort : short <+: rest) (htail : (operatorLexeme single double rest).tail <+: short) :
    operatorLexeme single double short = operatorLexeme single double rest := by
  cases short with
  | nil =>
    have hnone := List.prefix_nil.mp htail
    revert hnone
    fun_cases operatorLexeme single double rest with
    | case1 after =>
      intro hnone
      cases hnone
    | case2 =>
      intro _
      rfl
  | cons first short =>
    obtain ⟨more, rfl⟩ := hshort
    by_cases hfirst : first = '='
    · subst hfirst
      rfl
    · simp [operatorLexeme, hfirst]

/-- How much of what follows a lexeme of code is there plays no role for it. -/
theorem codeLexeme_between {rest : List Char} (hlexeme : codeLexeme c rest = .ok lexeme)
    (hshort : short <+: rest) (htail : lexeme.tail <+: short) :
    codeLexeme c short = .ok lexeme := by
  by_cases hstarts : StartsNumeral c rest
  · rw [codeLexeme_of_startsNumeral hstarts] at hlexeme
    obtain ⟨-, value, -, hnumeral, -⟩ := numeral_of_numberLexeme hstarts hlexeme
    obtain ⟨after, rfl⟩ := id htail
    rw [codeLexeme_of_startsNumeral (hnumeral.startsNumeral after)]
    exact numberLexeme_between hlexeme hshort htail
  · revert hlexeme
    fun_cases codeLexeme c rest <;> intro hlexeme
    case case9 digit after hdigit => exact absurd (.inr ⟨rfl, digit, rfl, hdigit⟩) hstarts
    case case10 digit after hdigit =>
      cases hlexeme
      cases short with
      | nil => rfl
      | cons first short =>
        obtain ⟨rfl, -⟩ := List.cons_prefix_cons.mp hshort
        simp [codeLexeme, hdigit]
    case case11 =>
      cases hlexeme
      rw [List.prefix_nil.mp hshort]
      rfl
    case case12 | case13 | case14 =>
      cases hlexeme
      rw [codeLexeme, operatorLexeme_between _ _ hshort htail]
    case case15 =>
      cases hlexeme
      obtain ⟨more, rfl⟩ := htail
      rfl
    case case16 | case21 => simp_all
    case case17 =>
      cases hlexeme
      rw [codeLexeme, quoteLexeme, takeWhile_between hshort htail]
      rfl
    case case18 =>
      simp only [referenceLexeme] at hlexeme
      split at hlexeme
      · cases hlexeme
      · rename_i hnonempty
        cases hlexeme
        simp only [codeLexeme, referenceLexeme, takeWhile_between hshort htail, hnonempty]
        rfl
    case case19 hdigit => exact absurd (.inl ‹_›) hstarts
    case case20 =>
      rw [if_neg ‹_›, if_pos ‹_›] at hlexeme
      cases hlexeme
      rw [codeLexeme, if_neg ‹_›, if_pos ‹_›, symbolLexeme, takeWhile_between hshort htail]
      · rfl
      all_goals assumption
    all_goals
      cases hlexeme
      rfl

/-- What follows a lexeme of code plays no role for it. -/
theorem codeLexeme_tail (hlexeme : codeLexeme c rest = .ok lexeme) :
    codeLexeme c lexeme.tail = .ok lexeme :=
  codeLexeme_between hlexeme (fitsCode_codeLexeme hlexeme).tail (List.prefix_refl _)

def TokenKind.depthBehind (depth : Nat) : TokenKind → Nat
  | .leftBracket => depth + 1
  | .rightBracket => depth - 1
  | _ => depth

variable {depth : Nat}

theorem depth_lexeme (hlexeme : Logo.lexeme depth c rest = .ok lexeme) :
    lexeme.depth = lexeme.kind.depthBehind depth := by
  rw [Logo.lexeme] at hlexeme
  split at hlexeme
  · rename_i hcode
    have hfits := fitsCode_codeLexeme hlexeme
    by_cases hopening : lexeme.kind = .leftBracket
    · rw [(hfits.opening hopening).2.2, hopening, hcode]
      rfl
    · rw [hfits.depth hopening, hcode, TokenKind.depthBehind.eq_def]
      split
      · contradiction
      · rfl
      · rfl
  · cases hlexeme
    fun_cases listLexeme depth c rest <;> rfl

theorem tail_lexeme (hlexeme : Logo.lexeme depth c rest = .ok lexeme) : lexeme.tail <+: rest := by
  rw [Logo.lexeme] at hlexeme
  split at hlexeme
  · exact (fitsCode_codeLexeme hlexeme).tail
  · cases hlexeme
    exact tail_listLexeme depth c rest

/-- What a token covers spells it: a word in a list is the text itself, which has neither white
space nor brackets in it, and any other token is the only one of the text read as code. -/
def TokenKind.SpelledBy (text : List Char) : TokenKind → Prop
  | .word spelled => spelled = String.ofList text ∧
      ∀ c ∈ text, Text.isBlank c = false ∧ c ≠ '[' ∧ c ≠ ']'
  | kind => ∃ span finish, Scan.ofSource (String.ofList text) = .ok ⟨[⟨kind, span⟩], finish⟩

/-- A lexeme of code is the only token of its own text. -/
theorem ofSource_codeLexeme (hlexeme : codeLexeme c lexeme.tail = .ok lexeme)
    (hskipped : isSkipped 0 c = false) (hcomment : c ≠ ';') :
    Scan.ofSource (String.ofList (c :: lexeme.tail)) =
      let stop := Position.behind (c :: lexeme.tail)
      .ok ⟨[⟨lexeme.kind, .between .origin stop⟩], .between stop stop⟩ := by
  rw [Scan.ofSource, String.toList_ofList, scanFrom, if_neg (by simp [hskipped]),
    if_neg (by simp [hcomment]), Logo.lexeme, if_pos rfl, hlexeme]
  dsimp only
  rw [List.drop_length, scanFrom]
  rfl

/-- A lexeme is spelled by its own characters. -/
theorem spelledBy_lexeme (hlexeme : Logo.lexeme depth c rest = .ok lexeme)
    (hskipped : isSkipped depth c = false) (hcomment : ¬(depth = 0 ∧ c = ';')) :
    lexeme.kind.SpelledBy (c :: lexeme.tail) := by
  rw [Logo.lexeme] at hlexeme
  split at hlexeme
  · rename_i hcode
    subst hcode
    have halone := ofSource_codeLexeme (codeLexeme_tail hlexeme) hskipped
      fun hsemicolon => hcomment ⟨rfl, hsemicolon⟩
    rw [TokenKind.SpelledBy.eq_def]
    split
    · exact absurd ‹_› ((fitsCode_codeLexeme hlexeme).kind _)
    · exact ⟨_, _, halone⟩
  · rename_i hlist
    cases hlexeme
    fun_cases listLexeme depth c rest with
    | case1 => exact ⟨_, _, @ofSource_codeLexeme '[' ⟨.leftBracket, [], 1⟩ rfl rfl (by decide)⟩
    | case2 => exact ⟨_, _, @ofSource_codeLexeme ']' ⟨.rightBracket, [], 0⟩ rfl rfl (by decide)⟩
    | case3 _ tail hopen hclose =>
      refine ⟨rfl, List.forall_mem_cons.mpr ⟨?_, ?_⟩⟩
      · have hblank : Text.isBlank c = false := by simpa [isSkipped, hlist] using hskipped
        exact ⟨hblank, hopen, hclose⟩
      · intro other hother
        have hword := List.all_eq_true.mp List.all_takeWhile other hother
        exact not_isBlank_of_endsWord (by simpa using hword)

/-! ## Tiling a text -/

/-- What may stand before the rest of a text: white space and, outside of lists, a comment up to the
end of its line. A line end outside of lists is a token. -/
inductive Separates (after : List Char) : Nat → List Char → Prop where
  | nil {depth : Nat} : Separates after depth []
  | blank {depth : Nat} {c : Char} {gap : List Char} (hblank : isSkipped depth c = true)
      (hgap : Separates after depth gap) : Separates after depth (c :: gap)
  | comment {text : List Char} (hline : ∀ c ∈ text, c ≠ '\n')
      (hnext : ∀ c ∈ after.head?, c = '\n') : Separates after 0 (';' :: text)

/-- Behind a comment there is no white space that separates. -/
theorem Separates.eq_nil {gap after : List Char} (hgap : Separates after 0 gap)
    (hnext : ∀ c ∈ (gap ++ after).head?, c = '\n') : gap = [] := by
  cases hgap with
  | nil => rfl
  | blank hblank hgap =>
    cases hnext _ rfl
    cases hblank
  | comment hline => cases hnext _ rfl

/-- The rest of a source, behind what has been read of it, is made up of these tokens and of what
separates them. -/
inductive Tiled (source : String) : Nat → List Char → Scan → Prop where
  | finish {depth : Nat} {before gap : List Char} {finish : Span} (hgap : Separates [] depth gap)
      (hfinish : finish.Covers source (before ++ gap) [] []) :
      Tiled source depth before ⟨[], finish⟩
  | token {depth : Nat} {before gap text after : List Char} {token : Token} {tokens : List Token}
      {finish : Span} (hgap : Separates (text ++ after) depth gap)
      (hspan : token.span.Covers source (before ++ gap) text after) (hne : text ≠ [])
      (hspelled : token.kind.SpelledBy text)
      (hrest : Tiled source (token.kind.depthBehind depth) (before ++ gap ++ text)
        ⟨tokens, finish⟩) :
      Tiled source depth before ⟨token :: tokens, finish⟩

namespace Tiled

variable {source : String} {depth : Nat} {before : List Char} {scan : Scan}

theorem blank {c : Char} (hblank : isSkipped depth c = true)
    (htiled : Tiled source depth (before ++ [c]) scan) : Tiled source depth before scan := by
  cases htiled with
  | @finish _ _ gap _ hgap hfinish =>
    rw [List.append_assoc] at hfinish
    exact .finish (.blank hblank hgap) hfinish
  | @token _ _ gap _ _ _ _ _ hgap hspan hne hspelled hrest =>
    rw [List.append_assoc before] at hspan hrest
    exact .token (.blank hblank hgap) hspan hne hspelled hrest

theorem comment {text : List Char} (hline : ∀ c ∈ text, c ≠ '\n')
    (hnext : ∀ after, source.toList = before ++ ';' :: text ++ after →
      ∀ c ∈ after.head?, c = '\n')
    (htiled : Tiled source 0 (before ++ ';' :: text) scan) : Tiled source 0 before scan := by
  cases htiled with
  | @finish _ _ gap _ hgap hfinish =>
    have hempty := hgap.eq_nil (hnext _ (by rw [hfinish.source_eq]; simp))
    subst hempty
    rw [List.append_nil] at hfinish
    exact .finish (.comment hline (by simp)) hfinish
  | @token _ _ gap covered after _ _ _ hgap hspan hne hspelled hrest =>
    have hbehind := hnext _ (by rw [hspan.source_eq, List.append_assoc])
    have hempty := hgap.eq_nil hbehind
    subst hempty
    rw [List.nil_append] at hbehind
    rw [List.append_nil] at hspan hrest
    exact .token (.comment hline hbehind) hspan hne hspelled hrest

end Tiled

variable {source : String} {scan : Scan}

/-- Tokens tile the text that is scanned. -/
theorem tiled_scanFrom {depth : Nat} {before text : List Char}
    (hsource : source.toList = before ++ text)
    (hscan : scanFrom depth (.behind before) text = .ok scan) : Tiled source depth before scan := by
  generalize hposition : Position.behind before = position at hscan
  fun_induction scanFrom depth position text generalizing before scan with
  | case1 =>
    cases hscan
    subst hposition
    have hfinish := @Span.covers_between source before [] [] (by simpa using hsource)
    rw [List.append_nil] at hfinish
    exact @Tiled.finish _ _ before [] _ .nil (by simpa using hfinish)
  | case2 depth position c text hskipped ih =>
    have hnext : Position.behind (before ++ [c]) = position.advance c := by
      rw [← hposition, Position.advance_behind]
    exact .blank hskipped (ih (by simpa using hsource) hnext hscan)
  | case3 depth position c text hskipped hcomment comment =>
    rename_i ih
    obtain ⟨rfl, rfl⟩ := hcomment
    have htext : ';' :: text = comment ++ text.dropWhile (· != '\n') := by
      simp [comment, List.takeWhile_append_dropWhile]
    rw [htext, ← List.append_assoc] at hsource
    have hnext : Position.behind (before ++ comment) = position.advanceAll comment := by
      rw [← hposition, Position.advanceAll_behind]
    refine .comment ?_ ?_ (ih hsource hnext hscan)
    · intro c hc
      simpa using List.all_eq_true.mp List.all_takeWhile c hc
    · intro after hafter c hc
      rw [List.append_cancel_left (hafter.symm.trans hsource)] at hc
      obtain hend | ⟨rest, hline⟩ := dropWhile_newline text
      · rw [hend] at hc
        cases hc
      · rw [hline] at hc
        cases hc
        rfl
  | case4 => cases hscan
  | case5 depth position c text hskipped hcomment lexeme hlexeme stop =>
    rename_i ih
    obtain ⟨tokens, finish⟩ := scan
    obtain ⟨others, rfl, hrest⟩ := map_cons_eq_ok.mp hscan
    subst hposition
    have hstop : stop = .behind (before ++ c :: lexeme.tail) := Position.advanceAll_behind _ _
    have hsplit := (Cut.source_iff (tail_lexeme hlexeme)).mp hsource
    have hspan := Span.covers_between (hsplit.trans (List.append_assoc ..))
    have htiled := ih hsplit hstop.symm hrest
    rw [depth_lexeme hlexeme] at htiled
    rw [hstop]
    have hspelled := spelledBy_lexeme hlexeme (by simpa using hskipped) hcomment
    exact @Tiled.token _ _ _ [] _ _ _ _ _ .nil (by simpa using hspan) (List.cons_ne_nil _ _)
      hspelled (by simpa using htiled)

namespace Tiled

variable {source : String} {depth : Nat} {before : List Char} {scan : Scan}

variable (htiled : Tiled source depth before scan)

include htiled

theorem token_covers {token : Token} (htoken : token ∈ scan.tokens) :
    ∃ before text after, token.span.Covers source before text after ∧ text ≠ [] ∧
      token.kind.SpelledBy text := by
  induction htiled with
  | finish hgap hfinish => cases htoken
  | token hgap hspan hne hspelled hrest ih =>
    obtain rfl | hmem := List.mem_cons.mp htoken
    · exact ⟨_, _, _, hspan, hne, hspelled⟩
    · exact ih hmem

end Tiled

theorem tiled_ofSource (hscan : Scan.ofSource source = .ok scan) : Tiled source 0 [] scan :=
  tiled_scanFrom rfl hscan

end Logo
