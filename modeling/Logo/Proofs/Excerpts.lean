import Logo.Proofs.Parallel
import Logo.Proofs.TokenPlaces

/-!
# Tokens of an excerpt

A part of a text that begins and ends with a token has the tokens that the whole text has there,
since no token depends on what comes behind the next one. Only their places are counted from another
start. Slices of the text between such places are slices of the part.
-/

namespace Logo

/-! ## Another start -/

/-- The same token, with so many bytes before it. -/
structure Token.Shifted (offset : Nat) (token other : Token) : Prop where
  kind : token.kind = other.kind
  start : token.span.start = offset + other.span.start
  stop : token.span.stop = offset + other.span.stop

variable {position : Position}

/-- The tokens of a text do not depend on the place where it begins, and their own places move with
it. -/
theorem scanFrom_shifted {offset : Nat} (depth : Nat) {mate : Position} (text : List Char)
    (hoffset : position.offset = offset + mate.offset) :
    Agree (fun scan other => List.Forall₂ (Token.Shifted offset) scan.tokens other.tokens)
      (scanFrom depth position text) (scanFrom depth mate text) := by
  fun_induction scanFrom depth position text generalizing mate with
  | case1 =>
    rw [scanFrom]
    exact .ok .nil
  | case2 depth position c text hskipped ih =>
    rw [scanFrom, if_pos hskipped]
    apply ih
    rw [Position.advance, Position.advance, hoffset, Nat.add_assoc]
  | case3 depth position c text hskipped hcomment comment =>
    rename_i ih
    rw [scanFrom, if_neg hskipped, if_pos hcomment]
    apply ih
    rw [Position.offset_advanceAll, Position.offset_advanceAll, hoffset, Nat.add_assoc]
  | case4 depth position c text hskipped hcomment fault hlexeme =>
    rw [scanFrom, if_neg hskipped, if_neg hcomment, hlexeme]
    exact .error
  | case5 depth position c text hskipped hcomment lexeme hlexeme stop =>
    rename_i ih
    have hstop : stop.offset = offset + (mate.advanceAll (c :: lexeme.tail)).offset := by
      rw [Position.offset_advanceAll, Position.offset_advanceAll, hoffset, Nat.add_assoc]
    rw [scanFrom, if_neg hskipped, if_neg hcomment, hlexeme]
    exact (ih hstop).map fun _ _ htokens => .cons ⟨rfl, hoffset, hstop⟩ htokens

/-! ## An earlier end -/

variable {depth : Nat}

/-- A lexeme is the same where the text ends sooner, as long as it does not end in the lexeme. -/
theorem lexeme_between {c : Char} {rest short : List Char} {lexeme : Lexeme}
    (hlexeme : Logo.lexeme depth c rest = .ok lexeme) (hshort : short <+: rest)
    (htail : lexeme.tail <+: short) : Logo.lexeme depth c short = .ok lexeme := by
  rw [Logo.lexeme] at hlexeme ⊢
  split at hlexeme
  · rw [if_pos ‹_›]
    exact codeLexeme_between hlexeme hshort htail
  · rw [if_neg ‹_›]
    cases hlexeme
    by_cases hopen : c = '['
    · subst hopen
      rfl
    by_cases hclose : c = ']'
    · subst hclose
      rfl
    rw [listLexeme] at htail ⊢
    · rw [takeWhile_between hshort htail, listLexeme]
      · exact hopen
      · exact hclose
    all_goals assumption

variable {text : List Char} {first second : List Token} {finish : Span}

theorem ne_nil_of_scanFrom {token : Token}
    (hscan : scanFrom depth position text = .ok ⟨first ++ token :: second, finish⟩) :
    text ≠ [] := by
  rintro rfl
  rw [scanFrom] at hscan
  have htokens := (Scan.mk.inj (Except.ok.inj hscan)).1
  simp at htokens

/-- A comment ends with its line, whatever comes on the next one. -/
theorem comment_append (text rest : List Char) :
    (text.takeWhile (· != '\n') ++ '\n' :: rest).takeWhile (· != '\n') =
        text.takeWhile (· != '\n') ∧
      (text.takeWhile (· != '\n') ++ '\n' :: rest).dropWhile (· != '\n') = '\n' :: rest := by
  have hchars : ∀ c ∈ text.takeWhile (· != '\n'), (c != '\n') = true :=
    List.all_eq_true.mp List.all_takeWhile
  rw [List.takeWhile_append_of_pos hchars, List.dropWhile_append_of_pos hchars]
  simp

/-- The front of a text up to the end of one of its tokens has the tokens up to this one. -/
theorem exists_scanFrom_front {last : Token}
    (hscan : scanFrom depth position text = .ok ⟨first ++ last :: second, finish⟩) :
    ∃ front back stop, text = front ++ back ∧
      scanFrom depth position front = .ok ⟨first ++ [last], stop⟩ ∧
      last.span.stop = position.offset + byteLength front := by
  fun_induction scanFrom depth position text generalizing first with
  | case1 =>
    have htokens := (Scan.mk.inj (Except.ok.inj hscan)).1
    simp at htokens
  | case2 depth position c text hskipped ih =>
    obtain ⟨front, back, stop, rfl, hfront, hlast⟩ := ih hscan
    refine ⟨c :: front, back, stop, rfl, ?_, ?_⟩
    · rw [scanFrom, if_pos hskipped, hfront]
    · rw [hlast, ← List.singleton_append, byteLength_append, ← Nat.add_assoc]
      simp [Position.advance, byteLength]
  | case3 depth position c text hskipped hcomment comment =>
    rename_i ih
    obtain ⟨front, back, stop, hbehind, hfront, hlast⟩ := ih hscan
    -- The front has a token, so the line end behind the comment belongs to it.
    obtain ⟨rest, rfl⟩ : ∃ rest, front = '\n' :: rest := by
      obtain ⟨next, rest, rfl⟩ := List.exists_cons_of_ne_nil (ne_nil_of_scanFrom hfront)
      obtain hend | ⟨after, hafter⟩ := dropWhile_newline text
      · rw [hend] at hbehind
        cases hbehind
      · rw [hafter] at hbehind
        exact ⟨rest, by rw [(List.cons.inj hbehind).1]⟩
    obtain ⟨htake, hdrop⟩ := comment_append text rest
    refine ⟨comment ++ '\n' :: rest, back, stop, ?_, ?_, ?_⟩
    · rw [List.append_assoc, ← hbehind]
      simp [comment, List.takeWhile_append_dropWhile]
    · rw [List.cons_append, scanFrom, if_neg hskipped, if_pos hcomment, htake, hdrop]
      exact hfront
    · rw [hlast, Position.offset_advanceAll, byteLength_append, Nat.add_assoc]
  | case4 => cases hscan
  | case5 depth position c text hskipped hcomment lexeme hlexeme stop =>
    rename_i ih
    obtain ⟨others, htokens, hrest⟩ := map_cons_eq_ok.mp hscan
    obtain ⟨behind, rfl⟩ := tail_lexeme hlexeme
    rw [List.drop_left] at hrest ih
    have hstop : stop.offset = position.offset + byteLength (c :: lexeme.tail) :=
      Position.offset_advanceAll _ _
    cases first with
    | nil =>
      obtain ⟨rfl, rfl⟩ := List.cons.inj htokens
      have halone := lexeme_between hlexeme (List.prefix_append _ _) (List.prefix_refl _)
      refine ⟨c :: lexeme.tail, behind, .between stop stop, rfl, ?_, hstop⟩
      rw [scanFrom, if_neg hskipped, if_neg hcomment, halone]
      dsimp only
      rw [List.drop_length, scanFrom]
      rfl
    | cons token first =>
      obtain ⟨rfl, rfl⟩ := List.cons.inj htokens
      obtain ⟨front, back, final, rfl, hfront, hlast⟩ := ih hrest
      have hshort : lexeme.tail ++ front <+: lexeme.tail ++ (front ++ back) :=
        ⟨back, List.append_assoc ..⟩
      have hsame := lexeme_between hlexeme hshort (List.prefix_append _ _)
      refine ⟨c :: lexeme.tail ++ front, back, final, by simp, ?_, ?_⟩
      · rw [List.cons_append, scanFrom, if_neg hskipped, if_neg hcomment, hsame]
        dsimp only
        rw [List.drop_left, hfront]
        rfl
      · rw [hlast, hstop, byteLength_append, Nat.add_assoc]

/-! ## A later start -/

/-- Definitions begin outside of lists. -/
theorem eq_zero_of_lexeme {c : Char} {rest : List Char} {lexeme : Lexeme}
    (hlexeme : Logo.lexeme depth c rest = .ok lexeme) (hkind : lexeme.kind = .define) :
    depth = 0 := by
  rw [Logo.lexeme] at hlexeme
  split at hlexeme
  · assumption
  · cases hlexeme
    revert hkind
    fun_cases listLexeme depth c rest <;> simp

/-- What comes from the beginning of a token on has this token and those behind it. -/
theorem exists_scanFrom_back {next : Token}
    (hscan : scanFrom depth position text = .ok ⟨first ++ next :: second, finish⟩) :
    ∃ front back inner stop, text = front ++ back ∧
      scanFrom inner (position.advanceAll front) back = .ok ⟨next :: second, finish⟩ ∧
      next.span = .between (position.advanceAll front) stop ∧
      (next.kind = .define → inner = 0) := by
  fun_induction scanFrom depth position text generalizing first with
  | case1 =>
    have htokens := (Scan.mk.inj (Except.ok.inj hscan)).1
    simp at htokens
  | case2 depth position c text hskipped ih =>
    obtain ⟨front, back, inner, stop, rfl, hback⟩ := ih hscan
    exact ⟨c :: front, back, inner, stop, rfl, hback⟩
  | case3 depth position c text hskipped hcomment comment =>
    rename_i ih
    obtain ⟨front, back, inner, stop, hbehind, hback⟩ := ih hscan
    rw [← Position.advanceAll_append] at hback
    refine ⟨comment ++ front, back, inner, stop, ?_, hback⟩
    rw [List.append_assoc, ← hbehind]
    simp [comment, List.takeWhile_append_dropWhile]
  | case4 => cases hscan
  | case5 depth position c text hskipped hcomment lexeme hlexeme stop =>
    rename_i ih
    obtain ⟨others, htokens, hrest⟩ := map_cons_eq_ok.mp hscan
    cases first with
    | nil =>
      obtain ⟨rfl, rfl⟩ := List.cons.inj htokens
      refine ⟨[], c :: text, depth, stop, rfl, ?_, rfl, eq_zero_of_lexeme hlexeme⟩
      rw [Position.advanceAll, List.foldl_nil, scanFrom, if_neg hskipped, if_neg hcomment,
        hlexeme]
      exact hscan
    | cons token first =>
      obtain ⟨rfl, rfl⟩ := List.cons.inj htokens
      obtain ⟨front, back, inner, final, hbehind, hback⟩ := ih hrest
      rw [← Position.advanceAll_append] at hback
      refine ⟨c :: lexeme.tail ++ front, back, inner, final, ?_, hback⟩
      rw [List.append_assoc, ← hbehind, List.cons_append,
        List.prefix_iff_eq_append.mp (tail_lexeme hlexeme)]

/-! ## Slices -/

/-- A slice of a part is the slice of the whole that has as many more bytes before it as the part
has. -/
theorem sliceBytes_of_part {source part : String} {before after first last : List Char}
    (hsource : source.toList = before ++ (part.toList ++ after)) (hfirst : first <+: part.toList)
    (hlast : last <+: part.toList) :
    sliceBytes source (byteLength before + byteLength first)
        (byteLength before + byteLength last) =
      sliceBytes part (byteLength first) (byteLength last) := by
  obtain ⟨behind, hbehind⟩ := hfirst
  have hwhole : source.toList = (before ++ first) ++ (behind ++ after) := by
    rw [hsource, ← hbehind]
    simp
  rw [sliceBytes, sliceBytes, Nat.add_sub_add_left, hwhole, ← byteLength_append, dropBytes_append,
    ← hbehind, dropBytes_append]
  congr 1
  cases List.prefix_or_prefix_of_prefix hlast ⟨behind, hbehind⟩ with
  | inl hlonger =>
    obtain ⟨more, rfl⟩ := hlonger
    have hnone : ∀ text, takeBytes 0 text = [] := by
      intro text
      cases text <;> rfl
    rw [byteLength_append, Nat.sub_eq_zero_of_le (Nat.le_add_right _ _), hnone, hnone]
  | inr hshorter =>
    obtain ⟨middle, rfl⟩ := hshorter
    obtain ⟨more, hmore⟩ := hlast
    rw [← hbehind, List.append_assoc, List.append_cancel_left_eq] at hmore
    rw [byteLength_append, Nat.add_sub_cancel_left, ← hmore, List.append_assoc, takeBytes_append,
      takeBytes_append]

/-! ## Definitions -/

/-- The text of a definition, from the word `to` through the word `end`, has the tokens that the
whole text has there. -/
theorem exists_excerpt {source : String} {scan : Scan} {front middle rest : List Token}
    {opening closing : Span} (hscan : Scan.ofSource source = .ok scan)
    (htokens : scan.tokens =
      front ++ ⟨.define, opening⟩ :: (middle ++ ⟨.close, closing⟩ :: rest)) :
    ∃ before text after excerpt,
      (opening.through closing).Covers source before (String.toList text) after ∧
      Scan.ofSource text = .ok excerpt ∧
      List.Forall₂ (Token.Shifted (byteLength before))
        (⟨.define, opening⟩ :: (middle ++ [⟨.close, closing⟩])) excerpt.tokens := by
  obtain ⟨tokens, finish⟩ := scan
  subst htokens
  obtain ⟨before, behind, depth, first, hsource, hback, hopening, hdepth⟩ :=
    exists_scanFrom_back hscan
  obtain rfl := hdepth rfl
  obtain rfl : opening = .between (.behind before) first := hopening
  rw [← List.cons_append] at hback
  obtain ⟨text, after, last, rfl, hfront, hclosing⟩ := exists_scanFrom_front hback
  have hoffset : (Position.origin.advanceAll before).offset =
      byteLength before + Position.origin.offset := by
    rw [Position.offset_advanceAll, Nat.add_comm]
  obtain ⟨excerpt, hexcerpt, hshifted⟩ := (scanFrom_shifted 0 text hoffset).exists_ok hfront
  have hcovers : ((Span.between (.behind before) first).through closing).Covers source before text
      after := by
    have hplace := Span.covers_between hsource
    refine ⟨hsource, hplace.start, ?_, hplace.line, hplace.column⟩
    rw [byteLength_append, ← Position.offset_behind before]
    exact hclosing
  refine ⟨before, .ofList text, after, excerpt, ?_, ?_, hshifted⟩
  · rwa [String.toList_ofList]
  · rwa [Scan.ofSource, String.toList_ofList]

end Logo
