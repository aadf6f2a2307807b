import Logo.Proofs.ListText
import Logo.Proofs.Numerals
import Logo.Proofs.Parallel

/-!
# Texts with other white space

White space between the words of a list, outside the lists in it, may be put in and left out as long
as the words stay apart and no line ends are touched. When such a text is read as code it shows the
same tokens: no token of code goes beyond the word in which it begins, unless it is the text of a
list, and that has not been changed.
-/

namespace Logo

def unspaced (text : List Char) : List Char :=
  text.filter (!Text.isBlank ·)

@[simp]
theorem unspaced_append (first second : List Char) :
    unspaced (first ++ second) = unspaced first ++ unspaced second :=
  List.filter_append ..

variable {c : Char} {depth : Nat} {text other : List Char}

theorem unspaced_cons_of_blank (hblank : Text.isBlank c = true) (text : List Char) :
    unspaced (c :: text) = unspaced text := by
  simp [unspaced, hblank]

theorem unspaced_cons_congr (c : Char) {first second : List Char}
    (hsame : unspaced first = unspaced second) :
    unspaced (c :: first) = unspaced (c :: second) := by
  rw [← List.singleton_append, ← @List.singleton_append _ c second, unspaced_append,
    unspaced_append, hsame]

/-- Two texts that differ at most in the white space between words outside brackets. Both begin
behind as many opening brackets that are not closed yet as the depth says. -/
inductive Respaced : Nat → List Char → List Char → Prop where
  | nil : Respaced 0 [] []
  | opening {depth : Nat} {text other : List Char} (hrest : Respaced (depth + 1) text other) :
      Respaced depth ('[' :: text) ('[' :: other)
  | closing {depth : Nat} {text other : List Char} (hrest : Respaced depth text other) :
      Respaced (depth + 1) (']' :: text) (']' :: other)
  | inside {depth : Nat} {c : Char} {text other : List Char} (hopen : c ≠ '[') (hclose : c ≠ ']')
      (hrest : Respaced (depth + 1) text other) : Respaced (depth + 1) (c :: text) (c :: other)
  | word {c : Char} {tail text other : List Char} (hfirst : endsWord c = false)
      (htail : ∀ next ∈ tail, endsWord next = false)
      (hnext : ∀ next ∈ text.head?, endsWord next = true)
      (hother : ∀ next ∈ other.head?, endsWord next = true) (hrest : Respaced 0 text other) :
      Respaced 0 (c :: (tail ++ text)) (c :: (tail ++ other))
  | left {c : Char} {text other : List Char} (hblank : Text.isBlank c = true) (hline : c ≠ '\n')
      (hrest : Respaced 0 text other) : Respaced 0 (c :: text) other
  | right {c : Char} {text other : List Char} (hblank : Text.isBlank c = true) (hline : c ≠ '\n')
      (hrest : Respaced 0 text other) : Respaced 0 text (c :: other)

/-- A line end is no part of a word. -/
theorem ne_newline_of_endsWord (hword : endsWord c = false) : (c != '\n') = true := by
  rw [bne_iff_ne]
  rintro rfl
  cases hword

namespace Respaced

variable {depth : Nat} {text other : List Char}

theorem symm (hrespaced : Respaced depth text other) : Respaced depth other text := by
  induction hrespaced with
  | nil => exact .nil
  | opening _ ih => exact .opening ih
  | closing _ ih => exact .closing ih
  | inside hopen hclose _ ih => exact .inside hopen hclose ih
  | word hfirst htail hnext hother _ ih => exact .word hfirst htail hother hnext ih
  | left hblank hline _ ih => exact .right hblank hline ih
  | right hblank hline _ ih => exact .left hblank hline ih

/-- What is left of the word is set off in the same way. -/
theorem of_word {tail : List Char} (htail : ∀ next ∈ tail, endsWord next = false)
    (hnext : ∀ next ∈ text.head?, endsWord next = true)
    (hother : ∀ next ∈ other.head?, endsWord next = true) (hrest : Respaced 0 text other) :
    Respaced 0 (tail ++ text) (tail ++ other) := by
  cases tail with
  | nil => exact hrest
  | cons c tail =>
    obtain ⟨hfirst, htail⟩ := List.forall_mem_cons.mp htail
    exact .word hfirst htail hnext hother hrest

/-- Inside brackets the texts are the same. -/
theorem append_inside {inner : List Char} (hinner : ∀ c ∈ inner, endsWord c = false)
    (hrest : Respaced (depth + 1) text other) :
    Respaced (depth + 1) (inner ++ text) (inner ++ other) := by
  induction inner with
  | nil => exact hrest
  | cons c inner ih =>
    obtain ⟨hfirst, hinner⟩ := List.forall_mem_cons.mp hinner
    obtain ⟨_, hopen, hclose⟩ := not_isBlank_of_endsWord hfirst
    exact .inside hopen hclose (ih hinner)

theorem exists_append_inside {inner : List Char} (hinner : ∀ c ∈ inner, endsWord c = false)
    (hrespaced : Respaced (depth + 1) (inner ++ text) other) :
    ∃ rest, other = inner ++ rest ∧ Respaced (depth + 1) text rest := by
  induction inner generalizing other with
  | nil => exact ⟨other, rfl, hrespaced⟩
  | cons c inner ih =>
    obtain ⟨hfirst, hinner⟩ := List.forall_mem_cons.mp hinner
    cases hrespaced with
    | opening _ => cases hfirst
    | closing _ => cases hfirst
    | inside hopen hclose hsame =>
      obtain ⟨rest, rfl, hrest⟩ := ih hinner hsame
      exact ⟨rest, rfl, hrest⟩

theorem head?_inside (hrespaced : Respaced (depth + 1) text other) : text.head? = other.head? := by
  cases hrespaced <;> rfl

/-- Inside brackets both texts go on with the same word, which ends in both. -/
theorem exists_word_inside (hrespaced : Respaced (depth + 1) text other) :
    ∃ word rest after, text = word ++ rest ∧ other = word ++ after ∧
      (∀ c ∈ word, endsWord c = false) ∧ (∀ next ∈ rest.head?, endsWord next = true) ∧
      (∀ next ∈ after.head?, endsWord next = true) ∧ Respaced (depth + 1) rest after := by
  obtain ⟨word, rest, rfl, hword, hends⟩ := exists_word_append text
  obtain ⟨after, rfl, hafter⟩ := hrespaced.exists_append_inside hword
  exact ⟨word, rest, after, rfl, rfl, hword, hends, hafter.head?_inside ▸ hends, hafter⟩

/-- Comments in the two texts end at the same line end, or both at the end of the text. -/
theorem behind_line (hrespaced : Respaced depth text other) :
    unspaced (text.takeWhile (· != '\n')) = unspaced (other.takeWhile (· != '\n')) ∧
      ∃ depth', Respaced depth' (text.dropWhile (· != '\n')) (other.dropWhile (· != '\n')) := by
  induction hrespaced with
  | nil => exact ⟨rfl, 0, .nil⟩
  | opening _ ih => exact ⟨unspaced_cons_congr '[' ih.1, ih.2⟩
  | closing _ ih => exact ⟨unspaced_cons_congr ']' ih.1, ih.2⟩
  | @inside depth c text other hopen hclose hrest ih =>
    by_cases hline : c = '\n'
    · subst hline
      exact ⟨rfl, depth + 1, .inside hopen hclose hrest⟩
    · have hc : (c != '\n') = true := bne_iff_ne.mpr hline
      simp only [List.takeWhile_cons, List.dropWhile_cons, hc, if_true]
      exact ⟨unspaced_cons_congr c ih.1, ih.2⟩
  | @word c tail text other hfirst htail hnext hother hrest ih =>
    have hword : ∀ next ∈ c :: tail, (next != '\n') = true :=
      List.forall_mem_cons.mpr ⟨ne_newline_of_endsWord hfirst,
        fun next hnext => ne_newline_of_endsWord (htail next hnext)⟩
    rw [← List.cons_append, ← List.cons_append, List.takeWhile_append_of_pos hword,
      List.takeWhile_append_of_pos hword, List.dropWhile_append_of_pos hword,
      List.dropWhile_append_of_pos hword, unspaced_append, unspaced_append, ih.1]
    exact ⟨rfl, ih.2⟩
  | @left c text other hblank hline hrest ih =>
    have hc : (c != '\n') = true := bne_iff_ne.mpr hline
    simp only [List.takeWhile_cons, List.dropWhile_cons, hc, if_true,
      unspaced_cons_of_blank hblank]
    exact ih
  | @right c text other hblank hline hrest ih =>
    have hc : (c != '\n') = true := bne_iff_ne.mpr hline
    simp only [List.takeWhile_cons, List.dropWhile_cons, hc, if_true,
      unspaced_cons_of_blank hblank]
    exact ih

end Respaced

/-! ## Lexemes end with their word -/

/-- Tables whose intervals lie apart have no character in common. -/
theorem Text.Ranges.contains_eq_false_of_apart {ranges others : Text.Ranges}
    (hapart : ranges.all (fun range => others.all fun other =>
      Nat.blt range.2 other.1 || Nat.blt other.2 range.1) = true)
    (hc : ranges.contains c = true) : others.contains c = false := by
  obtain ⟨range, hrange, hcode⟩ := List.any_eq_true.mp hc
  refine List.any_eq_false.mpr fun other hother => ?_
  have hlies := List.all_eq_true.mp (List.all_eq_true.mp hapart range hrange) other hother
  simp only [Bool.or_eq_true, Nat.blt_eq, Bool.and_eq_true, decide_eq_true_eq] at hlies hcode ⊢
  omega

theorem stops_of_isBlank (hblank : Text.isBlank c = true) :
    c.isDigit = false ∧ c ≠ '=' ∧ c ≠ '.' ∧ continuesSymbol c = false ∧ isDelimiter c = true := by
  have hletter : Text.alphabetic.contains c = false :=
    Text.Ranges.contains_eq_false_of_apart (by decide +kernel) hblank
  have hnumber : Text.numeric.contains c = false :=
    Text.Ranges.contains_eq_false_of_apart (by decide +kernel) hblank
  obtain ⟨hdigit, hequals, hpoint, halpha, hmarks⟩ :=
    Text.forall_isBlank (fun c => c.isDigit = false ∧ c ≠ '=' ∧ c ≠ '.' ∧ c.isAlpha = false ∧
      c ≠ '_' ∧ c ≠ '-' ∧ c ≠ '!' ∧ c ≠ '?') (by decide +kernel) hblank
  refine ⟨hdigit, hequals, hpoint, ?_, ?_⟩
  · simp [continuesSymbol, Text.isLetter, Text.isNumeric, hletter, hnumber, hdigit, halpha, hpoint,
      hmarks]
  · simp [isDelimiter, hblank]

/-- The characters that end a word of a list end everything that code is made of. -/
theorem stops_of_endsWord (hends : endsWord c = true) :
    c.isDigit = false ∧ c ≠ '=' ∧ c ≠ '.' ∧ continuesSymbol c = false ∧ isDelimiter c = true := by
  simp only [endsWord, Bool.or_eq_true, beq_iff_eq] at hends
  obtain (hblank | rfl) | rfl := hends
  · exact stops_of_isBlank hblank
  · decide
  · decide

section Local

variable {word rest : List Char} (hrest : ∀ next ∈ rest.head?, endsWord next = true)

include hrest

theorem takeWhile_word {holds : Char → Bool}
    (hstops : ∀ c, endsWord c = true → holds c = false) (word : List Char) :
    (word ++ rest).takeWhile holds = word.takeWhile holds := by
  have hnone : rest.takeWhile holds = [] := by
    cases rest with
    | nil => rfl
    | cons next rest => simp [hstops next (hrest next rfl)]
  rw [List.takeWhile_append, hnone, List.append_nil, ite_eq_right_iff]
  intro hlength
  exact ((List.takeWhile_prefix holds).eq_of_length hlength).symm

theorem takeWhile_wholeWord (hword : ∀ c ∈ word, endsWord c = false) :
    (word ++ rest).takeWhile (!endsWord ·) = word := by
  rw [takeWhile_word hrest (by simp) word, List.takeWhile_eq_self_iff]
  simpa using hword

/-- A numeral ends with its word. -/
theorem numberLexeme_word (c : Char) (word : List Char) :
    numberLexeme c (word ++ rest) = numberLexeme c word := by
  have hdigits : ∀ word, (word ++ rest).takeWhile Char.isDigit = word.takeWhile Char.isDigit :=
    takeWhile_word hrest fun c hends => (stops_of_endsWord hends).1
  have hwhole : wholeDigits c (word ++ rest) = wholeDigits c word := by
    rw [wholeDigits, wholeDigits, hdigits]
  have hlength : (word.takeWhile Char.isDigit).length ≤ word.length :=
    (List.takeWhile_prefix Char.isDigit).length_le
  have hdrop : (word ++ rest).drop ((word ++ rest).takeWhile Char.isDigit).length =
      word.drop (word.takeWhile Char.isDigit).length ++ rest := by
    rw [hdigits, List.drop_append_of_le_length hlength]
  by_cases hpoint : ∃ digit after,
      word.drop (word.takeWhile Char.isDigit).length = '.' :: digit :: after ∧ digit.isDigit = true
  · obtain ⟨digit, after, hafter, hdigit⟩ := hpoint
    have hboth : (word ++ rest).drop ((word ++ rest).takeWhile Char.isDigit).length =
        '.' :: digit :: (after ++ rest) := by rw [hdrop, hafter]; rfl
    rw [numberLexeme_eq_float hboth hdigit, numberLexeme_eq_float hafter hdigit]
    simp only [hdigits, hwhole]
  · have hinteger : ∀ digit after,
        word.drop (word.takeWhile Char.isDigit).length = '.' :: digit :: after →
          digit.isDigit = false := by
      intro digit after hafter
      exact Bool.eq_false_iff.mpr fun hdigit => hpoint ⟨digit, after, hafter, hdigit⟩
    have hboth : ∀ digit after,
        (word ++ rest).drop ((word ++ rest).takeWhile Char.isDigit).length =
          '.' :: digit :: after → digit.isDigit = false := by
      intro digit after hafter
      rw [hdrop] at hafter
      cases hword : word.drop (word.takeWhile Char.isDigit).length with
      | nil =>
        rw [hword, List.nil_append] at hafter
        exact absurd rfl (stops_of_endsWord (hrest '.' (by rw [hafter]; rfl))).2.2.1
      | cons first more =>
        rw [hword, List.cons_append] at hafter
        obtain ⟨rfl, hmore⟩ := List.cons.inj hafter
        cases more with
        | nil =>
          rw [List.nil_append] at hmore
          exact (stops_of_endsWord (hrest digit (by rw [hmore]; rfl))).1
        | cons second more =>
          obtain ⟨rfl, _⟩ := List.cons.inj hmore
          exact hinteger _ _ hword
    rw [numberLexeme_eq_integer hboth, numberLexeme_eq_integer hinteger, integerLexeme,
      integerLexeme, hwhole, hdigits]

omit hrest in
theorem operatorLexeme_eq (single double : Operator) (text : List Char) :
    operatorLexeme single double text =
      if text.head? = some '=' then .code (.operator double) ['=']
      else .code (.operator single) [] := by
  cases text with
  | nil => rfl
  | cons first after =>
    by_cases hfirst : first = '='
    · subst hfirst
      rfl
    · simp [operatorLexeme, hfirst]

theorem head?_word {c : Char} (hstops : endsWord c = false) (word : List Char) :
    (word ++ rest).head? = some c ↔ word.head? = some c := by
  cases word with
  | cons first word => rfl
  | nil =>
    constructor
    · intro hhead
      rw [hrest c hhead] at hstops
      cases hstops
    · intro hhead
      cases hhead

/-- What stands behind a word does not change its first lexeme. -/
theorem codeLexeme_word (c : Char) (word : List Char) :
    codeLexeme c (word ++ rest) = codeLexeme c word := by
  have hequals : (word ++ rest).head? = some '=' ↔ word.head? = some '=' :=
    head?_word hrest (by decide) word
  have hname : (word ++ rest).takeWhile (!isDelimiter ·) = word.takeWhile (!isDelimiter ·) :=
    takeWhile_word hrest (fun c hends => by simp [(stops_of_endsWord hends).2.2.2.2]) word
  rw [codeLexeme.eq_def c (word ++ rest), codeLexeme.eq_def c word]
  split
  case h_9 =>
    cases word with
    | cons first word =>
      rw [List.cons_append]
      dsimp only
      rw [← List.cons_append, numberLexeme_word hrest]
    | nil =>
      cases rest with
      | nil => rfl
      | cons next rest =>
        have hnext := (stops_of_endsWord (hrest next rfl)).1
        simp [hnext]
  case h_10 | h_11 | h_12 => simp only [operatorLexeme_eq, hequals]
  case h_13 =>
    cases word with
    | cons first word =>
      by_cases hfirst : first = '='
      · subst hfirst
        rfl
      · simp [hfirst]
    | nil =>
      cases rest with
      | nil => rfl
      | cons next rest =>
        have hnext := (stops_of_endsWord (hrest next rfl)).2.1
        simp [hnext]
  case h_14 => rw [quoteLexeme, quoteLexeme, hname]
  case h_15 => rw [referenceLexeme, referenceLexeme, hname]
  case h_16 =>
    have hsymbol : (word ++ rest).takeWhile continuesSymbol = word.takeWhile continuesSymbol :=
      takeWhile_word hrest (fun c hends => (stops_of_endsWord hends).2.2.2.1) word
    rw [numberLexeme_word hrest, symbolLexeme, symbolLexeme, hsymbol]
  all_goals rfl

end Local

/-! ## Where the next lexeme begins -/

/-- The text begins with this gap of white space and comments, and the lexer goes over it. -/
structure Skips (text gap rest : List Char) : Prop where
  text_eq : text = gap ++ rest
  scan : ∀ position, scanFrom 0 position text = scanFrom 0 (position.advanceAll gap) rest

namespace Skips

variable {text gap rest : List Char}

theorem refl (text : List Char) : Skips text [] text :=
  ⟨rfl, fun _ => rfl⟩

theorem blank {c : Char} (hskipped : isSkipped 0 c = true) (hskips : Skips text gap rest) :
    Skips (c :: text) (c :: gap) rest where
  text_eq := congrArg _ hskips.text_eq
  scan position := by
    rw [scanFrom, if_pos hskipped, hskips.scan]
    rfl

theorem comment (hskips : Skips (text.dropWhile (· != '\n')) gap rest) :
    Skips (';' :: text) (';' :: (text.takeWhile (· != '\n') ++ gap)) rest where
  text_eq := by
    rw [List.cons_append, List.append_assoc, ← hskips.text_eq, List.takeWhile_append_dropWhile]
  scan position := by
    rw [scanFrom, if_neg (by decide), if_pos ⟨rfl, rfl⟩]
    dsimp only
    rw [hskips.scan, ← List.cons_append]
    exact congrArg (scanFrom 0 · rest) List.foldl_append.symm

end Skips

/-- The same lexeme stands at the front of both texts, and what is behind it differs in white space
only. -/
structure Front (depth : Nat) (c : Char) (word rest other : List Char) : Prop where
  unskipped : isSkipped 0 c = false
  code : c ≠ ';'
  lexeme : codeLexeme c (word ++ rest) = codeLexeme c word
  mate : codeLexeme c (word ++ other) = codeLexeme c word
  behind : ∀ {taken left}, word = taken ++ left → Respaced depth (left ++ rest) (left ++ other)
  opening : c = '[' → 0 < depth

/-- A bracket is a lexeme of its own. -/
theorem front_bracket {depth : Nat} {c : Char} {text other : List Char} (hc : c = '[' ∨ c = ']')
    (hopening : c = '[' → 0 < depth) (hrest : Respaced depth text other) :
    Front depth c [] text other where
  unskipped := by
    obtain rfl | rfl := hc
    · decide
    · decide
  code := by
    obtain rfl | rfl := hc
    · decide
    · decide
  lexeme := by obtain rfl | rfl := hc <;> rfl
  mate := by obtain rfl | rfl := hc <;> rfl
  behind hword := by
    obtain ⟨-, rfl⟩ := List.append_eq_nil_iff.mp hword.symm
    exact hrest
  opening := hopening

def Starts (text other gap mate : List Char) : Prop :=
  Skips text gap [] ∧ Skips other mate [] ∨
    ∃ depth c word rest after, Front depth c word rest after ∧
      Skips text gap (c :: (word ++ rest)) ∧ Skips other mate (c :: (word ++ after))

namespace Starts

variable {text other gap mate : List Char}

theorem of_front {depth : Nat} {c : Char} {word rest after : List Char}
    (hfront : Front depth c word rest after) :
    Starts (c :: (word ++ rest)) (c :: (word ++ after)) [] [] :=
  .inr ⟨depth, c, word, rest, after, hfront, .refl _, .refl _⟩

theorem mono {text' other' gap' mate' : List Char}
    (htext : ∀ {rest}, Skips text gap rest → Skips text' gap' rest)
    (hother : ∀ {rest}, Skips other mate rest → Skips other' mate' rest)
    (hstarts : Starts text other gap mate) : Starts text' other' gap' mate' := by
  obtain ⟨hend, hmate⟩ | ⟨depth, c, word, rest, after, hfront, hskips, hmate⟩ := hstarts
  · exact .inl ⟨htext hend, hother hmate⟩
  · exact .inr ⟨depth, c, word, rest, after, hfront, htext hskips, hother hmate⟩

end Starts

/-- A word that is no comment shows the same lexeme, whatever comes behind it. -/
theorem front_word {depth : Nat} {c : Char} {word rest other : List Char}
    (hskipped : isSkipped 0 c = false) (hcode : c ≠ ';') (hopen : c ≠ '[')
    (hrest : ∀ next ∈ rest.head?, endsWord next = true)
    (hother : ∀ next ∈ other.head?, endsWord next = true)
    (hbehind : ∀ {taken left}, word = taken ++ left →
      Respaced depth (left ++ rest) (left ++ other)) : Front depth c word rest other where
  unskipped := hskipped
  code := hcode
  lexeme := codeLexeme_word hrest c word
  mate := codeLexeme_word hother c word
  behind := hbehind
  opening hc := absurd hc hopen

/-- Behind comments the texts are shorter. -/
theorem Respaced.starts_comment (hrespaced : Respaced depth text other)
    (hshorter : ∀ {depth rest after}, rest.length + after.length ≤ text.length + other.length →
      Respaced depth rest after →
        ∃ gap mate, unspaced gap = unspaced mate ∧ Starts rest after gap mate) :
    ∃ gap mate, unspaced gap = unspaced mate ∧ Starts (';' :: text) (';' :: other) gap mate := by
  obtain ⟨hline, depth', hbehind⟩ := hrespaced.behind_line
  have hlength := Nat.add_le_add
    (List.dropWhile_sublist (l := text) (· != '\n')).length_le
    (List.dropWhile_sublist (l := other) (· != '\n')).length_le
  obtain ⟨gap, mate, hgap, hstarts⟩ := hshorter hlength hbehind
  refine ⟨_, _, ?_, hstarts.mono .comment .comment⟩
  apply unspaced_cons_congr
  rw [unspaced_append, unspaced_append, hline, hgap]

/-- Behind their gaps, respaced texts begin alike. -/
theorem Respaced.exists_starts (hrespaced : Respaced depth text other) :
    ∃ gap mate, unspaced gap = unspaced mate ∧ Starts text other gap mate := by
  induction hlength : text.length + other.length using Nat.strongRecOn
    generalizing depth text other with
  | ind length ih =>
    subst hlength
    cases hrespaced with
    | nil => exact ⟨[], [], rfl, .inl ⟨.refl [], .refl []⟩⟩
    | opening hrest =>
      exact ⟨[], [], rfl, .of_front (front_bracket (.inl rfl) (fun _ => Nat.succ_pos _) hrest)⟩
    | closing hrest =>
      exact ⟨[], [], rfl, .of_front (front_bracket (.inr rfl) (fun hc => by cases hc) hrest)⟩
    | @inside depth c text other hopen hclose hrest =>
      by_cases hskipped : isSkipped 0 c = true
      · obtain ⟨gap, mate, hgap, hstarts⟩ := ih _ (by
          simp only [List.length_cons]
          omega) hrest rfl
        exact ⟨c :: gap, c :: mate, unspaced_cons_congr c hgap,
          hstarts.mono (.blank hskipped) (.blank hskipped)⟩
      by_cases hsemicolon : c = ';'
      · subst hsemicolon
        refine hrest.starts_comment fun hle hbehind => ih _ ?_ hbehind rfl
        simp only [List.length_cons]
        omega
      obtain ⟨word, rest, after, rfl, rfl, hword, hends, hmate, hafter⟩ :=
        hrest.exists_word_inside
      have hbehind : ∀ {taken left}, word = taken ++ left →
          Respaced (depth + 1) (left ++ rest) (left ++ after) := by
        rintro taken left rfl
        exact hafter.append_inside fun next hmem =>
          hword next (List.mem_append_right taken hmem)
      exact ⟨[], [], rfl, .of_front
        (front_word (Bool.eq_false_iff.mpr hskipped) hsemicolon hopen hends hmate hbehind)⟩
    | @word c tail text other hfirst htail hnext hother hrest =>
      obtain ⟨hblank, hopen, _⟩ := not_isBlank_of_endsWord hfirst
      by_cases hsemicolon : c = ';'
      · subst hsemicolon
        refine (hrest.of_word htail hnext hother).starts_comment fun hle hbehind =>
          ih _ ?_ hbehind rfl
        simp only [List.length_cons]
        omega
      have hbehind : ∀ {taken left}, tail = taken ++ left →
          Respaced 0 (left ++ text) (left ++ other) := by
        rintro taken left rfl
        exact hrest.of_word (fun next hmem => htail next (List.mem_append_right taken hmem))
          hnext hother
      have hskipped : isSkipped 0 c = false := by simp [isSkipped, hblank]
      exact ⟨[], [], rfl, .of_front
        (front_word hskipped hsemicolon hopen hnext hother hbehind)⟩
    | @left c text other hblank hline hrest =>
      obtain ⟨gap, mate, hgap, hstarts⟩ := ih _ (by
        simp only [List.length_cons]
        omega) hrest rfl
      have hskipped : isSkipped 0 c = true := by simp [isSkipped, hblank, hline]
      refine ⟨c :: gap, mate, ?_, hstarts.mono (.blank hskipped) id⟩
      rw [unspaced_cons_of_blank hblank, hgap]
    | @right c text other hblank hline hrest =>
      obtain ⟨gap, mate, hgap, hstarts⟩ := ih _ (by
        simp only [List.length_cons]
        omega) hrest rfl
      have hskipped : isSkipped 0 c = true := by simp [isSkipped, hblank, hline]
      refine ⟨gap, c :: mate, ?_, hstarts.mono id (.blank hskipped)⟩
      rw [unspaced_cons_of_blank hblank, hgap]

/-! ## The tokens of both texts -/

/-- What is left of the two texts behind the lexeme. -/
theorem Front.behind_lexeme {word rest other : List Char} {lexeme : Lexeme}
    (hfront : Front depth c word rest other) (hlexeme : codeLexeme c word = .ok lexeme) :
    Respaced depth ((word ++ rest).drop lexeme.tail.length)
        ((word ++ other).drop lexeme.tail.length) ∧ lexeme.depth ≤ depth := by
  have hfits := fitsCode_codeLexeme hlexeme
  obtain ⟨left, rfl⟩ := hfits.tail
  constructor
  · rw [List.append_assoc, List.append_assoc, List.drop_left, List.drop_left]
    exact hfront.behind rfl
  · by_cases hkind : lexeme.kind = .leftBracket
    · obtain ⟨hc, -, hdepth⟩ := hfits.opening hkind
      rw [hdepth]
      exact hfront.opening hc
    · rw [hfits.depth hkind]
      exact Nat.zero_le depth

theorem scanFrom_code {rest : List Char} (hskipped : isSkipped 0 c = false) (hcode : c ≠ ';')
    (position : Position) :
    scanFrom 0 position (c :: rest) =
      match codeLexeme c rest with
      | .error fault => .error ⟨fault, position.line, position.column⟩
      | .ok lexeme =>
        (scanFrom lexeme.depth (position.advanceAll (c :: lexeme.tail))
          (rest.drop lexeme.tail.length)).map
            (.cons ⟨lexeme.kind, .between position (position.advanceAll (c :: lexeme.tail))⟩) := by
  rw [scanFrom, if_neg (by simp [hskipped]), if_neg (by simp [hcode])]
  rfl

theorem scanFrom_list {rest : List Char} (hblank : Text.isBlank c = false) (depth : Nat)
    (position : Position) :
    scanFrom (depth + 1) position (c :: rest) =
      let lexeme := listLexeme (depth + 1) c rest
      (scanFrom lexeme.depth (position.advanceAll (c :: lexeme.tail))
        (rest.drop lexeme.tail.length)).map
          (.cons ⟨lexeme.kind, .between position (position.advanceAll (c :: lexeme.tail))⟩) := by
  rw [scanFrom, if_neg (by simp [isSkipped, hblank]), if_neg (by simp), lexeme,
    if_neg (Nat.succ_ne_zero depth)]

def SameKinds (scan other : Scan) : Prop :=
  scan.tokens.map (·.kind) = other.tokens.map (·.kind)

theorem SameKinds.map_cons {result other : Except LexError Scan}
    (hagree : Agree SameKinds result other) (kind : TokenKind) (span mate : Span) :
    Agree SameKinds (result.map (.cons ⟨kind, span⟩)) (other.map (.cons ⟨kind, mate⟩)) := by
  cases hagree with
  | ok hkinds => exact .ok (congrArg (kind :: ·) hkinds)
  | error => exact .error

/-- The lexer sees the same tokens in both texts. While it reads list text it stands behind as many
brackets as both texts have open, or fewer, since it goes over those in comments. -/
theorem Respaced.scanFrom {lists depth : Nat} (hrespaced : Respaced lists text other)
    (hdepth : depth ≤ lists) (position mate : Position) :
    Agree SameKinds (scanFrom depth position text) (scanFrom depth mate other) := by
  induction hlength : text.length using Nat.strongRecOn
    generalizing lists depth text other position mate with
  | ind length ih =>
    subst hlength
    cases depth with
    | zero =>
      obtain ⟨gap, gap', -, ⟨hskips, hskips'⟩ |
        ⟨lists', c, word, rest, after, hfront, hskips, hskips'⟩⟩ := hrespaced.exists_starts
      · rw [hskips.scan, hskips'.scan, Logo.scanFrom, Logo.scanFrom]
        exact .ok rfl
      · rw [hskips.scan, hskips'.scan, scanFrom_code hfront.unskipped hfront.code,
          scanFrom_code hfront.unskipped hfront.code, hfront.lexeme, hfront.mate]
        cases hlexeme : codeLexeme c word with
        | error fault => exact .error
        | ok lexeme =>
          obtain ⟨hbehind, hopen⟩ := hfront.behind_lexeme hlexeme
          have hshorter : ((word ++ rest).drop lexeme.tail.length).length < text.length := by
            rw [hskips.text_eq, List.length_drop]
            simp only [List.length_append, List.length_cons]
            omega
          exact SameKinds.map_cons (ih _ hshorter hbehind hopen _ _ rfl) _ _ _
    | succ depth =>
      cases hrespaced with
      | opening hrest =>
        rw [scanFrom_list (by decide), scanFrom_list (by decide)]
        exact SameKinds.map_cons
          (ih _ (Nat.lt_succ_self _) hrest (Nat.succ_le_succ hdepth) _ _ rfl) _ _ _
      | closing hrest =>
        rw [scanFrom_list (by decide), scanFrom_list (by decide)]
        exact SameKinds.map_cons
          (ih _ (Nat.lt_succ_self _) hrest (Nat.le_of_succ_le_succ hdepth) _ _ rfl) _ _ _
      | @inside lists c text other hopen hclose hrest =>
        by_cases hblank : Text.isBlank c = true
        · have hskipped : isSkipped (depth + 1) c = true := by simp [isSkipped, hblank]
          rw [Logo.scanFrom, if_pos hskipped, Logo.scanFrom, if_pos hskipped]
          exact ih _ (Nat.lt_succ_self _) hrest hdepth _ _ rfl
        obtain ⟨word, rest, after, rfl, rfl, hword, hends, hmate, hafter⟩ :=
          hrest.exists_word_inside
        have hfirst : endsWord c = false := by simp [endsWord, hblank, hopen, hclose]
        have hshorter : rest.length < (c :: (word ++ rest)).length := by
          simp only [List.length_cons, List.length_append]
          omega
        rw [scanFrom_list (Bool.eq_false_iff.mpr hblank),
          scanFrom_list (Bool.eq_false_iff.mpr hblank), listLexeme_of_word _ hfirst,
          listLexeme_of_word _ hfirst, takeWhile_wholeWord hends hword,
          takeWhile_wholeWord hmate hword]
        dsimp only
        rw [List.drop_left, List.drop_left]
        exact SameKinds.map_cons (ih _ hshorter hafter hdepth _ _ rfl) _ _ _
      | nil | word | left | right => cases hdepth

end Logo
