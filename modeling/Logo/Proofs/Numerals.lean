import Logo.Proofs.Scanning
import Mathlib.Data.List.TakeWhile

/-!
# Numbers in words and in code

A word is read as a number by `Number.ofWord?`, and code by the lexer. Both know the same numerals:
a minus sign perhaps, digits, and perhaps a point with digits behind it. They differ in two ways
only. A word may end in its point, while in code a point needs a digit behind it. And code may have
white space around its tokens and a comment behind them.
-/

namespace Logo

/-! ## Numerals -/

def signText (negative : Bool) : List Char :=
  if negative then ['-'] else []

/-- A text that spells a number, and the number. -/
inductive Numeral : List Char → Number → Prop where
  | integer {negative : Bool} {whole : List Char} {value : Int64} (hwhole : whole ≠ [])
      (hdigits : ∀ c ∈ whole, c.isDigit = true) (hvalue : readInteger negative whole = some value) :
      Numeral (signText negative ++ whole) (.integer value)
  | float {negative : Bool} {whole fraction : List Char} (hwhole : whole ≠ [])
      (hdigits : ∀ c ∈ whole, c.isDigit = true) (hfraction : ∀ c ∈ fraction, c.isDigit = true) :
      Numeral (signText negative ++ (whole ++ '.' :: fraction))
        (.float (readFloat negative whole fraction))

variable {c : Char} {value : Number} {rest text : List Char}

theorem Numeral.ne_nil (hnumeral : Numeral text value) : text ≠ [] := by
  cases hnumeral with
  | integer hwhole => simp [hwhole]
  | float hwhole => simp

theorem takeWhile_digits {digits after : List Char} (hdigits : ∀ c ∈ digits, c.isDigit = true)
    (hafter : ∀ c ∈ after.head?, c.isDigit = false) :
    (digits ++ after).takeWhile Char.isDigit = digits := by
  rw [List.takeWhile_append_of_pos hdigits]
  cases after with
  | nil => simp
  | cons c after => simp [hafter c rfl]

theorem dropWhile_digits {digits after : List Char} (hdigits : ∀ c ∈ digits, c.isDigit = true)
    (hafter : ∀ c ∈ after.head?, c.isDigit = false) :
    (digits ++ after).dropWhile Char.isDigit = after := by
  rw [List.dropWhile_append_of_pos hdigits]
  cases after with
  | nil => rfl
  | cons c after => simp [hafter c rfl]

/-! ## Words -/

def splitSign : List Char → Bool × List Char
  | '-' :: digits => (true, digits)
  | digits => (false, digits)

def unsignedWord? (negative : Bool) (digits : List Char) : Option Number :=
  let whole := digits.takeWhile Char.isDigit
  match whole, digits.dropWhile Char.isDigit with
  | [], _ => none
  | _, [] => (readInteger negative whole).map .integer
  | _, '.' :: fraction =>
    if fraction.all Char.isDigit then some (.float (readFloat negative whole fraction)) else none
  | _, _ => none

theorem ofWord?_eq (text : String) :
    Number.ofWord? text = unsignedWord? (splitSign text.toList).1 (splitSign text.toList).2 :=
  rfl

theorem signText_splitSign (text : List Char) :
    signText (splitSign text).1 ++ (splitSign text).2 = text := by
  fun_cases splitSign text <;> rfl

/-- A word that is read as a number is a numeral. -/
theorem numeral_of_unsignedWord? {negative : Bool} {digits : List Char}
    (hvalue : unsignedWord? negative digits = some value) :
    Numeral (signText negative ++ digits) value := by
  have hdigits : digits.takeWhile Char.isDigit ++ digits.dropWhile Char.isDigit = digits :=
    List.takeWhile_append_dropWhile
  have hall : ∀ c ∈ digits.takeWhile Char.isDigit, c.isDigit = true :=
    List.all_eq_true.mp List.all_takeWhile
  revert hvalue
  fun_cases unsignedWord? negative digits with
  | case1 => simp
  | case2 whole hrest hwhole =>
    intro hvalue
    obtain ⟨number, hnumber, rfl⟩ := Option.map_eq_some_iff.mp hvalue
    rw [hrest, List.append_nil] at hdigits
    rw [← hdigits]
    exact .integer hwhole hall hnumber
  | case3 whole fraction hrest hfraction hwhole =>
    rintro ⟨⟩
    rw [hrest] at hdigits
    rw [← hdigits]
    exact .float hwhole hall (List.all_eq_true.mp hfraction)
  | case4 => simp
  | case5 => simp

theorem splitSign_whole (negative : Bool) {whole : List Char} (hwhole : whole ≠ [])
    (hdigits : ∀ c ∈ whole, c.isDigit = true) (rest : List Char) :
    splitSign (signText negative ++ (whole ++ rest)) = (negative, whole ++ rest) := by
  cases negative with
  | true => rfl
  | false =>
    obtain ⟨digit, more, rfl⟩ := List.exists_cons_of_ne_nil hwhole
    rw [signText, if_neg Bool.false_ne_true, List.nil_append, splitSign]
    rintro other hminus
    rw [(List.cons.inj hminus).1] at hdigits
    exact absurd (hdigits '-' List.mem_cons_self) (by decide)

/-- A numeral is read as its number. -/
theorem Numeral.ofWord? (hnumeral : Numeral text value) :
    Number.ofWord? (String.ofList text) = some value := by
  rw [ofWord?_eq, String.toList_ofList]
  cases hnumeral with
  | @integer negative whole value hwhole hdigits hvalue =>
    have hsplit := splitSign_whole negative hwhole hdigits []
    have htake := @takeWhile_digits whole [] hdigits (by simp)
    have hdrop := @dropWhile_digits whole [] hdigits (by simp)
    rw [List.append_nil] at hsplit htake hdrop
    rw [hsplit, unsignedWord?, htake, hdrop]
    obtain ⟨digit, more, rfl⟩ := List.exists_cons_of_ne_nil hwhole
    simp [hvalue]
  | @float negative whole fraction hwhole hdigits hfraction =>
    rw [splitSign_whole negative hwhole hdigits, unsignedWord?,
      takeWhile_digits hdigits (by simp), dropWhile_digits hdigits (by simp)]
    obtain ⟨digit, more, rfl⟩ := List.exists_cons_of_ne_nil hwhole
    simpa using hfraction

/-- A word is read as a number exactly if it is a numeral. -/
theorem ofWord?_eq_some_iff :
    Number.ofWord? (String.ofList text) = some value ↔ Numeral text value := by
  refine ⟨?_, Numeral.ofWord?⟩
  intro hvalue
  rw [ofWord?_eq, String.toList_ofList] at hvalue
  simpa only [signText_splitSign] using numeral_of_unsignedWord? hvalue

/-! ## Code -/

/-- A numeral starts with a digit or with a minus sign before a digit. -/
def StartsNumeral (c : Char) (rest : List Char) : Prop :=
  c.isDigit = true ∨ c = '-' ∧ ∃ digit ∈ rest.head?, digit.isDigit = true

/-- What starts as a numeral is read as one. -/
theorem codeLexeme_of_startsNumeral (hstarts : StartsNumeral c rest) :
    codeLexeme c rest = numberLexeme c rest := by
  obtain hdigit | ⟨rfl, digit, hhead, hdigit⟩ := hstarts
  · have hne : ∀ other : Char, other.isDigit = false → c ≠ other := by
      rintro other hother rfl
      exact absurd hdigit (by simp [hother])
    rw [codeLexeme, if_pos hdigit]
    all_goals exact hne _ (by decide)
  · obtain ⟨after, rfl⟩ : ∃ after, rest = digit :: after := by
      cases rest with
      | nil => cases hhead
      | cons first after => exact ⟨after, by simpa using hhead⟩
    simp [codeLexeme, hdigit]

theorem StartsNumeral.not_isSkipped (hstarts : StartsNumeral c rest) :
    isSkipped 0 c = false ∧ c ≠ ';' := by
  obtain hdigit | ⟨rfl, _⟩ := hstarts
  · constructor
    · by_contra hskipped
      rw [Bool.not_eq_false, isSkipped, Bool.and_eq_true] at hskipped
      have hnone := Text.forall_isBlank (·.isDigit = false) (by decide +kernel) hskipped.1
      exact absurd hdigit (by simp [hnone])
    · rintro rfl
      exact absurd hdigit (by decide)
  · decide

theorem symbolKind_ne_number (name : String) (value : Number) :
    symbolKind name ≠ .number value := by
  rw [symbolKind]
  split <;> simp

/-- Numbers in code start as numerals do. -/
theorem startsNumeral_of_codeLexeme {lexeme : Lexeme} (hlexeme : codeLexeme c rest = .ok lexeme)
    (hkind : lexeme.kind = .number value) : StartsNumeral c rest := by
  revert hlexeme
  fun_cases codeLexeme c rest <;> intro hlexeme
  case case9 digit after hdigit => exact .inr ⟨rfl, digit, rfl, hdigit⟩
  case case19 => exact .inl ‹_›
  case case12 | case13 | case14 =>
    rw [operatorLexeme.eq_def] at hlexeme
    split at hlexeme <;> cases hlexeme <;> cases hkind
  case case18 =>
    simp only [referenceLexeme] at hlexeme
    split at hlexeme <;> cases hlexeme
    cases hkind
  case case20 =>
    rw [if_neg ‹_›, if_pos ‹_›] at hlexeme
    cases hlexeme
    exact absurd hkind (symbolKind_ne_number _ value)
  case case16 | case21 => simp_all
  all_goals
    cases hlexeme
    cases hkind

def wholeDigits (c : Char) (rest : List Char) : List Char :=
  if (c == '-') = true then rest.takeWhile Char.isDigit else c :: rest.takeWhile Char.isDigit

theorem signText_wholeDigits (c : Char) (rest : List Char) :
    signText (c == '-') ++ wholeDigits c rest = c :: rest.takeWhile Char.isDigit := by
  by_cases hminus : c = '-'
  · simp [signText, wholeDigits, hminus]
  · simp [signText, wholeDigits, hminus]

theorem StartsNumeral.wholeDigits_ne_nil (hstarts : StartsNumeral c rest) :
    wholeDigits c rest ≠ [] := by
  rw [wholeDigits]
  split
  · rename_i hminus
    obtain hdigit | ⟨_, digit, hhead, hdigit⟩ := hstarts
    · rw [beq_iff_eq.mp hminus] at hdigit
      exact absurd hdigit (by decide)
    · cases rest with
      | nil => cases hhead
      | cons first after =>
        cases hhead
        simp [hdigit]
  · simp

theorem StartsNumeral.isDigit_of_mem (hstarts : StartsNumeral c rest) :
    ∀ digit ∈ wholeDigits c rest, digit.isDigit = true := by
  have hmore : ∀ digit ∈ rest.takeWhile Char.isDigit, digit.isDigit = true :=
    List.all_eq_true.mp List.all_takeWhile
  rw [wholeDigits]
  split
  · exact hmore
  · rename_i hminus
    have hdigit : c.isDigit = true := by
      obtain hdigit | ⟨rfl, _⟩ := hstarts
      · exact hdigit
      · exact absurd rfl hminus
    exact List.forall_mem_cons.mpr ⟨hdigit, hmore⟩

theorem getLast?_ne_point {before digits : List Char} (hne : digits ≠ [])
    (hdigits : ∀ c ∈ digits, c.isDigit = true) : (before ++ digits).getLast? ≠ some '.' := by
  rw [List.getLast?_append, List.getLast?_eq_some_getLast hne, Option.some_or]
  intro hlast
  have hdigit := hdigits _ (List.getLast_mem hne)
  rw [Option.some.inj hlast] at hdigit
  exact absurd hdigit (by decide)

def integerLexeme (c : Char) (rest : List Char) : Except LexFault Lexeme :=
  match readInteger (c == '-') (wholeDigits c rest) with
  | some value => .ok (.code (.number (.integer value)) (rest.takeWhile Char.isDigit))
  | none => .error (.integerRange (String.ofList (c :: rest.takeWhile Char.isDigit)))

theorem numberLexeme_eq_integer
    (hrest : ∀ digit after,
      rest.drop (rest.takeWhile Char.isDigit).length = '.' :: digit :: after →
        digit.isDigit = false) : numberLexeme c rest = integerLexeme c rest := by
  fun_cases numberLexeme c rest with
  | case1 more negative whole digit after hpoint hdigit =>
    rw [hrest digit after hpoint] at hdigit
    cases hdigit
  | case2 => rfl
  | case3 => rfl

theorem numberLexeme_eq_float {c digit : Char} {rest after : List Char}
    (hrest : rest.drop (rest.takeWhile Char.isDigit).length = '.' :: digit :: after)
    (hdigit : digit.isDigit = true) :
    numberLexeme c rest =
      let fraction := digit :: after.takeWhile Char.isDigit
      .ok (.code (.number (.float (readFloat (c == '-') (wholeDigits c rest) fraction)))
        (rest.takeWhile Char.isDigit ++ '.' :: fraction)) := by
  simp only [numberLexeme, hrest, hdigit, if_true]
  rfl

/-- A numeral in code is an integer, or it has a fraction. -/
theorem numberLexeme_cases {lexeme : Lexeme} (hlexeme : numberLexeme c rest = .ok lexeme) :
    (∃ value, readInteger (c == '-') (wholeDigits c rest) = some value ∧
      lexeme = .code (.number (.integer value)) (rest.takeWhile Char.isDigit)) ∨
    ∃ fraction, fraction ≠ [] ∧ (∀ digit ∈ fraction, digit.isDigit = true) ∧
      lexeme = .code (.number (.float (readFloat (c == '-') (wholeDigits c rest) fraction)))
        (rest.takeWhile Char.isDigit ++ '.' :: fraction) := by
  by_cases hpoint : ∃ digit after,
      rest.drop (rest.takeWhile Char.isDigit).length = '.' :: digit :: after ∧ digit.isDigit = true
  · obtain ⟨digit, after, hrest, hdigit⟩ := hpoint
    rw [numberLexeme_eq_float hrest hdigit] at hlexeme
    cases hlexeme
    have hmore := List.all_eq_true.mp (@List.all_takeWhile _ Char.isDigit after)
    exact .inr ⟨_, by simp, List.forall_mem_cons.mpr ⟨hdigit, hmore⟩, rfl⟩
  · have hrest : ∀ digit after,
        rest.drop (rest.takeWhile Char.isDigit).length = '.' :: digit :: after →
          digit.isDigit = false := by
      intro digit after hrest
      exact Bool.eq_false_iff.mpr fun hdigit => hpoint ⟨digit, after, hrest, hdigit⟩
    rw [numberLexeme_eq_integer hrest, integerLexeme] at hlexeme
    cases hvalue : readInteger (c == '-') (wholeDigits c rest) with
    | none =>
      rw [hvalue] at hlexeme
      cases hlexeme
    | some value =>
      rw [hvalue] at hlexeme
      cases hlexeme
      exact .inl ⟨value, rfl, rfl⟩

/-- What a numeral of code covers. -/
theorem numeral_of_numberLexeme {lexeme : Lexeme} (hstarts : StartsNumeral c rest)
    (hlexeme : numberLexeme c rest = .ok lexeme) :
    lexeme.depth = 0 ∧ ∃ value, lexeme.kind = .number value ∧ Numeral (c :: lexeme.tail) value ∧
      (c :: lexeme.tail).getLast? ≠ some '.' := by
  obtain ⟨value, hvalue, rfl⟩ | ⟨fraction, hne, hfraction, rfl⟩ := numberLexeme_cases hlexeme
  · refine ⟨rfl, .integer value, rfl, ?_⟩
    rw [Lexeme.code, ← signText_wholeDigits]
    exact ⟨.integer hstarts.wholeDigits_ne_nil hstarts.isDigit_of_mem hvalue,
      getLast?_ne_point hstarts.wholeDigits_ne_nil hstarts.isDigit_of_mem⟩
  · refine ⟨rfl, _, rfl, ?_⟩
    rw [Lexeme.code, ← List.cons_append, ← signText_wholeDigits, List.append_assoc]
    refine ⟨.float hstarts.wholeDigits_ne_nil hstarts.isDigit_of_mem hfraction, ?_⟩
    have hlast := @getLast?_ne_point (signText (c == '-') ++ (wholeDigits c rest ++ ['.'])) _ hne
      hfraction
    simpa using hlast

/-- The sign and the digits of a numeral, seen from its first character. -/
theorem exists_digits_of_cons {negative : Bool} {whole point tail : List Char}
    (htext : signText negative ++ (whole ++ point) = c :: tail) (hwhole : whole ≠ [])
    (hdigits : ∀ digit ∈ whole, digit.isDigit = true) :
    ∃ more, tail = more ++ point ∧ (∀ digit ∈ more, digit.isDigit = true) ∧
      negative = (c == '-') ∧ whole = (if (c == '-') = true then more else c :: more) ∧
      ∀ after, StartsNumeral c (tail ++ after) := by
  obtain ⟨digit, rest, rfl⟩ := List.exists_cons_of_ne_nil hwhole
  obtain ⟨hdigit, hrest⟩ := List.forall_mem_cons.mp hdigits
  cases negative with
  | true =>
    obtain ⟨rfl, rfl⟩ := List.cons.inj htext
    exact ⟨digit :: rest, rfl, hdigits, rfl, rfl, fun after => .inr ⟨rfl, digit, rfl, hdigit⟩⟩
  | false =>
    obtain ⟨rfl, rfl⟩ := List.cons.inj htext
    have hminus : (digit == '-') = false := by
      apply beq_false_of_ne
      rintro rfl
      exact absurd hdigit (by decide)
    refine ⟨rest, rfl, hrest, hminus.symm, ?_, fun after => .inl hdigit⟩
    rw [hminus]
    rfl

theorem Numeral.startsNumeral {tail : List Char} (hnumeral : Numeral (c :: tail) value)
    (after : List Char) : StartsNumeral c (tail ++ after) := by
  generalize htext : c :: tail = text at hnumeral
  cases hnumeral with
  | @integer negative whole value hwhole hdigits hvalue =>
    rw [← List.append_nil whole] at htext
    obtain ⟨more, _, _, _, _, hstarts⟩ := exists_digits_of_cons htext.symm hwhole hdigits
    exact hstarts after
  | float hwhole hdigits hfraction =>
    obtain ⟨more, _, _, _, _, hstarts⟩ := exists_digits_of_cons htext.symm hwhole hdigits
    exact hstarts after

/-- A numeral that does not end in its point is a token of code, if nothing behind it goes on with
it. -/
theorem codeLexeme_of_numeral {tail after : List Char} (hnumeral : Numeral (c :: tail) value)
    (hlast : (c :: tail).getLast? ≠ some '.')
    (hafter : ∀ next ∈ after.head?, next.isDigit = false ∧ next ≠ '.') :
    codeLexeme c (tail ++ after) = .ok (.code (.number value) tail) := by
  have hnext : ∀ next ∈ after.head?, next.isDigit = false := fun next hmem => (hafter next hmem).1
  generalize htext : c :: tail = text at hnumeral
  cases hnumeral with
  | @integer negative whole value hwhole hdigits hvalue =>
    rw [← List.append_nil whole] at htext
    obtain ⟨more, rfl, hmore, rfl, hsplit, hstarts⟩ :=
      exists_digits_of_cons htext.symm hwhole hdigits
    have htake := takeWhile_digits hmore hnext
    rw [codeLexeme_of_startsNumeral (hstarts after), List.append_nil, numberLexeme_eq_integer,
      integerLexeme, wholeDigits, htake, ← hsplit, hvalue]
    intro digit others hpoint
    rw [htake, List.drop_left] at hpoint
    subst hpoint
    exact absurd rfl (hafter '.' rfl).2
  | @float negative whole fraction hwhole hdigits hfraction =>
    obtain ⟨more, rfl, hmore, rfl, hsplit, hstarts⟩ :=
      exists_digits_of_cons htext.symm hwhole hdigits
    obtain ⟨digit, others, rfl⟩ : ∃ digit others, fraction = digit :: others := by
      apply List.exists_cons_of_ne_nil
      rintro rfl
      exact hlast (by rw [← List.cons_append, List.getLast?_concat])
    obtain ⟨hdigit, hothers⟩ := List.forall_mem_cons.mp hfraction
    have htake := @takeWhile_digits more ('.' :: digit :: others ++ after) hmore (by simp)
    rw [codeLexeme_of_startsNumeral (hstarts after), List.append_assoc]
    have hdrop : (more ++ ('.' :: digit :: others ++ after)).drop more.length =
        '.' :: digit :: (others ++ after) := by simp
    rw [numberLexeme_eq_float (by rw [htake]; exact hdrop) hdigit, wholeDigits, htake, ← hsplit,
      takeWhile_digits hothers hnext]

/-! ## Texts with one number -/

/-- What may stand behind the last token of code: white space within the line, and a comment. -/
inductive Gap : List Char → Prop where
  | nil : Gap []
  | blank {c : Char} {text : List Char} (hblank : isSkipped 0 c = true) (hgap : Gap text) :
      Gap (c :: text)
  | comment {text : List Char} (hline : ∀ c ∈ text, c ≠ '\n') : Gap (';' :: text)

namespace Gap

variable {text : List Char}

/-- No numeral goes on into what may stand behind a token. -/
theorem head_ne (hgap : Gap text) : ∀ c ∈ text.head?, c.isDigit = false ∧ c ≠ '.' := by
  intro c hc
  cases hgap with
  | nil => cases hc
  | comment hline =>
    cases hc
    decide
  | blank hblank hgap =>
    cases hc
    rw [isSkipped, Bool.and_eq_true] at hblank
    exact Text.forall_isBlank (fun c => c.isDigit = false ∧ c ≠ '.') (by decide +kernel) hblank.1

theorem head_ne_newline (hgap : Gap text) : text.head? ≠ some '\n' := by
  intro hhead
  cases hgap with
  | nil => cases hhead
  | comment hline => cases hhead
  | blank hblank hgap =>
    cases hhead
    cases hblank

theorem scanFrom (hgap : Gap text) (position : Position) :
    Logo.scanFrom 0 position text =
      .ok ⟨[], .between (position.advanceAll text) (position.advanceAll text)⟩ := by
  induction hgap generalizing position with
  | nil => rw [Logo.scanFrom]; rfl
  | @blank c text hblank hgap ih =>
    rw [Logo.scanFrom, if_pos hblank, ih]
    rfl
  | @comment text hline =>
    have hchars : ∀ c ∈ text, (c != '\n') = true := by simpa using hline
    rw [Logo.scanFrom, if_neg (by decide), if_pos ⟨rfl, rfl⟩,
      List.takeWhile_eq_self_iff.mpr hchars, List.dropWhile_eq_nil_iff.mpr hchars, Logo.scanFrom]

end Gap

/-- Behind a comment there is nothing, or a line end. -/
theorem dropWhile_newline (text : List Char) :
    text.dropWhile (· != '\n') = [] ∨ ∃ after, text.dropWhile (· != '\n') = '\n' :: after := by
  have hhead := List.head?_dropWhile_not (· != '\n') text
  cases hdrop : text.dropWhile (· != '\n') with
  | nil => exact .inl rfl
  | cons next after =>
    have hnext : next = '\n' := by simpa [hdrop] using hhead
    exact .inr ⟨after, by rw [hnext]⟩

/-- A text without tokens is such a gap. -/
theorem gap_of_scanFrom {position : Position} {finish : Span}
    (hscan : scanFrom 0 position text = .ok ⟨[], finish⟩) : Gap text := by
  generalize hdepth : 0 = depth at hscan
  fun_induction scanFrom depth position text with
  | case1 => exact .nil
  | case2 depth position c text hskipped ih => exact .blank (hdepth ▸ hskipped) (ih hdepth hscan)
  | case3 depth position c text hskipped hcomment comment ih =>
    have hrest := (ih hdepth hscan).head_ne_newline
    rw [hcomment.2]
    obtain hend | ⟨after, hline⟩ := dropWhile_newline text
    · exact .comment (by simpa using List.dropWhile_eq_nil_iff.mp hend)
    · rw [hline] at hrest
      exact absurd rfl hrest
  | case4 => cases hscan
  | case5 depth position c text hskipped hcomment lexeme hlexeme stop =>
    obtain ⟨others, htokens, _⟩ := map_cons_eq_ok.mp hscan
    cases htokens

/-- What the tokens of a text look like that holds nothing but a numeral. -/
theorem scanFrom_numeral {before word after : List Char} {value : Number}
    (hbefore : ∀ c ∈ before, isSkipped 0 c = true) (hnumeral : Numeral word value)
    (hlast : word.getLast? ≠ some '.') (hgap : Gap after) (position : Position) :
    let start := position.advanceAll before
    let stop := start.advanceAll word
    scanFrom 0 position (before ++ (word ++ after)) =
      .ok ⟨[⟨.number value, .between start stop⟩],
        .between (stop.advanceAll after) (stop.advanceAll after)⟩ := by
  induction before generalizing position with
  | nil =>
    obtain ⟨c, tail, rfl⟩ := List.exists_cons_of_ne_nil hnumeral.ne_nil
    obtain ⟨hskipped, hcomment⟩ := (hnumeral.startsNumeral after).not_isSkipped
    rw [List.nil_append, List.cons_append, scanFrom, if_neg (by simp [hskipped]),
      if_neg (by simp [hcomment]), lexeme, if_pos rfl,
      codeLexeme_of_numeral hnumeral hlast hgap.head_ne]
    dsimp only [Lexeme.code]
    rw [List.drop_left, hgap.scanFrom]
    rfl
  | cons c before ih =>
    obtain ⟨hblank, hrest⟩ := List.forall_mem_cons.mp hbefore
    rw [List.cons_append, scanFrom, if_pos hblank]
    exact ih hrest (position.advance c)

/-- A text whose only token is a number holds nothing but a numeral. -/
theorem exists_numeral_of_scanFrom {position : Position} {span finish : Span}
    (hscan : scanFrom 0 position text = .ok ⟨[⟨.number value, span⟩], finish⟩) :
    ∃ before word after, text = before ++ (word ++ after) ∧
      (∀ c ∈ before, isSkipped 0 c = true) ∧ Numeral word value ∧ word.getLast? ≠ some '.' ∧
      Gap after := by
  generalize hdepth : 0 = depth at hscan
  fun_induction scanFrom depth position text with
  | case1 => cases hscan
  | case2 depth position c text hskipped ih =>
    subst hdepth
    obtain ⟨before, word, after, rfl, hbefore, hword⟩ := ih rfl hscan
    exact ⟨c :: before, word, after, rfl, List.forall_mem_cons.mpr ⟨hskipped, hbefore⟩, hword⟩
  | case3 depth position c text hskipped hcomment comment ih =>
    subst hdepth
    obtain ⟨before, word, after, htext, hbefore, hnumeral, _⟩ := ih rfl hscan
    obtain ⟨first, tail, rfl⟩ := List.exists_cons_of_ne_nil hnumeral.ne_nil
    have hfirst : first ≠ '\n' := by
      rintro rfl
      obtain hdigit | ⟨hminus, _⟩ := hnumeral.startsNumeral []
      · exact absurd hdigit (by decide)
      · exact absurd hminus (by decide)
    have hhead : '\n' ∉ before := fun hmem => absurd (hbefore _ hmem) (by decide)
    obtain hend | ⟨others, hline⟩ := dropWhile_newline text
    · simp [hend] at htext
    · rw [hline] at htext
      cases before with
      | nil => exact absurd (List.cons.inj htext).1.symm hfirst
      | cons c before =>
        exact absurd (by rw [(List.cons.inj htext).1]; exact List.mem_cons_self) hhead
  | case4 => cases hscan
  | case5 depth position c text hskipped hcomment lexeme hlexeme stop ih =>
    subst hdepth
    obtain ⟨others, htokens, hrest⟩ := map_cons_eq_ok.mp hscan
    obtain ⟨htoken, rfl⟩ := List.cons.inj htokens
    have hkind := (Token.mk.inj htoken).1.symm
    rw [Logo.lexeme, if_pos rfl] at hlexeme
    have hstarts := startsNumeral_of_codeLexeme hlexeme hkind
    have htail := (fitsCode_codeLexeme hlexeme).tail
    rw [codeLexeme_of_startsNumeral hstarts] at hlexeme
    obtain ⟨hzero, number, hnumber, hnumeral, hlast⟩ := numeral_of_numberLexeme hstarts hlexeme
    obtain rfl : number = value := by simpa [hkind] using hnumber.symm
    rw [hzero] at hrest
    refine ⟨[], c :: lexeme.tail, text.drop lexeme.tail.length, ?_, by simp, hnumeral, hlast,
      gap_of_scanFrom hrest⟩
    simp [List.prefix_iff_eq_append.mp htail]

/-- Texts that begin alike and end at the same offset are the same. -/
theorem eq_of_offset_behind {first second : List Char} (hstart : first <+: second)
    (hoffset : (Position.behind first).offset = (Position.behind second).offset) :
    first = second := by
  obtain ⟨rest, rfl⟩ := hstart
  rw [Position.offset_behind, Position.offset_behind, byteLength_append] at hoffset
  cases rest with
  | nil => simp
  | cons c rest =>
    have hpositive := c.utf8Size_pos
    simp only [byteLength, List.map_cons, List.sum_cons] at hoffset
    omega

/-- A word spells a number, and does not end in its point, exactly if it is code that consists of
one number and of nothing else. More exactly, code has one number for its only token if it is such a
word with white space before it in the line, and white space and perhaps a comment behind it. -/
theorem number_words_are_number_tokens (text : String) (value : Number) :
    (Number.ofWord? text = some value ∧ text.toList.getLast? ≠ some '.' ↔
      Scan.ofSource text =
        let stop := Position.behind text.toList
        .ok ⟨[⟨.number value, .between .origin stop⟩], .between stop stop⟩) ∧
    ((∃ span finish, Scan.ofSource text = .ok ⟨[⟨.number value, span⟩], finish⟩) ↔
      ∃ before word after, text.toList = before ++ (word ++ after) ∧
        (∀ c ∈ before, isSkipped 0 c = true) ∧ Number.ofWord? (String.ofList word) = some value ∧
        word.getLast? ≠ some '.' ∧ Gap after) := by
  refine ⟨⟨?_, ?_⟩, ?_, ?_⟩
  · rintro ⟨hvalue, hlast⟩
    rw [← @String.ofList_toList text, ofWord?_eq_some_iff] at hvalue
    have hscan := @scanFrom_numeral [] text.toList [] value (by simp) hvalue hlast .nil .origin
    rw [List.nil_append, List.append_nil] at hscan
    exact hscan
  · intro hscan
    obtain ⟨before, word, after, htext, hbefore, hnumeral, hlast, hgap⟩ :=
      exists_numeral_of_scanFrom hscan
    rw [Scan.ofSource, htext, scanFrom_numeral hbefore hnumeral hlast hgap] at hscan
    have hspan := (Token.mk.inj (List.cons.inj (Scan.mk.inj (Except.ok.inj hscan)).1).1).2
    obtain ⟨hstart, hstop, _⟩ := Span.mk.inj hspan
    have hnothing : [] = before := eq_of_offset_behind List.nil_prefix hstart.symm
    subst hnothing
    have hall : word = word ++ after := eq_of_offset_behind (List.prefix_append word after) hstop
    rw [List.nil_append, ← hall] at htext
    rw [← @String.ofList_toList text, htext, String.toList_ofList]
    exact ⟨ofWord?_eq_some_iff.mpr hnumeral, hlast⟩
  · rintro ⟨span, finish, hscan⟩
    obtain ⟨before, word, after, htext, hbefore, hnumeral, hlast, hgap⟩ :=
      exists_numeral_of_scanFrom hscan
    exact ⟨before, word, after, htext, hbefore, ofWord?_eq_some_iff.mpr hnumeral, hlast, hgap⟩
  · rintro ⟨before, word, after, htext, hbefore, hvalue, hlast, hgap⟩
    rw [Scan.ofSource, htext]
    exact ⟨_, _, scanFrom_numeral hbefore (ofWord?_eq_some_iff.mp hvalue) hlast hgap .origin⟩

/-- A word may end in its point, which code may not, and code may begin with white space, which a
word may not. -/
theorem number_words_end_in_points :
    ((∃ value, Number.ofWord? "1." = some value) ∧
      ¬∃ scan, Scan.ofSource "1." = .ok scan) ∧
    Number.ofWord? " 1" = none ∧
      ∃ span finish, Scan.ofSource " 1" = .ok ⟨[⟨.number (.integer 1), span⟩], finish⟩ := by
  have hone : Numeral ['1'] (.integer 1) :=
    @Numeral.integer false ['1'] 1 (by decide) (List.forall_mem_singleton.mpr rfl) (by decide)
  have hblank : ∀ c ∈ [' '], isSkipped 0 c = true := List.forall_mem_singleton.mpr (by decide)
  refine ⟨⟨⟨_, rfl⟩, ?_⟩, rfl, _, _,
    @scanFrom_numeral [' '] ['1'] [] _ hblank hone (by decide) .nil .origin⟩
  rintro ⟨scan, hscan⟩
  have hnone : (Scan.ofSource "1.").toOption.isNone = true := by decide +kernel
  rw [hscan] at hnone
  cases hnone

end Logo
