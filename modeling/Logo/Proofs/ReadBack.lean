import Logo.Proofs.Comparisons
import Logo.Proofs.Numerals
import Logo.Proofs.Reading
import Logo.Proofs.Rereading
import Logo.Special

/-!
# Words that are read back

Where a template has a question mark, the text of a value is put, and the whole is read as code. A
list is put as it stands, and so is a word that spells a number; any other word gets a quote mark.
What is read back is equal to the value, but for two kinds of words: those that have a colon or a
parenthesis in them, which ends a quoted word in code, and numerals that end in their point, which
are no numerals in code.
-/

namespace Logo

/-! ## Equality -/

namespace Datum

mutual

/-- Places make no difference. -/
theorem equal_unplaced (first second : Datum) :
    first.unplaced.equal second.unplaced = first.equal second := by
  cases first with
  | list items text place =>
    cases second with
    | list others _ _ =>
      rw [unplaced, unplaced, equal, equal]
      exact equalAll_unplacedAll items others
    | atom _ | call _ | procedure _ => rfl
  | atom value => cases second <;> rfl
  | call site =>
    obtain ⟨name, inputs, span⟩ := site
    cases second <;> rfl
  | procedure definition => cases second <;> rfl

theorem equalAll_unplacedAll (first second : List Datum) :
    equalAll (unplacedAll first) (unplacedAll second) = equalAll first second := by
  cases first with
  | nil => cases second <;> simp only [unplacedAll, equalAll]
  | cons datum data =>
    cases second with
    | nil => simp only [unplacedAll, equalAll]
    | cons other others =>
      simp only [unplacedAll, equalAll, equal_unplaced datum other,
        equalAll_unplacedAll data others]

end

end Datum

variable {text : List Char} {data : List Datum}

theorem ListText.equalAll_self (htext : ListText text data) : Datum.equalAll data data = true := by
  induction htext with
  | nil => rfl
  | blank hblank hrest ih => exact ih
  | @word c tail text items hfirst htail hnext hrest ih =>
    rw [Datum.equalAll, ih, Bool.and_true]
    exact beq_self_eq_true _
  | @list inner text data items hinner hrest ihInner ih =>
    rw [Datum.equalAll, ih, Bool.and_true, Datum.equal, ihInner]


/-! ## Programs of one literal -/

def TokenKind.isPlain : TokenKind → Bool
  | .define | .symbol _ => false
  | _ => true

variable {tokens : List Token}

theorem enterHeaders_of_plain (hplain : ∀ token ∈ tokens, token.kind.isPlain = true)
    (procedures : Procedures) : enterHeaders procedures tokens = .ok procedures := by
  induction tokens with
  | nil => rfl
  | cons token tokens ih =>
    obtain ⟨hfirst, hothers⟩ := List.forall_mem_cons.mp hplain
    rw [enterHeaders, ih hothers]
    rintro span rfl
    cases hfirst

theorem enterAliases_of_plain (hplain : ∀ token ∈ tokens, token.kind.isPlain = true)
    (procedures : Procedures) : enterAliases procedures tokens = .ok procedures := by
  induction tokens with
  | nil => rfl
  | cons token tokens ih =>
    obtain ⟨hfirst, hothers⟩ := List.forall_mem_cons.mp hplain
    have hnone : aliasAt? (token :: tokens) = none := by
      rw [aliasAt?]
      intro keyword _ _ _ _ _ _ htokens
      rw [(List.cons.inj htokens).1] at hfirst
      cases hfirst
    rw [enterAliases, hnone, ih hothers]

variable {datum : Datum}

/-- Behind an expression that is no more than its first operand, no operator follows. -/
theorem readExpression_of_primary {reading : Reading} {rest : Shorter tokens}
    (hprimary : readPrimary reading tokens = .ok (datum, rest))
    (hnext : ∀ token ∈ rest.val.head?, ∀ op, token.kind ≠ .operator op) :
    readExpression reading tokens = .ok (datum, rest) := by
  have hoperators : ∀ level, readOperators reading level datum rest = .ok (datum, .all rest) := by
    intro level
    rw [readOperators]
    · rfl
    · intro op span operand hrest
      exact hnext ⟨.operator op, span⟩ (by rw [hrest]; rfl) op rfl
  have hlevel : ∀ {level}, readOperand reading level tokens = .ok (datum, rest) →
      readLevel reading level tokens = .ok (datum, rest) := by
    intro level hoperand
    rw [readLevel, hoperand]
    dsimp only [bind, Except.bind]
    rw [hoperators]
    rfl
  have hfactor : readOperand reading .factor tokens = .ok (datum, rest) := by
    rw [readOperand, hprimary]
  have hterm : readOperand reading .term tokens = .ok (datum, rest) := by
    rw [readOperand, hlevel hfactor]
  have hcomparison : readOperand reading .comparison tokens = .ok (datum, rest) := by
    rw [readOperand, hlevel hterm]
  have hequality : readOperand reading .equality tokens = .ok (datum, rest) := by
    rw [readOperand, hlevel hcomparison]
  exact hlevel hequality

variable {source : String}

/-- A token that is no line end and opens no definition starts a line. -/
theorem readLines_cons {finish : Span} {procedures : Procedures} {token : Token}
    {others : List Token} (hline : token.kind ≠ .newline) (hdefine : token.kind ≠ .define) :
    readLines source finish procedures (token :: others) = (do
      let (line, rest) ← readExpression ⟨source, finish, procedures⟩ (token :: others)
      let (lines, final) ← readLines source finish procedures rest
      return (line :: lines, final)) := by
  have hskip : skipNewlines (token :: others) = token :: others := by
    obtain ⟨kind, span⟩ := token
    cases kind <;> simp_all [skipNewlines, TokenKind.isNewline]
  rw [readLines]
  split
  · rename_i hnext
    rw [hskip] at hnext
    cases hnext
  · rename_i hnext
    rw [hskip] at hnext
    cases hnext
    exact absurd rfl hdefine
  · rename_i next rest _ hnext
    rw [hskip] at hnext
    cases hnext
    rfl

/-- A text whose tokens are one operand is a program of one line. -/
theorem readProgram_of_primary {source : String} {token : Token} {finish : Span} {datum : Datum}
    (hscan : Scan.ofSource source = .ok ⟨token :: tokens, finish⟩)
    (hplain : ∀ other ∈ token :: tokens, other.kind.isPlain = true) (hline : token.kind ≠ .newline)
    (hprimary : ∀ procedures, ∃ hshorter, readPrimary ⟨source, finish, procedures⟩
      (token :: tokens) = .ok (datum, ⟨[], hshorter⟩))
    (procedures : Procedures) :
    readProgram procedures source = .ok ([datum], procedures) := by
  have hdefine : token.kind ≠ .define := by
    intro hkind
    have hfirst := hplain token List.mem_cons_self
    rw [hkind] at hfirst
    cases hfirst
  obtain ⟨hshorter, hread⟩ := hprimary procedures
  have hexpression := readExpression_of_primary hread (by simp)
  have hlines : readLines source finish procedures (token :: tokens) =
      .ok ([datum], procedures) := by
    rw [readLines_cons hline hdefine, hexpression]
    dsimp only [bind, Except.bind]
    rw [readLines]
    rfl
  have htokens : readTokens procedures source ⟨token :: tokens, finish⟩ =
      .ok ([datum], procedures) := by
    rw [readTokens, enterHeaders_of_plain hplain]
    dsimp only [bind, Except.bind]
    rw [enterAliases_of_plain hplain]
    exact hlines
  rw [readProgram_eq, hscan]
  dsimp only [Except.mapError, bind, Except.bind]
  rw [htokens]

/-! ## The literals of list text -/

theorem readProgram_of_numeral {text : String} {value : Number}
    (hvalue : Number.ofWord? text = some value) (hlast : text.toList.getLast? ≠ some '.')
    (procedures : Procedures) :
    readProgram procedures text = .ok ([.atom (.number value)], procedures) := by
  rw [← @String.ofList_toList text, ofWord?_eq_some_iff] at hvalue
  have hscan := @scanFrom_numeral [] text.toList [] value (by simp) hvalue hlast .nil .origin
  rw [List.nil_append, List.append_nil] at hscan
  refine readProgram_of_primary hscan (by simp [TokenKind.isPlain]) (by simp) ?_ procedures
  intro procedures
  rw [readPrimary]
  exact ⟨by simp, rfl⟩

theorem quoteLexeme_append {word after : List Char} (hword : ∀ c ∈ word, isDelimiter c = false)
    (hafter : ∀ c ∈ after.head?, isDelimiter c = true) :
    quoteLexeme (word ++ after) = .code (.quote (.ofList word)) word := by
  have htail : (word ++ after).takeWhile (!isDelimiter ·) = word := by
    rw [List.takeWhile_append_of_pos (by simpa using hword)]
    cases after with
    | nil => simp
    | cons c after => simp [hafter c rfl]
  rw [quoteLexeme, htail]

theorem scanFrom_quote {word after : List Char} (hword : ∀ c ∈ word, isDelimiter c = false)
    (hafter : ∀ c ∈ after.head?, isDelimiter c = true) (position : Position) :
    scanFrom 0 position ('"' :: (word ++ after)) =
      (scanFrom 0 (position.advanceAll ('"' :: word)) after).map
        (.cons ⟨.quote (.ofList word), .between position (position.advanceAll ('"' :: word))⟩) := by
  rw [scanFrom_code (by decide) (by decide), codeLexeme, quoteLexeme_append hword hafter]
  simp only [Lexeme.code, List.drop_left]

theorem readProgram_of_quote {text : String} (htext : ∀ c ∈ text.toList, isDelimiter c = false)
    (procedures : Procedures) :
    readProgram procedures ("\"" ++ text) = .ok ([.quote text], procedures) := by
  have hscan := @scanFrom_quote text.toList [] htext (by simp) .origin
  rw [List.append_nil, scanFrom, String.ofList_toList] at hscan
  have hcharacters : ("\"" ++ text).toList = '"' :: text.toList := by simp
  rw [← hcharacters] at hscan
  refine readProgram_of_primary hscan (by simp [TokenKind.isPlain]) (by simp) ?_ procedures
  intro procedures
  rw [readPrimary]
  exact ⟨by simp, rfl⟩

theorem isPlain_of_isItem {kind : TokenKind} (hitem : kind.isItem = true) : kind.isPlain = true := by
  cases kind <;> first | rfl | cases hitem

/-- A list is read again from its text, wherever it stood. -/
theorem ListText.exists_readProgram (htext : ListText text data) :
    ∃ items place, Datum.unplacedAll items = data ∧ ∀ procedures,
      readProgram procedures ("[" ++ String.ofList text ++ "]") =
        .ok ([.list items (some (.ofList text)) place], procedures) := by
  obtain ⟨opening, closing, finish, tokens, items, hshorter, hscan, hread, hslice, hdata⟩ :=
    htext.exists_scan
  obtain ⟨used, hused, hitems⟩ := exists_used_of_readItems hread
  rw [List.append_nil] at hused
  have hplain : ∀ token ∈ tokens, token.kind.isPlain = true := fun token hmem =>
    isPlain_of_isItem (hitems token (hused ▸ hmem))
  refine ⟨items, some (opening.through closing), hdata, readProgram_of_primary hscan
    (List.forall_mem_cons.mpr ⟨rfl, hplain⟩) (by simp) fun procedures => ?_⟩
  rw [readPrimary]
  dsimp only
  rw [hread]
  dsimp only [bind, Except.bind]
  rw [bracketed, hslice]
  exact ⟨by simp, rfl⟩

/-! ## Words that are read back -/

/-- The word is a numeral that does not end in its point, or else has no colons and parentheses. -/
def readsBack (word : String) : Bool :=
  if (Number.ofWord? word).isSome then word.toList.getLast? != some '.'
  else word.toList.all fun c => c != ':' && c != '(' && c != ')'

def Datum.readsBack : Datum → Bool
  | .atom (.symbol word) => Logo.readsBack word
  | _ => true

/-- The line is a value, and running it does nothing else. -/
def Datum.isLiteral : Datum → Bool
  | .atom (.symbol _) | .call _ | .procedure _ => false
  | _ => true

/-- What stands for the datum in code is read as one line, which is a literal equal to it. -/
structure Datum.ReadsAs (datum line : Datum) : Prop where
  literal : line.isLiteral = true
  equal : line.equal datum = true
  read : ∀ procedures,
    readProgram procedures (World.asLiteral datum).source = .ok ([line], procedures)

/-- A character of a word ends it in code if it is a colon or a parenthesis. -/
theorem isDelimiter_of_word {c : Char} (hword : endsWord c = false) :
    isDelimiter c = true ↔ c = ':' ∨ c = '(' ∨ c = ')' := by
  simp only [endsWord, Bool.or_eq_false_iff] at hword
  simp [isDelimiter, hword.1.1, hword.1.2, hword.2, or_assoc]

section Words

variable {word : String}

variable {procedures later : Procedures} {line : Datum}

theorem asLiteral_of_number (hnumber : (Number.ofWord? word).isSome = true) :
    World.asLiteral (.symbol word) = .symbol word :=
  if_pos hnumber

theorem asLiteral_of_word (hword : (Number.ofWord? word).isSome = false) :
    World.asLiteral (.symbol word) = .quote word :=
  if_neg (by rw [hword]; exact Bool.false_ne_true)

/-- A word that reads back is read as one line. -/
theorem exists_readsAs_of_word (hword : ∀ c ∈ word.toList, endsWord c = false)
    (hback : readsBack word = true) : ∃ line, (Datum.symbol word).ReadsAs line := by
  rw [readsBack] at hback
  cases hnumber : Number.ofWord? word with
  | some value =>
    rw [hnumber, Option.isSome_some, if_pos rfl, bne_iff_ne] at hback
    have hliteral := asLiteral_of_number (by rw [hnumber]; rfl)
    refine ⟨.atom (.number value), rfl, ?_, fun procedures => ?_⟩
    · simp only [Datum.symbol, Datum.equal, Atom.equal, hnumber]
      exact value.equal_self
    · rw [hliteral]
      exact readProgram_of_numeral hnumber hback procedures
  | none =>
    rw [hnumber, Option.isSome_none, if_neg Bool.false_ne_true, List.all_eq_true] at hback
    have hliteral := asLiteral_of_word (by rw [hnumber]; rfl)
    have hplain : ∀ c ∈ word.toList, isDelimiter c = false := by
      intro c hc
      have hchar := hback c hc
      simp only [Bool.and_eq_true, bne_iff_ne] at hchar
      rw [Bool.eq_false_iff, ne_eq, isDelimiter_of_word (hword c hc)]
      rintro (rfl | rfl | rfl)
      · exact hchar.1.1 rfl
      · exact hchar.1.2 rfl
      · exact hchar.2 rfl
    refine ⟨.quote word, rfl, beq_self_eq_true word, fun procedures => ?_⟩
    rw [hliteral]
    exact readProgram_of_quote hplain procedures

/-- A numeral that ends in its point cannot be read as code. -/
theorem scan_of_point {value : Number} {scan : Scan} (hvalue : Number.ofWord? word = some value)
    (hlast : word.toList.getLast? = some '.') : Scan.ofSource word ≠ .ok scan := by
  rw [← @String.ofList_toList word, ofWord?_eq_some_iff] at hvalue
  intro hscan
  have hcut := cut_ofSource hscan
  generalize word.toList = text at hvalue hlast hcut
  cases hvalue with
  | integer hwhole hdigits _ => exact getLast?_ne_point hwhole hdigits hlast
  | @float negative whole fraction hwhole hdigits hfraction =>
    have hnone : fraction = [] := by
      by_contra hne
      rw [List.append_cons whole, ← List.append_assoc] at hlast
      exact getLast?_ne_point hne hfraction hlast
    subst hnone
    obtain ⟨c, tail, htext⟩ : ∃ c tail, signText negative ++ (whole ++ ['.']) = c :: tail :=
      List.exists_cons_of_ne_nil (by simp)
    obtain ⟨more, rfl, hmore, -, -, hstarts⟩ := exists_digits_of_cons htext hwhole hdigits
    have hnumeral : StartsNumeral c (more ++ ['.']) := by simpa using hstarts []
    have htake := @takeWhile_digits more ['.'] hmore (by simp)
    obtain ⟨hskipped, hcode⟩ := hnumeral.not_isSkipped
    rw [htext] at hcut
    obtain ⟨lexeme, rest, hlexeme, -, hrest⟩ := hcut.code hskipped hcode
    -- No digit follows the point, so the numeral of code stops before it.
    rw [codeLexeme_of_startsNumeral hnumeral, numberLexeme_eq_integer (by simp [htake]),
      integerLexeme, htake] at hlexeme
    split at hlexeme
    · cases hlexeme
      rw [Lexeme.code, List.drop_left] at hrest
      obtain ⟨point, -, hpoint, -⟩ := hrest.code (by decide) (by decide)
      have hnone : (codeLexeme '.' []).toOption.isNone = true := by decide +kernel
      rw [hpoint] at hnone
      cases hnone
    · cases hlexeme

/-- A colon or a parenthesis begins a token that is neither a line end nor an operator. -/
theorem kind_of_delimiter {c : Char} {text : List Char} {lexeme : Lexeme}
    (hc : c = ':' ∨ c = '(' ∨ c = ')') (hlexeme : codeLexeme c text = .ok lexeme) :
    lexeme.kind ≠ .newline ∧ lexeme.kind ≠ .define ∧ ∀ op, lexeme.kind ≠ .operator op := by
  obtain rfl | rfl | rfl := hc
  · rw [codeLexeme, referenceLexeme] at hlexeme
    split at hlexeme
    · cases hlexeme
    · cases hlexeme
      simp [Lexeme.code]
  · cases hlexeme
    simp [Lexeme.code]
  · cases hlexeme
    simp [Lexeme.code]

/-- A line that begins with a token gives something. -/
theorem ne_nil_of_readLines {source : String} {finish : Span} {token : Token} {others : List Token}
    {lines : List Datum} (hline : token.kind ≠ .newline) (hdefine : token.kind ≠ .define)
    (hread : readLines source finish procedures (token :: others) = .ok (lines, later)) :
    lines ≠ [] := by
  rw [readLines_cons hline hdefine] at hread
  obtain ⟨⟨line, rest⟩, -, hread⟩ := exists_ok_of_bind hread
  obtain ⟨⟨after, final⟩, -, hread⟩ := exists_ok_of_bind hread
  cases hread
  exact List.cons_ne_nil line after

/-- A quoted word is a line of its own, if no operator follows. -/
theorem readLines_of_quote {source text : String} {finish span : Span} {next : Token}
    {behind : List Token} (hline : next.kind ≠ .newline) (hdefine : next.kind ≠ .define)
    (hoperator : ∀ op, next.kind ≠ .operator op) :
    readLines source finish procedures (⟨.quote text, span⟩ :: next :: behind) ≠
      .ok ([line], later) := by
  intro hread
  have hprimary : readPrimary ⟨source, finish, procedures⟩ (⟨.quote text, span⟩ :: next :: behind) =
      .ok (.quote text, ⟨next :: behind, by simp⟩) := by
    rw [readPrimary]
    rfl
  have hfirst := readExpression_of_primary hprimary (by simpa using hoperator)
  rw [readLines_cons (by simp) (by simp), hfirst] at hread
  obtain ⟨_, ⟨⟩, hread⟩ := exists_ok_of_bind hread
  obtain ⟨⟨lines, final⟩, hothers, hread⟩ := exists_ok_of_bind hread
  cases hread
  exact ne_nil_of_readLines hline hdefine hothers rfl

/-- Behind a quoted word that a colon or a parenthesis ends there is another line to be read. -/
theorem readProgram_of_delimiter {before after : List Char} {c : Char}
    (htext : word.toList = before ++ c :: after)
    (hbefore : ∀ other ∈ before, isDelimiter other = false) (hc : c = ':' ∨ c = '(' ∨ c = ')') :
    readProgram procedures ("\"" ++ word) ≠ .ok ([line], later) := by
  intro hread
  obtain ⟨scan, hscan, htokens⟩ := exists_ok_of_readProgram hread
  have hcode : isDelimiter c = true ∧ isSkipped 0 c = false ∧ c ≠ ';' := by
    obtain rfl | rfl | rfl := hc <;> decide
  have hcharacters : ("\"" ++ word).toList = '"' :: (before ++ c :: after) := by simp [htext]
  have hcut := cut_ofSource hscan
  rw [hcharacters] at hcut
  obtain ⟨lexeme, others, hlexeme, hquote, hrest⟩ := hcut.code (by decide) (by decide)
  have hsame : quoteLexeme (before ++ c :: after) = lexeme := Except.ok.inj hlexeme
  rw [quoteLexeme_append hbefore (by simpa using hcode.1)] at hsame
  subst hsame
  rw [Lexeme.code, List.drop_left] at hrest
  obtain ⟨next, behind, hnext, rfl, -⟩ := hrest.code hcode.2.1 hcode.2.2
  obtain ⟨hnewline, hdefine, hoperator⟩ := kind_of_delimiter hc hnext
  rw [readTokens, hquote] at htokens
  obtain ⟨headed, -, htokens⟩ := exists_ok_of_bind htokens
  obtain ⟨named, -, hlines⟩ := exists_ok_of_bind htokens
  exact readLines_of_quote hnewline hdefine hoperator hlines

/-- Only a word that reads back is read as one line. -/
theorem readsBack_of_readsAs (hword : ∀ c ∈ word.toList, endsWord c = false)
    (hreads : (Datum.symbol word).ReadsAs line) : readsBack word = true := by
  have hread := hreads.read .standard
  rw [readsBack]
  cases hnumber : Number.ofWord? word with
  | some value =>
    rw [asLiteral_of_number (by rw [hnumber]; rfl)] at hread
    obtain ⟨scan, hscan, -⟩ := exists_ok_of_readProgram hread
    rw [Option.isSome_some, if_pos rfl, bne_iff_ne]
    exact fun hlast => scan_of_point hnumber hlast hscan
  | none =>
    rw [asLiteral_of_word (by rw [hnumber]; rfl)] at hread
    rw [Option.isSome_none, if_neg Bool.false_ne_true]
    have hsplit := @List.takeWhile_append_dropWhile _ (!isDelimiter ·) word.toList
    have hbefore : ∀ c ∈ word.toList.takeWhile (!isDelimiter ·), isDelimiter c = false := by
      simpa using List.all_eq_true.mp (@List.all_takeWhile _ (!isDelimiter ·) word.toList)
    have hhead := List.head?_dropWhile_not (!isDelimiter ·) word.toList
    cases hdrop : word.toList.dropWhile (!isDelimiter ·) with
    | nil =>
      rw [hdrop, List.append_nil] at hsplit
      rw [hsplit] at hbefore
      refine List.all_eq_true.mpr fun c hc => ?_
      have hchar := mt (isDelimiter_of_word (hword c hc)).mpr (by simp [hbefore c hc])
      simpa [not_or, and_assoc] using hchar
    | cons c after =>
      have hdelimiter : isDelimiter c = true := by simpa [hdrop] using hhead
      rw [hdrop] at hsplit
      have hmem : c ∈ word.toList := by
        rw [← hsplit]
        simp
      exact absurd hread (readProgram_of_delimiter hsplit.symm hbefore
        ((isDelimiter_of_word (hword c hmem)).mp hdelimiter))

end Words

/-- What is read from a text is read back as one literal, lists always and words where they are
numerals that do not end in their point or have no colons and parentheses. -/
theorem ListText.readsBack_iff (htext : ListText text (Datum.unplacedAll data))
    (hmem : datum ∈ data) : datum.readsBack = true ↔ ∃ line, datum.ReadsAs line := by
  rw [Datum.unplacedAll_eq_map] at htext
  obtain ⟨word, hdatum, hword⟩ | ⟨nested, inner, hdatum, hinner⟩ :=
    htext.cases_of_mem (List.mem_map_of_mem hmem)
  · have hsame : datum = .symbol word := by
      cases datum with
      | list items original place => cases hdatum
      | atom _ | call _ | procedure _ => exact hdatum
    subst hsame
    refine ⟨exists_readsAs_of_word hword, ?_⟩
    rintro ⟨line, hreads⟩
    exact readsBack_of_readsAs hword hreads
  · cases datum with
    | atom _ | call _ | procedure _ => cases hdatum
    | list items original place =>
      obtain ⟨rfl, rfl, -⟩ := Datum.list.inj hdatum
      obtain ⟨others, other, hothers, hread⟩ := hinner.exists_readProgram
      refine iff_of_true rfl ⟨_, rfl, ?_, hread⟩
      rw [Datum.equal, ← Datum.equalAll_unplacedAll, hothers]
      exact hinner.equalAll_self

namespace Datum

variable {data lines : List Datum}

theorem exists_readsAs_all (hdata : ∀ datum ∈ data, ∃ line, datum.ReadsAs line) :
    ∃ lines, List.Forall₂ ReadsAs data lines := by
  induction data with
  | nil => exact ⟨[], .nil⟩
  | cons datum data ih =>
    obtain ⟨⟨line, hline⟩, hothers⟩ := List.forall_mem_cons.mp hdata
    obtain ⟨lines, hlines⟩ := ih hothers
    exact ⟨line :: lines, .cons hline hlines⟩

/-- Data that are read back make up an equal list. -/
theorem equalAll_of_readsAs (hreads : List.Forall₂ ReadsAs data lines) :
    equalAll lines data = true := by
  induction hreads with
  | nil => rfl
  | cons hdatum _ ih => rw [equalAll, hdatum.equal, ih, Bool.and_true]

end Datum

end Logo
