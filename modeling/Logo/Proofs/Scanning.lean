import Logo.Program.Items
import Logo.Proofs.Computation
import Mathlib.Algebra.Ring.Nat
import Mathlib.Tactic.MkIffOfInductiveProp

/-!
# Places in a scan

A scan goes through a text from left to right, and every token carries the place where it stands. So
the tokens that are left at any moment are those of the rest of the text, cut from the place behind
what has been read, and two of the places that a scan has met give back the text between them.
-/

namespace Logo

/-! ## Places and slices -/

def byteLength (text : List Char) : Nat :=
  (text.map Char.utf8Size).sum

def Position.behind (before : List Char) : Position :=
  Position.origin.advanceAll before

namespace Position

theorem advance_behind (before : List Char) (c : Char) :
    (behind before).advance c = behind (before ++ [c]) := by
  simp [behind, advanceAll]

theorem advanceAll_append (position : Position) (first second : List Char) :
    position.advanceAll (first ++ second) = (position.advanceAll first).advanceAll second :=
  List.foldl_append

theorem advanceAll_behind (before text : List Char) :
    (behind before).advanceAll text = behind (before ++ text) :=
  (advanceAll_append origin before text).symm

theorem offset_advanceAll (position : Position) (text : List Char) :
    (position.advanceAll text).offset = position.offset + byteLength text := by
  induction text generalizing position with
  | nil => rfl
  | cons c text ih =>
    calc ((position.advance c).advanceAll text).offset
        = (position.advance c).offset + byteLength text := ih _
      _ = position.offset + c.utf8Size + byteLength text := rfl
      _ = position.offset + byteLength (c :: text) := by
          rw [Nat.add_assoc]
          simp [byteLength]

theorem offset_behind (before : List Char) : (behind before).offset = byteLength before := by
  rw [behind, offset_advanceAll]
  exact Nat.zero_add _

end Position

theorem byteLength_append (first second : List Char) :
    byteLength (first ++ second) = byteLength first + byteLength second := by
  simp [byteLength]

theorem dropBytes_append (before text : List Char) :
    dropBytes (byteLength before) (before ++ text) = text := by
  induction before with
  | nil => cases text <;> rfl
  | cons c before ih =>
    have hpositive := c.utf8Size_pos
    have hlength : byteLength (c :: before) = c.utf8Size + byteLength before := by
      simp [byteLength]
    rw [List.cons_append, dropBytes, hlength, if_neg (by omega), Nat.add_sub_cancel_left, ih]

theorem takeBytes_append (text after : List Char) :
    takeBytes (byteLength text) (text ++ after) = text := by
  induction text with
  | nil => cases after <;> rfl
  | cons c text ih =>
    have hpositive := c.utf8Size_pos
    have hlength : byteLength (c :: text) = c.utf8Size + byteLength text := by
      simp [byteLength]
    rw [List.cons_append, takeBytes, hlength, if_neg (by omega), Nat.add_sub_cancel_left, ih]

/-- What stands between two places of a source is found again from their offsets. -/
theorem sliceBytes_behind {source : String} {before text after : List Char}
    (hsource : source.toList = before ++ (text ++ after)) :
    sliceBytes source (Position.behind before).offset (Position.behind (before ++ text)).offset =
      String.ofList text := by
  rw [sliceBytes, hsource, Position.offset_behind, Position.offset_behind, byteLength_append,
    Nat.add_sub_cancel_left, dropBytes_append, takeBytes_append]

/-! ## Lexemes -/

variable {c : Char} {lexeme : Lexeme}

/-- What holds of every code point in the table holds of all white space. -/
theorem Text.forall_isBlank (holds : Char → Prop)
    (htable : ∀ range ∈ Text.whiteSpace, ∀ code ∈ List.range' range.1 (range.2 + 1 - range.1),
      holds (Char.ofNat code)) (hblank : Text.isBlank c = true) : holds c := by
  obtain ⟨range, hrange, hcode⟩ := List.any_eq_true.mp hblank
  have hbounds : range.1 ≤ c.toNat ∧ c.toNat ≤ range.2 := by simpa using hcode
  have hmem : c.toNat ∈ List.range' range.1 (range.2 + 1 - range.1) :=
    List.mem_range'_1.mpr (by omega)
  simpa using htable range hrange c.toNat hmem

theorem ne_bracket_of_isBlank (hblank : Text.isBlank c = true) : c ≠ '[' ∧ c ≠ ']' :=
  Text.forall_isBlank (fun c => c ≠ '[' ∧ c ≠ ']') (by decide +kernel) hblank

theorem not_isBlank_of_endsWord (hword : endsWord c = false) :
    Text.isBlank c = false ∧ c ≠ '[' ∧ c ≠ ']' := by
  simpa [endsWord, and_assoc] using hword

/-- A text falls into the rest of the word that it goes on with and what comes behind it. -/
theorem exists_word_append (text : List Char) :
    ∃ tail next, text = tail ++ next ∧ (∀ c ∈ tail, endsWord c = false) ∧
      ∀ c ∈ next.head?, endsWord c = true := by
  refine ⟨text.takeWhile (!endsWord ·), text.dropWhile (!endsWord ·),
    List.takeWhile_append_dropWhile.symm, ?_, ?_⟩
  · intro c hc
    simpa using List.all_eq_true.mp List.all_takeWhile c hc
  · intro c hc
    have hnext := List.head?_dropWhile_not (!endsWord ·) text
    rw [Option.mem_def.mp hc] at hnext
    simpa using hnext

theorem listLexeme_of_word (depth : Nat) (hword : endsWord c = false) (rest : List Char) :
    listLexeme depth c rest = let tail := rest.takeWhile (!endsWord ·)
      ⟨.word (String.ofList (c :: tail)), tail, depth⟩ := by
  obtain ⟨_, hopen, hclose⟩ := not_isBlank_of_endsWord hword
  rw [listLexeme]
  · exact hopen
  · exact hclose

theorem tail_listLexeme (depth : Nat) (c : Char) (rest : List Char) :
    (listLexeme depth c rest).tail <+: rest := by
  fun_cases listLexeme depth c rest with
  | case1 => exact List.nil_prefix
  | case2 => exact List.nil_prefix
  | case3 => exact List.takeWhile_prefix _

theorem symbolKind_ne (name : String) :
    symbolKind name ≠ .leftBracket ∧ ∀ spelled, symbolKind name ≠ .word spelled := by
  rw [symbolKind]
  split <;> simp

/-- A lexeme of code is the bracket that opens a list, or else code goes on behind it. -/
structure Lexeme.FitsCode (lexeme : Lexeme) (c : Char) (rest : List Char) : Prop where
  tail : lexeme.tail <+: rest
  kind : ∀ spelled, lexeme.kind ≠ .word spelled
  depth : lexeme.kind ≠ .leftBracket → lexeme.depth = 0
  opening : lexeme.kind = .leftBracket → c = '[' ∧ lexeme.tail = [] ∧ lexeme.depth = 1

theorem Lexeme.fitsCode_code {kind : TokenKind} {tail rest : List Char} (htail : tail <+: rest)
    (hkind : kind ≠ .leftBracket ∧ ∀ spelled, kind ≠ .word spelled) (c : Char) :
    (Lexeme.code kind tail).FitsCode c rest :=
  ⟨htail, hkind.2, fun _ => rfl, fun hopening => absurd hopening hkind.1⟩

theorem fitsCode_integerLexeme {c : Char} {rest more : List Char} {lexeme : Lexeme}
    (hmore : more <+: rest) (value : Option Int64) (fault : LexFault)
    (hlexeme : (match value with
      | some value => .ok (.code (.number (.integer value)) more)
      | none => .error fault) = Except.ok lexeme) : lexeme.FitsCode c rest := by
  cases value with
  | some value =>
    cases hlexeme
    exact Lexeme.fitsCode_code hmore (by simp) c
  | none => cases hlexeme

theorem fitsCode_numberLexeme {rest : List Char} (hlexeme : numberLexeme c rest = .ok lexeme) :
    lexeme.FitsCode c rest := by
  have hmore : rest.takeWhile Char.isDigit <+: rest := List.takeWhile_prefix _
  simp only [numberLexeme] at hlexeme
  split at hlexeme
  · rename_i digit after hafter
    split at hlexeme
    · cases hlexeme
      refine Lexeme.fitsCode_code ?_ (by simp) c
      have hrest := List.prefix_iff_eq_append.mp hmore
      rw [hafter] at hrest
      have hfraction : '.' :: digit :: after.takeWhile Char.isDigit <+: '.' :: digit :: after := by
        simpa using List.takeWhile_prefix Char.isDigit
      calc _ <+: rest.takeWhile Char.isDigit ++ '.' :: digit :: after :=
            (List.prefix_append_right_inj _).mpr hfraction
        _ = rest := hrest
    · exact fitsCode_integerLexeme hmore _ _ hlexeme
  · exact fitsCode_integerLexeme hmore _ _ hlexeme

theorem fitsCode_operatorLexeme (single double : Operator) (c : Char) (rest : List Char) :
    (operatorLexeme single double rest).FitsCode c rest := by
  fun_cases operatorLexeme single double rest with
  | case1 after => exact Lexeme.fitsCode_code (by simp) (by simp) c
  | case2 => exact Lexeme.fitsCode_code List.nil_prefix (by simp) c

theorem fitsCode_referenceLexeme {rest : List Char} (hlexeme : referenceLexeme rest = .ok lexeme) :
    lexeme.FitsCode c rest := by
  simp only [referenceLexeme] at hlexeme
  split at hlexeme
  · cases hlexeme
  · cases hlexeme
    exact Lexeme.fitsCode_code (List.takeWhile_prefix _) (by simp) c

/-- What is read in code fits code. -/
theorem fitsCode_codeLexeme {rest : List Char} (hlexeme : codeLexeme c rest = .ok lexeme) :
    lexeme.FitsCode c rest := by
  revert hlexeme
  fun_cases codeLexeme c rest <;> intro hlexeme
  case case4 =>
    cases hlexeme
    exact ⟨List.nil_prefix, nofun, fun hkind => absurd rfl hkind, fun _ => ⟨rfl, rfl, rfl⟩⟩
  case case9 => exact fitsCode_numberLexeme hlexeme
  case case12 | case13 | case14 =>
    cases hlexeme
    exact fitsCode_operatorLexeme _ _ _ _
  case case15 =>
    cases hlexeme
    exact Lexeme.fitsCode_code (by simp) (by simp) _
  case case16 | case21 => simp_all
  case case17 =>
    cases hlexeme
    exact Lexeme.fitsCode_code (List.takeWhile_prefix _) (by simp) _
  case case18 => exact fitsCode_referenceLexeme hlexeme
  case case19 =>
    rw [if_pos ‹_›] at hlexeme
    exact fitsCode_numberLexeme hlexeme
  case case20 =>
    rw [if_neg ‹_›, if_pos ‹_›] at hlexeme
    cases hlexeme
    exact Lexeme.fitsCode_code (List.takeWhile_prefix _) (symbolKind_ne _) c
  all_goals
    cases hlexeme
    exact Lexeme.fitsCode_code List.nil_prefix (by simp) _

/-! ## The tokens that are left -/

/-- The source goes on with this text behind what has been read of it, and at this bracket depth the
text has these tokens. -/
@[mk_iff]
structure Cut (source : String) (depth : Nat) (before text : List Char) (tokens : List Token) :
    Prop where
  source_eq : source.toList = before ++ text
  scan : ∃ finish, scanFrom depth (.behind before) text = .ok ⟨tokens, finish⟩

theorem cut_ofSource {source : String} {scan : Scan} (hscan : Scan.ofSource source = .ok scan) :
    Cut source 0 [] source.toList scan.tokens :=
  ⟨rfl, scan.finish, hscan⟩

theorem map_cons_eq_ok {result : Except LexError Scan} {token : Token} {tokens : List Token}
    {finish : Span} :
    result.map (Scan.cons token) = .ok (Scan.mk tokens finish) ↔
      ∃ rest, tokens = token :: rest ∧ result = .ok ⟨rest, finish⟩ := by
  cases result with
  | error cause => simp [Except.map]
  | ok scan =>
    obtain ⟨others, last⟩ := scan
    simp only [Except.map, Scan.cons, Except.ok.injEq, Scan.mk.injEq]
    constructor
    · rintro ⟨rfl, rfl⟩
      exact ⟨others, rfl, rfl, rfl⟩
    · rintro ⟨rest, rfl, rfl, rfl⟩
      exact ⟨rfl, rfl⟩

namespace Cut

variable {source : String} {depth : Nat} {before text : List Char} {tokens : List Token}

theorem source_iff {c : Char} {tail rest : List Char} (htail : tail <+: rest) :
    source.toList = before ++ c :: rest ↔
      source.toList = before ++ c :: tail ++ rest.drop tail.length := by
  rw [List.append_assoc, List.cons_append, List.prefix_iff_eq_append.mp htail]

theorem nil_iff :
    Cut source depth before [] tokens ↔ source.toList = before ∧ tokens = [] := by
  rw [cut_iff, List.append_nil, scanFrom]
  simp [eq_comm]

/-! ### List text -/

theorem blank_iff {c : Char} (hblank : Text.isBlank c = true) :
    Cut source (depth + 1) before (c :: text) tokens ↔
      Cut source (depth + 1) (before ++ [c]) text tokens := by
  have hscan : scanFrom (depth + 1) (.behind before) (c :: text) =
      scanFrom (depth + 1) (.behind (before ++ [c])) text := by
    rw [scanFrom, if_pos (by simp [isSkipped, hblank]), Position.advance_behind]
  rw [cut_iff, cut_iff, hscan, List.append_assoc, List.singleton_append]

theorem lexeme_iff {c : Char} (hblank : Text.isBlank c = false) :
    Cut source (depth + 1) before (c :: text) tokens ↔
      let lexeme := listLexeme (depth + 1) c text
      let stop := before ++ c :: lexeme.tail
      ∃ rest, tokens = ⟨lexeme.kind, .between (.behind before) (.behind stop)⟩ :: rest ∧
        Cut source lexeme.depth stop (text.drop lexeme.tail.length) rest := by
  have hscan : scanFrom (depth + 1) (.behind before) (c :: text) =
      let lexeme := listLexeme (depth + 1) c text
      let stop := Position.behind (before ++ c :: lexeme.tail)
      (scanFrom lexeme.depth stop (text.drop lexeme.tail.length)).map
        (.cons ⟨lexeme.kind, .between (.behind before) stop⟩) := by
    rw [scanFrom, if_neg (by simp [isSkipped, hblank]), if_neg (by simp), lexeme,
      if_neg (Nat.succ_ne_zero depth)]
    simp only [Position.advanceAll_behind]
  have htail := tail_listLexeme (depth + 1) c text
  simp only [cut_iff, hscan, map_cons_eq_ok, source_iff htail]
  grind

/-- An opening bracket in list text. -/
theorem open_iff :
    Cut source (depth + 1) before ('[' :: text) tokens ↔
      ∃ rest, tokens =
          ⟨.leftBracket, .between (.behind before) (.behind (before ++ ['[']))⟩ :: rest ∧
        Cut source (depth + 2) (before ++ ['[']) text rest :=
  lexeme_iff (by decide)

theorem close_iff :
    Cut source (depth + 1) before (']' :: text) tokens ↔
      ∃ rest, tokens =
          ⟨.rightBracket, .between (.behind before) (.behind (before ++ [']']))⟩ :: rest ∧
        Cut source depth (before ++ [']']) text rest :=
  lexeme_iff (by decide)

theorem word_iff {c : Char} {tail : List Char} (hfirst : endsWord c = false)
    (htail : ∀ other ∈ tail, endsWord other = false)
    (hnext : ∀ other ∈ text.head?, endsWord other = true) :
    Cut source (depth + 1) before (c :: (tail ++ text)) tokens ↔
      ∃ rest, tokens = ⟨.word (String.ofList (c :: tail)),
          .between (.behind before) (.behind (before ++ c :: tail))⟩ :: rest ∧
        Cut source (depth + 1) (before ++ c :: tail) text rest := by
  have hword : (tail ++ text).takeWhile (!endsWord ·) = tail := by
    rw [List.takeWhile_append_of_pos (by simpa using htail)]
    cases text with
    | nil => simp
    | cons other text =>
      have hother : endsWord other = true := hnext other rfl
      simp [hother]
  rw [lexeme_iff (not_isBlank_of_endsWord hfirst).1, listLexeme_of_word _ hfirst]
  simp only [hword, List.drop_left]

/-! ### Code -/

/-- A list begins in code with a bracket, and list text is what follows. -/
theorem openCode_iff :
    Cut source 0 before ('[' :: text) tokens ↔
      ∃ rest, tokens =
          ⟨.leftBracket, .between (.behind before) (.behind (before ++ ['[']))⟩ :: rest ∧
        Cut source 1 (before ++ ['[']) text rest := by
  have hscan : scanFrom 0 (.behind before) ('[' :: text) =
      (scanFrom 1 (.behind (before ++ ['['])) text).map
        (.cons ⟨.leftBracket, .between (.behind before) (.behind (before ++ ['[']))⟩) := by
    rw [scanFrom, if_neg (by decide), if_neg (by decide), lexeme, if_pos rfl, codeLexeme]
    simp only [Position.advanceAll_behind, List.length_nil, List.drop_zero]
  simp only [cut_iff, hscan, map_cons_eq_ok, List.append_assoc, List.singleton_append]
  grind

/-- What stands before the next token of code is white space and comments. -/
theorem exists_lexeme {token : Token} {rest : List Token}
    (hcut : Cut source 0 before text (token :: rest)) :
    ∃ start c after, ∃ lexeme : Lexeme, lexeme.FitsCode c after ∧
      token = ⟨lexeme.kind, .between (.behind start) (.behind (start ++ c :: lexeme.tail))⟩ ∧
      Cut source lexeme.depth (start ++ c :: lexeme.tail) (after.drop lexeme.tail.length) rest := by
  obtain ⟨hsource, finish, hscan⟩ := hcut
  generalize hdepth : 0 = depth at hscan
  generalize hposition : Position.behind before = position at hscan
  fun_induction scanFrom depth position text generalizing before with
  | case1 => cases hscan
  | case2 depth position c text hskipped ih =>
    have hnext : Position.behind (before ++ [c]) = position.advance c := by
      rw [← hposition, Position.advance_behind]
    exact ih (by simpa using hsource) hdepth hnext hscan
  | case3 depth position c text hskipped hcomment comment =>
    rename_i ih
    have htext : c :: text = comment ++ text.dropWhile (· != '\n') := by
      simp [comment, List.takeWhile_append_dropWhile]
    have hnext : Position.behind (before ++ comment) = position.advanceAll comment := by
      rw [← hposition, Position.advanceAll_behind]
    refine ih ?_ hdepth hnext hscan
    rw [hsource, htext, List.append_assoc]
  | case4 => cases hscan
  | case5 depth position c text hskipped hcomment lexeme hlexeme stop =>
    subst hdepth hposition
    obtain ⟨others, htokens, hrest⟩ := map_cons_eq_ok.mp hscan
    obtain ⟨rfl, rfl⟩ := List.cons.inj htokens
    rw [Logo.lexeme, if_pos rfl] at hlexeme
    have hfits := fitsCode_codeLexeme hlexeme
    have hstop : stop = .behind (before ++ c :: lexeme.tail) := Position.advanceAll_behind _ _
    rw [hstop] at hrest ⊢
    exact ⟨before, c, text, lexeme, hfits, rfl, (source_iff hfits.tail).mp hsource, finish, hrest⟩

/-- Behind a token that opens no list the code goes on. -/
theorem take {token : Token} {rest : List Token} (hcut : Cut source 0 before text (token :: rest))
    (hkind : token.kind ≠ .leftBracket) :
    ∃ before text, Cut source 0 before text rest := by
  obtain ⟨start, c, after, lexeme, hfits, rfl, hrest⟩ := hcut.exists_lexeme
  rw [hfits.depth hkind] at hrest
  exact ⟨_, _, hrest⟩

/-- Behind an opening bracket there is list text. -/
theorem opening {span : Span} {rest : List Token}
    (hcut : Cut source 0 before text (⟨.leftBracket, span⟩ :: rest)) :
    ∃ start text, span = .between (.behind start) (.behind (start ++ ['['])) ∧
      Cut source 1 (start ++ ['[']) text rest := by
  obtain ⟨start, c, after, lexeme, hfits, htoken, hrest⟩ := hcut.exists_lexeme
  obtain ⟨hkind, rfl⟩ := Token.mk.inj htoken
  obtain ⟨rfl, htail, hdepth⟩ := hfits.opening hkind.symm
  rw [htail, hdepth] at hrest
  rw [htail]
  exact ⟨start, after, rfl, hrest⟩

end Cut

end Logo
