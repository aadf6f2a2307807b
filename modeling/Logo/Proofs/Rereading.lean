import Logo.Datum.Printer
import Logo.Primitive.Table
import Logo.Proofs.Respacing

/-!
# Lists that are read as code

A list is read as code from the text between its brackets while it still has that text, and
otherwise from the sources of its items with one blank between them. Outside the lists in it the two
texts differ in white space only, so they are the same program as long as the first one has no line
ends there.
-/

namespace Logo

open Datum (unplacedAll)

/-! ## The two texts of a list -/

/-- The characters of a list text that stand outside the lists in it. -/
def outerText : Nat → List Char → List Char
  | _, [] => []
  | depth, '[' :: text => outerText (depth + 1) text
  | depth, ']' :: text => outerText (depth - 1) text
  | 0, c :: text => c :: outerText 0 text
  | depth + 1, _ :: text => outerText (depth + 1) text

variable {c : Char}

theorem outerText_cons (hopen : c ≠ '[') (hclose : c ≠ ']') (text : List Char) :
    outerText 0 (c :: text) = c :: outerText 0 text := by
  rw [outerText]
  · exact hopen
  · exact hclose

theorem outerText_cons_inside {c : Char} (hopen : c ≠ '[') (hclose : c ≠ ']') (depth : Nat)
    (text : List Char) : outerText (depth + 1) (c :: text) = outerText (depth + 1) text := by
  rw [outerText]
  · exact hopen
  · exact hclose

theorem outerText_word {word : List Char} (hword : ∀ c ∈ word, endsWord c = false)
    (text : List Char) : outerText 0 (word ++ text) = word ++ outerText 0 text := by
  induction word with
  | nil => rfl
  | cons c word ih =>
    obtain ⟨hfirst, hword⟩ := List.forall_mem_cons.mp hword
    obtain ⟨-, hopen, hclose⟩ := not_isBlank_of_endsWord hfirst
    rw [List.cons_append, outerText_cons hopen hclose, ih hword, List.cons_append]

theorem outerText_word_inside {word : List Char} (hword : ∀ c ∈ word, endsWord c = false)
    (depth : Nat) (text : List Char) :
    outerText (depth + 1) (word ++ text) = outerText (depth + 1) text := by
  induction word with
  | nil => rfl
  | cons c word ih =>
    obtain ⟨hfirst, hword⟩ := List.forall_mem_cons.mp hword
    obtain ⟨-, hopen, hclose⟩ := not_isBlank_of_endsWord hfirst
    rw [List.cons_append, outerText_cons_inside hopen hclose, ih hword]

namespace ListText

variable {inner : List Char} {data : List Datum} (htext : ListText inner data)

include htext

theorem outerText_inside (depth : Nat) (text : List Char) :
    outerText (depth + 1) (inner ++ text) = outerText (depth + 1) text := by
  induction htext generalizing depth text with
  | nil => rfl
  | blank hblank _ ih =>
    obtain ⟨hopen, hclose⟩ := ne_bracket_of_isBlank hblank
    rw [List.cons_append, outerText_cons_inside hopen hclose, ih]
  | @word c tail rest items hfirst htail hnext _ ih =>
    rw [← List.cons_append, List.append_assoc,
      outerText_word_inside (List.forall_mem_cons.mpr ⟨hfirst, htail⟩), ih]
  | @list nested rest data items _ _ ihInner ih =>
    rw [List.cons_append, outerText, List.append_assoc, ihInner, List.cons_append, outerText,
      Nat.add_sub_cancel, ih]

/-- Inside brackets both texts have the text of a list as it stands. -/
theorem append_inside {depth : Nat} {text other : List Char}
    (hrest : Respaced (depth + 1) text other) :
    Respaced (depth + 1) (inner ++ text) (inner ++ other) := by
  induction htext generalizing depth text other with
  | nil => exact hrest
  | blank hblank _ ih =>
    obtain ⟨hopen, hclose⟩ := ne_bracket_of_isBlank hblank
    exact .inside hopen hclose (ih hrest)
  | @word c tail rest items hfirst htail hnext _ ih =>
    rw [← List.cons_append, List.append_assoc, List.append_assoc]
    exact (ih hrest).append_inside (List.forall_mem_cons.mpr ⟨hfirst, htail⟩)
  | @list nested rest data items _ _ ihInner ih =>
    simp only [List.cons_append, List.append_assoc]
    exact .opening (ihInner (.closing (ih hrest)))

theorem exists_inside {depth : Nat} {text other : List Char}
    (hrespaced : Respaced (depth + 1) (inner ++ text) other) :
    ∃ rest, other = inner ++ rest ∧ Respaced (depth + 1) text rest := by
  induction htext generalizing depth text other with
  | nil => exact ⟨other, rfl, hrespaced⟩
  | blank hblank _ ih =>
    obtain ⟨hopen, hclose⟩ := ne_bracket_of_isBlank hblank
    cases hrespaced with
    | opening _ => exact absurd rfl hopen
    | closing _ => exact absurd rfl hclose
    | inside _ _ hsame =>
      obtain ⟨rest, rfl, hrest⟩ := ih hsame
      exact ⟨rest, rfl, hrest⟩
  | @word c tail rest items hfirst htail hnext _ ih =>
    rw [← List.cons_append, List.append_assoc] at hrespaced
    obtain ⟨middle, rfl, hmiddle⟩ :=
      hrespaced.exists_append_inside (List.forall_mem_cons.mpr ⟨hfirst, htail⟩)
    obtain ⟨after, rfl, hafter⟩ := ih hmiddle
    exact ⟨after, by simp, hafter⟩
  | @list nested rest data items _ _ ihInner ih =>
    rw [List.cons_append, List.append_assoc] at hrespaced
    cases hrespaced with
    | inside hopen _ _ => exact absurd rfl hopen
    | opening hsame =>
      obtain ⟨middle, rfl, hmiddle⟩ := ihInner hsame
      cases hmiddle with
      | inside _ hclose _ => exact absurd rfl hclose
      | closing hbehind =>
        obtain ⟨after, rfl, hafter⟩ := ih hbehind
        exact ⟨after, by simp, hafter⟩

end ListText

def joined (items : List Datum) : List Char :=
  (" ".intercalate (Datum.sources items)).toList

def joinedBehind (items : List Datum) : List Char :=
  if items.isEmpty then [] else ' ' :: joined items

theorem joined_cons (datum : Datum) (items : List Datum) :
    joined (datum :: items) = datum.source.toList ++ joinedBehind items := by
  rw [joined, Datum.sources, toList_intercalate_cons]
  cases items <;> rfl

theorem head?_joinedBehind (items : List Datum) :
    ∀ next ∈ (joinedBehind items).head?, endsWord next = true := by
  cases items with
  | nil => simp [joinedBehind]
  | cons datum items =>
    intro next hnext
    cases hnext
    decide

variable {source : String} {items : List Datum}

variable {text : List Char}

theorem Respaced.joinedBehind (hrespaced : Respaced 0 text (joined items)) :
    Respaced 0 text (joinedBehind items) := by
  cases items with
  | nil => exact hrespaced
  | cons datum items => exact .right (by decide) (by decide) hrespaced

/-- Without line ends outside the lists in it, the text of a list differs in white space only from
the sources of its items. -/
theorem ListText.respaced (htext : ListText text items) (hline : '\n' ∉ outerText 0 text) :
    Respaced 0 text (joined items) := by
  induction htext with
  | nil => exact .nil
  | @blank c text items hblank _ ih =>
    obtain ⟨hopen, hclose⟩ := ne_bracket_of_isBlank hblank
    rw [outerText_cons hopen hclose, List.mem_cons, not_or] at hline
    exact .left hblank (Ne.symm hline.1) (ih hline.2)
  | @word c tail text items hfirst htail hnext _ ih =>
    rw [← List.cons_append, outerText_word (List.forall_mem_cons.mpr ⟨hfirst, htail⟩),
      List.mem_append, not_or] at hline
    rw [joined_cons]
    have hsource : (Datum.symbol (.ofList (c :: tail))).source.toList = c :: tail :=
      String.toList_ofList
    rw [hsource]
    exact .word hfirst htail hnext (head?_joinedBehind items) (ih hline.2).joinedBehind
  | @list inner text data items hinner _ _ ih =>
    rw [outerText, hinner.outerText_inside, outerText, Nat.add_sub_cancel] at hline
    rw [joined_cons]
    have hsource : (Datum.list data (some (.ofList inner)) none).source.toList =
        '[' :: (inner ++ [']']) := by simp [Datum.source]
    rw [hsource, List.cons_append, List.append_assoc]
    exact .opening (hinner.append_inside (.closing (ih hline).joinedBehind))

/-! ## Tokens that stand side by side -/

variable {before : List Char} {tokens others : List Token}

theorem Cut.unique {depth : Nat} (hcut : Cut source depth before text tokens)
    (hother : Cut source depth before text others) : tokens = others := by
  obtain ⟨-, finish, hscan⟩ := hcut
  obtain ⟨-, finish', hscan'⟩ := hother
  cases hscan.symm.trans hscan'
  rfl

theorem Cut.skips {gap rest : List Char} (hcut : Cut source 0 before text tokens)
    (hskips : Skips text gap rest) : Cut source 0 (before ++ gap) rest tokens := by
  obtain ⟨hsource, finish, hscan⟩ := hcut
  refine ⟨by rw [hsource, hskips.text_eq, List.append_assoc], finish, ?_⟩
  rwa [hskips.scan, Position.advanceAll_behind] at hscan

theorem Cut.code (hcut : Cut source 0 before (c :: text) tokens) (hskipped : isSkipped 0 c = false)
    (hcode : c ≠ ';') :
    ∃ lexeme rest, codeLexeme c text = .ok lexeme ∧
      tokens = ⟨lexeme.kind, .between (.behind before) (.behind (before ++ c :: lexeme.tail))⟩ ::
        rest ∧
      Cut source lexeme.depth (before ++ c :: lexeme.tail) (text.drop lexeme.tail.length) rest := by
  obtain ⟨hsource, finish, hscan⟩ := hcut
  rw [scanFrom_code hskipped hcode] at hscan
  cases hlexeme : codeLexeme c text with
  | error fault =>
    rw [hlexeme] at hscan
    cases hscan
  | ok lexeme =>
    rw [hlexeme] at hscan
    obtain ⟨rest, rfl, hrest⟩ := map_cons_eq_ok.mp hscan
    rw [Position.advanceAll_behind] at hrest ⊢
    have htail := (fitsCode_codeLexeme hlexeme).tail
    exact ⟨lexeme, rest, rfl, rfl, (Cut.source_iff htail).mp hsource, finish, hrest⟩

/-- The tokens that are left of two sources when their texts differ in white space only, both before
and behind the place that has been reached. -/
def Realigned (source other : String) (tokens others : List Token) : Prop :=
  ∃ depth before mate text rest, Cut source 0 before text tokens ∧ Cut other 0 mate rest others ∧
    Respaced depth text rest ∧ unspaced before = unspaced mate

/-- No tokens are left of two sources, or the same lexeme comes next in both. -/
inductive Aligned (source other : String) : List Token → List Token → Prop where
  | nil : Aligned source other [] []
  | cons {depth code : Nat} {kind : TokenKind} {c : Char}
      {tail word start mate text rest : List Char} {tokens others : List Token}
      (hfits : Lexeme.FitsCode ⟨kind, tail, code⟩ c word)
      (hstart : unspaced start = unspaced mate) (hdepth : code ≤ depth)
      (hcut : Cut source code (start ++ c :: tail) text tokens)
      (hmate : Cut other code (mate ++ c :: tail) rest others) (hrest : Respaced depth text rest) :
      Aligned source other
        (⟨kind, .between (.behind start) (.behind (start ++ c :: tail))⟩ :: tokens)
        (⟨kind, .between (.behind mate) (.behind (mate ++ c :: tail))⟩ :: others)

namespace Realigned

variable {source other : String} {tokens others : List Token}

/-- Texts that differ in white space have the same next lexeme. -/
theorem aligned (hpaired : Realigned source other tokens others) :
    Aligned source other tokens others := by
  obtain ⟨depth, before, mate, text, rest, hcut, hmate, hrespaced, hbefore⟩ := hpaired
  obtain ⟨gap, gap', hgap, ⟨hskips, hskips'⟩ |
    ⟨depth', c, word, left, right, hfront, hskips, hskips'⟩⟩ := hrespaced.exists_starts
  · obtain ⟨-, rfl⟩ := Cut.nil_iff.mp (hcut.skips hskips)
    obtain ⟨-, rfl⟩ := Cut.nil_iff.mp (hmate.skips hskips')
    exact .nil
  · obtain ⟨lexeme, after, hlexeme, rfl, hafter⟩ :=
      (hcut.skips hskips).code hfront.unskipped hfront.code
    obtain ⟨lexeme', after', hlexeme', rfl, hafter'⟩ :=
      (hmate.skips hskips').code hfront.unskipped hfront.code
    rw [hfront.lexeme] at hlexeme
    rw [hfront.mate] at hlexeme'
    cases hlexeme.symm.trans hlexeme'
    obtain ⟨hbehind, hdepth⟩ := hfront.behind_lexeme hlexeme
    exact .cons (fitsCode_codeLexeme hlexeme) (by rw [unspaced_append, unspaced_append, hbefore,
      hgap]) hdepth hafter hafter' hbehind

theorem take {token mate : Token} (hpaired : Realigned source other (token :: tokens)
      (mate :: others)) (hkind : token.kind ≠ .leftBracket) :
    Realigned source other tokens others := by
  cases hpaired.aligned with
  | cons hfits hstart hdepth hcut hmate hrest =>
    have hcode := hfits.depth hkind
    dsimp only at hcode
    subst hcode
    exact ⟨_, _, _, _, _, hcut, hmate, hrest, by rw [unspaced_append, unspaced_append, hstart]⟩

end Realigned

/-! ## Lists in both texts -/

/-- Behind the text of a list and its bracket there are tokens again. -/
theorem ListText.exists_cut_behind {inner : List Char} {data : List Datum}
    (htext : ListText inner data) {source : String} {depth : Nat} {before rest : List Char}
    {tokens : List Token} (hcut : Cut source (depth + 1) before (inner ++ ']' :: rest) tokens) :
    ∃ after, Cut source depth (before ++ inner ++ [']']) rest after := by
  induction htext generalizing depth before rest tokens with
  | nil =>
    obtain ⟨after, -, hafter⟩ := Cut.close_iff.mp hcut
    exact ⟨after, by simpa using hafter⟩
  | blank hblank _ ih =>
    obtain ⟨after, hafter⟩ := ih ((Cut.blank_iff hblank).mp hcut)
    exact ⟨after, by simpa using hafter⟩
  | @word c tail text items hfirst htail hnext _ ih =>
    have hends := endsWord_head?_append hnext rest
    rw [List.cons_append, List.append_assoc] at hcut
    obtain ⟨others, -, hothers⟩ := (Cut.word_iff hfirst htail hends).mp hcut
    obtain ⟨after, hafter⟩ := ih hothers
    exact ⟨after, by simpa using hafter⟩
  | @list nested text data items _ _ ihInner ih =>
    rw [List.cons_append, List.append_assoc, List.cons_append] at hcut
    obtain ⟨others, -, hothers⟩ := Cut.open_iff.mp hcut
    obtain ⟨middle, hmiddle⟩ := ihInner hothers
    obtain ⟨after, hafter⟩ := ih hmiddle
    exact ⟨after, by simpa using hafter⟩

/-- A list that is read in one of the texts is read in the other one. -/
theorem exists_readItems_of_respaced {source other : String} {depth : Nat}
    {before mate text rest : List Char} {tokens others : List Token} {first : Position}
    {items : List Datum} {closing : Span} {after : Shorter tokens}
    (hcut : Cut source 1 before text tokens) (hmate : Cut other 1 mate rest others)
    (hrespaced : Respaced (depth + 1) text rest) (hbefore : unspaced before = unspaced mate)
    (hread : readItems source (.between first (.behind before)) tokens =
      .ok (items, closing, after)) (first' : Position) :
    ∃ found, readItems other (.between first' (.behind mate)) others = .ok found ∧
      (bracketed source (.between first (.behind before)) closing items).unplaced =
        (bracketed other (.between first' (.behind mate)) found.2.1 found.1).unplaced ∧
      Realigned source other after.val found.2.2.val := by
  obtain ⟨inner, behind, rfl, htext, rfl, hafter⟩ := spellsItems_of_readItems hcut hread
  obtain ⟨behind', rfl, hclosing⟩ := htext.exists_inside hrespaced
  cases hclosing with
  | inside _ hclose _ => exact absurd rfl hclose
  | closing hbehind =>
    obtain ⟨final, hfinal⟩ := htext.exists_cut_behind hmate
    obtain ⟨others', hothers, hreads⟩ := htext.exists_readsItems hfinal
    cases hothers.unique hmate
    obtain ⟨found, hshorter, hfound, hsame⟩ := hreads (.between first' (.behind mate))
    refine ⟨_, hfound, ?_, _, _, _, _, _, hafter, hfinal, hbehind, by simp [hbefore]⟩
    rw [unplaced_bracketed _ _ _ hcut.source_eq, unplaced_bracketed _ _ _ hmate.source_eq, hsame]

/-- Texts that differ in white space have the same lists. -/
theorem Realigned.readItems {source other : String} {tokens others : List Token}
    {opening mate : Span}
    (hpaired : Realigned source other (⟨.leftBracket, opening⟩ :: tokens)
      (⟨.leftBracket, mate⟩ :: others)) :
    Agree (fun found found' =>
        (bracketed source opening found.2.1 found.1).unplaced =
          (bracketed other mate found'.2.1 found'.1).unplaced ∧
        Realigned source other found.2.2.val found'.2.2.val)
      (readItems source opening tokens) (readItems other mate others) := by
  cases hpaired.aligned with
  | @cons depth code kind c tail word start start' text rest _ _ hfits hstart hdepth hcut hmate
      hrest =>
      obtain ⟨rfl, htail, hcode⟩ := hfits.opening rfl
      dsimp only at htail hcode
      subst htail hcode
      obtain ⟨depth, rfl⟩ := Nat.exists_eq_add_of_le' hdepth
      have hbefore : unspaced (start ++ ['[']) = unspaced (start' ++ ['[']) := by
        rw [unspaced_append, unspaced_append, hstart]
      apply Agree.of_exists
      · rintro ⟨items, closing, after⟩ hread
        exact exists_readItems_of_respaced hcut hmate hrest hbefore hread _
      · rintro ⟨items, closing, after⟩ hread
        obtain ⟨found, hfound, -⟩ :=
          exists_readItems_of_respaced hmate hcut hrest.symm hbefore.symm hread _
        exact ⟨found, hfound⟩

/-! ## Programs without their places -/

namespace Datum

mutual

/-- The datum without the places where it stood. From the texts of definitions white space is left
out. -/
def placeless : Datum → Datum
  | .atom value => .atom value
  | .list items text _ => .list (placelessAll items) text Option.none
  | .call ⟨name, inputs, _⟩ => .call ⟨name, placelessAll inputs, .nowhere⟩
  | .procedure ⟨name, params, kind, body, text⟩ =>
    .procedure ⟨name, params, kind, placelessAll body, text.map (.ofList <| unspaced ·.toList)⟩

def placelessAll : List Datum → List Datum
  | [] => []
  | datum :: data => datum.placeless :: placelessAll data

end

mutual

theorem placeless_unplaced (datum : Datum) : datum.unplaced.placeless = datum.placeless := by
  cases datum with
  | list items text place => rw [unplaced, placeless, placeless, placelessAll_unplacedAll items]
  | atom value => rfl
  | call site => rfl
  | procedure definition => rfl

theorem placelessAll_unplacedAll (data : List Datum) :
    placelessAll (unplacedAll data) = placelessAll data := by
  cases data with
  | nil => rfl
  | cons datum data =>
    rw [unplacedAll, placelessAll, placelessAll, placeless_unplaced datum,
      placelessAll_unplacedAll data]

end

mutual

theorem source_unplaced (datum : Datum) : datum.unplaced.source = datum.source := by
  cases datum with
  | list items text place => rw [unplaced, source, source, sources_unplacedAll items]
  | atom value => rfl
  | call site => rfl
  | procedure definition => rfl

theorem sources_unplacedAll (data : List Datum) : sources (unplacedAll data) = sources data := by
  cases data with
  | nil => rfl
  | cons datum data =>
    rw [unplacedAll, sources, sources, source_unplaced datum, sources_unplacedAll data]

end

theorem forall₂_placeless {data others : List Datum} :
    List.Forall₂ (fun datum mate => datum.placeless = mate.placeless) data others ↔
      placelessAll data = placelessAll others := by
  induction data generalizing others with
  | nil => cases others <;> simp [placelessAll]
  | cons datum data ih => cases others <;> simp [placelessAll, ih]

end Datum

def Procedure.placeless (definition : Procedure) : Procedure :=
  { definition with
    body := Datum.placelessAll definition.body
    source := definition.source.map (.ofList <| unspaced ·.toList) }

theorem Datum.placeless_procedure (definition : Procedure) :
    (Datum.procedure definition).placeless = .procedure definition.placeless := by
  cases definition
  rw [placeless]
  rfl

theorem Procedure.placeless_user {body body' : List Datum} {text text' : String}
    (hbody : Datum.placelessAll body = Datum.placelessAll body')
    (htext : unspaced text.toList = unspaced text'.toList) (name : String) (params : List String) :
    (Procedure.user name params body (some text)).placeless =
      (Procedure.user name params body' (some text')).placeless := by
  simp only [placeless, user, hbody, Option.map_some, htext]

def Procedures.Same (first second : Procedures) : Prop :=
  ∀ name, (first.find? name).map Procedure.placeless = (second.find? name).map Procedure.placeless

namespace Procedures.Same

variable {first second : Procedures} (hsame : first.Same second)

include hsame

theorem arities : SameArities first second := by
  intro name
  have harity := congrArg (Option.map Procedure.arity) (hsame name)
  rwa [Option.map_map, Option.map_map] at harity

theorem define {definition mate : Procedure} (hname : definition.name = mate.name)
    (hmate : definition.placeless = mate.placeless) :
    (first.define definition).Same (second.define mate) := by
  intro name
  rw [find?_define, find?_define, hname]
  split
  · exact congrArg some hmate
  · exact hsame name

end Procedures.Same

/-! ## The texts of definitions -/

/-- What the slice between two places has besides white space can be told from what comes before
them, with or without white space. -/
theorem unspaced_sliceBytes {first last : List Char} (hfirst : first <+: source.toList)
    (hlast : last <+: source.toList) :
    unspaced
        (sliceBytes source (Position.behind first).offset (Position.behind last).offset).toList =
      (unspaced last).drop (unspaced first).length := by
  cases List.prefix_or_prefix_of_prefix hfirst hlast with
  | inl hbefore =>
    obtain ⟨inner, rfl⟩ := hbefore
    obtain ⟨after, hsource⟩ := hlast
    rw [List.append_assoc] at hsource
    rw [sliceBytes_behind hsource.symm, String.toList_ofList, unspaced_append, List.drop_left]
  | inr hbehind =>
    obtain ⟨inner, rfl⟩ := hbehind
    have hempty :
        (Position.behind last).offset - (Position.behind (last ++ inner)).offset = 0 := by
      rw [Position.offset_behind, Position.offset_behind, byteLength_append]
      omega
    have hnone : ∀ text, takeBytes 0 text = [] := by
      intro text
      cases text <;> rfl
    rw [sliceBytes, hempty, hnone, unspaced_append, List.length_append, ← List.drop_drop]
    simp [unspaced]

variable {source other : String}

/-- Definitions that begin and end side by side have the same texts except for white space. -/
theorem Realigned.unspaced_definition {tokens others rest after : List Token}
    {opening mate closing closing' : Span}
    (hopening : Realigned source other (⟨.define, opening⟩ :: tokens) (⟨.define, mate⟩ :: others))
    (hclosing : Realigned source other (⟨.close, closing⟩ :: rest) (⟨.close, closing'⟩ :: after)) :
    unspaced (sliceBytes source opening.start closing.stop).toList =
      unspaced (sliceBytes other mate.start closing'.stop).toList := by
  cases hopening.aligned with
  | @cons _ _ _ c tail _ start start' text behind _ _ _ hstart _ hcut hmate _ =>
    cases hclosing.aligned with
    | @cons _ _ _ c' tail' _ stop stop' text' behind' _ _ _ hstop _ hcut' hmate' _ =>
      have hfirst : start <+: source.toList :=
        ⟨c :: tail ++ text, by rw [hcut.source_eq, List.append_assoc]⟩
      have hfirst' : start' <+: other.toList :=
        ⟨c :: tail ++ behind, by rw [hmate.source_eq, List.append_assoc]⟩
      have hlast : stop ++ c' :: tail' <+: source.toList := ⟨text', hcut'.source_eq.symm⟩
      have hlast' : stop' ++ c' :: tail' <+: other.toList := ⟨behind', hmate'.source_eq.symm⟩
      have hslice := unspaced_sliceBytes hfirst hlast
      have hslice' := unspaced_sliceBytes hfirst' hlast'
      rw [unspaced_append, hstart, hstop, ← unspaced_append, ← hslice'] at hslice
      exact hslice

/-! ## Both programs -/

theorem pairs_realigned (source other : String) :
    Pairs source other (Realigned source other)
      (fun datum mate => datum.placeless = mate.placeless) where
  kinds hpaired := by
    cases hpaired.aligned with
    | nil => rfl
    | cons => rfl
  take hpaired hkind := hpaired.take (TokenKind.isSimple_iff.mp hkind).1
  list hpaired := by
    apply hpaired.readItems.imp
    rintro found found' ⟨hlist, hrest⟩
    refine ⟨?_, hrest⟩
    rw [← Datum.placeless_unplaced, hlist, Datum.placeless_unplaced]
  atom _ := rfl
  call hinputs name span mate := by
    rw [Datum.placeless, Datum.placeless, Datum.forall₂_placeless.mp hinputs]

theorem pairsTable_realigned (source other : String) (finish last : Span) :
    PairsTable source other finish last (Realigned source other)
      (fun datum mate => datum.placeless = mate.placeless) (fun _ _ => True) Procedures.Same where
  calls _ := (pairs_realigned source other).calls
  arities hsame := hsame.arities
  enter _ hpaired := hpaired.take (by simp)
  leave _ hpaired := hpaired.take (by simp)
  define {_ _ name _ _ inside _ _ _ _ _ _ _} hopening hclosing hbody := by
    have hmate := Procedure.placeless_user (Datum.forall₂_placeless.mp hbody)
      (hopening.unspaced_definition hclosing) name (takeParams inside).1
    refine ⟨?_, fun hsame => hsame.define rfl hmate⟩
    rw [Datum.placeless_procedure, Datum.placeless_procedure, hmate]

/-! ## Headers and second names -/

def Token.spanless (token : Token) : Token :=
  ⟨token.kind, .nowhere⟩

theorem takeParams_spanless (tokens : List Token) :
    (takeParams (tokens.map Token.spanless)).1 = (takeParams tokens).1 := by
  induction tokens with
  | nil => rfl
  | cons token rest ih =>
    obtain ⟨kind, span⟩ := token
    cases kind with
    | reference name => exact congrArg (Text.lowercase name :: ·) ih
    | define | close | nil | boolean _ | number _ | quote _ | operator _ | symbol _ | word _
    | leftParen | rightParen | leftBracket | rightBracket | newline => rfl

/-- The places of the tokens are seen in the errors only. -/
theorem toOption_enterHeaders (procedures : Procedures) (tokens : List Token) :
    (enterHeaders procedures (tokens.map Token.spanless)).toOption =
      (enterHeaders procedures tokens).toOption := by
  fun_induction enterHeaders procedures tokens with
  | case1 => rfl
  | case2 procedures span name place after ih =>
    rw [← ih, List.map_cons, List.map_cons]
    simp only [Token.spanless, enterHeaders, takeParams_spanless]
  | case3 procedures span rest hnone =>
    rw [List.map_cons, enterHeaders.eq_def]
    simp only [Token.spanless]
    split
    · rename_i heq
      obtain ⟨token, others, rfl, htoken, -⟩ := List.map_eq_cons_iff.mp heq
      obtain ⟨kind, place⟩ := token
      obtain ⟨rfl, -⟩ := Token.mk.inj htoken
      exact (hnone _ _ _ rfl).elim
    · rfl
  | case4 procedures token rest hdefine ih =>
    rw [← ih, List.map_cons, enterHeaders]
    intro span heq
    obtain ⟨kind, place⟩ := token
    obtain ⟨rfl, -⟩ := Token.mk.inj heq
    exact hdefine _ rfl

theorem aliasAt?_spanless (tokens : List Token) :
    aliasAt? (tokens.map Token.spanless) = aliasAt? tokens := by
  fun_cases aliasAt? tokens with
  | case1 keyword span name place second final rest halias =>
    simp only [List.map_cons, Token.spanless, aliasAt?, halias, if_true]
  | case2 keyword span name place second final rest halias =>
    simp only [List.map_cons, Token.spanless, aliasAt?, halias, if_false, Bool.false_eq_true]
  | case3 tokens hnone =>
    rw [aliasAt?.eq_def]
    split
    · rename_i heq
      obtain ⟨⟨_, _⟩, rest, rfl, hfirst, hrest⟩ := List.map_eq_cons_iff.mp heq
      obtain ⟨⟨_, _⟩, rest, rfl, hsecond, hrest⟩ := List.map_eq_cons_iff.mp hrest
      obtain ⟨⟨_, _⟩, rest, rfl, hthird, -⟩ := List.map_eq_cons_iff.mp hrest
      obtain ⟨rfl, -⟩ := Token.mk.inj hfirst
      obtain ⟨rfl, -⟩ := Token.mk.inj hsecond
      obtain ⟨rfl, -⟩ := Token.mk.inj hthird
      exact (hnone _ _ _ _ _ _ _ rfl).elim
    · rfl

theorem toOption_enterAliases (procedures : Procedures) (tokens : List Token) :
    (enterAliases procedures (tokens.map Token.spanless)).toOption =
      (enterAliases procedures tokens).toOption := by
  fun_induction enterAliases procedures tokens with
  | case1 => rfl
  | case2 procedures token rest name second halias named hnamed ih =>
    rw [← aliasAt?_spanless, List.map_cons] at halias
    rw [← ih, List.map_cons, enterAliases, halias]
    simp only [hnamed]
  | case3 procedures token rest name second halias hnamed =>
    rw [← aliasAt?_spanless, List.map_cons] at halias
    rw [List.map_cons, enterAliases, halias]
    simp only [hnamed]
    rfl
  | case4 procedures token rest hnone ih =>
    rw [← aliasAt?_spanless, List.map_cons] at hnone
    rw [← ih, List.map_cons, enterAliases, hnone]

theorem Agree.of_toOption {ε α : Type} {result other : Except ε α}
    (hsame : result.toOption = other.toOption) : Agree Eq result other := by
  cases result with
  | ok value =>
    cases other with
    | ok value' =>
      cases hsame
      exact .ok rfl
    | error cause' => cases hsame
  | error cause =>
    cases other with
    | ok value' => cases hsame
    | error cause' => exact .error

theorem SameKinds.spanless {scan other : Scan} (hkinds : SameKinds scan other) :
    scan.tokens.map Token.spanless = other.tokens.map Token.spanless := by
  have hspanless := congrArg (List.map (Token.mk · .nowhere)) hkinds
  rwa [List.map_map, List.map_map] at hspanless

/-! ## The two texts of a list as programs -/

theorem listText_of_readList {text : String} {place : Option Span}
    (hread : readList text = .ok (.list items (some text) place)) :
    ListText text.toList (unplacedAll items) := by
  obtain ⟨inner, rest, after, read, span, hlist, -, hinner, -⟩ := exists_listText_of_readList hread
  obtain ⟨rfl, hkept, -⟩ := Datum.list.inj hlist
  rwa [Option.some.inj hkept, String.toList_ofList]

def SameReading (found other : List Datum × Procedures) : Prop :=
  Datum.placelessAll found.1 = Datum.placelessAll other.1 ∧ found.2.Same other.2

/-- Both readings of the tokens fail, or they give the same program and the same table. -/
theorem readTokens_realigned {scan scan' : Scan} (hkinds : SameKinds scan scan')
    (hpaired : Realigned source other scan.tokens scan'.tokens) (procedures : Procedures) :
    Agree SameReading (readTokens procedures source scan) (readTokens procedures other scan') := by
  have hspanless := hkinds.spanless
  rw [readTokens, readTokens]
  have hheaders := Agree.of_toOption ((toOption_enterHeaders procedures scan.tokens).symm.trans
    (hspanless ▸ toOption_enterHeaders procedures scan'.tokens))
  apply hheaders.bind
  rintro headed _ rfl
  have haliases := Agree.of_toOption ((toOption_enterAliases headed scan.tokens).symm.trans
    (hspanless ▸ toOption_enterAliases headed scan'.tokens))
  apply haliases.bind
  rintro named _ rfl
  apply ((pairsTable_realigned source other scan.finish scan'.finish).readLines (fun _ => rfl)
    hpaired).agree.imp
  rintro found found' ⟨hlines, hsame⟩
  exact ⟨Datum.forall₂_placeless.mp hlines, hsame⟩

theorem Respaced.readProgram (hrespaced : Respaced 0 source.toList other.toList)
    (procedures : Procedures) :
    Agree SameReading (readProgram procedures source) (readProgram procedures other) := by
  have hscans : Agree SameKinds (Scan.ofSource source) (Scan.ofSource other) :=
    hrespaced.scanFrom (Nat.le_refl 0) .origin .origin
  rw [readProgram_eq, readProgram_eq]
  apply hscans.and_eq.mapError.bind
  rintro scan scan' ⟨hkinds, hscan, hscan'⟩
  have hpaired : Realigned source other scan.tokens scan'.tokens :=
    ⟨0, [], [], _, _, cut_ofSource hscan, cut_ofSource hscan', hrespaced, rfl⟩
  exact (readTokens_realigned hkinds hpaired procedures).mapError

/-- A list that has been read from a text is the same program, whether it is read as code from that
text or from the sources of its items with one blank between them, unless the text has line ends
outside the lists in it. -/
theorem blockText_reads_same_without_line_ends {text : String} {items : List Datum}
    {place : Option Span} (hread : readList text = .ok (.list items (some text) place))
    (hline : '\n' ∉ outerText 0 text.toList) (procedures : Procedures) :
    Agree SameReading (readProgram procedures (Datum.blockText items (some text)))
      (readProgram procedures (Datum.blockText items none)) := by
  have hrespaced := (listText_of_readList hread).respaced hline
  rw [joined, Datum.sources_unplacedAll] at hrespaced
  exact hrespaced.readProgram procedures

/-- A definition with a comment behind it, and with a line end in a list only. -/
def definitionWithComment : String :=
  "to f :x  print [a\n :x]  end ; f"

theorem blockText_reads_same_definition :
    ∃ items place,
      readList definitionWithComment = .ok (.list items (some definitionWithComment) place) ∧
      Agree SameReading
        (readProgram .standard (Datum.blockText items (some definitionWithComment)))
        (readProgram .standard (Datum.blockText items none)) ∧
      (readProgram .standard (Datum.blockText items none)).toOption.isSome = true := by
  have hread : readList definitionWithComment = .ok
      (.list [.symbol "to", .symbol "f", .symbol ":x", .symbol "print",
        .list [.symbol "a", .symbol ":x"] (some "a\n :x") (some ⟨16, 23, 1, 17⟩), .symbol "end",
        .symbol ";", .symbol "f"] (some definitionWithComment) (some ⟨0, 33, 1, 1⟩)) := by
    with_unfolding_all rfl
  exact ⟨_, _, hread, blockText_reads_same_without_line_ends hread (by decide) .standard,
    by decide +kernel⟩

def linesWithComment : String :=
  "print 1 ; note\nprint 2"

/-- When its line end is lost, the comment takes the second line with it. -/
theorem blockText_loses_line_behind_comment :
    ∃ items place,
      readList linesWithComment = .ok (.list items (some linesWithComment) place) ∧
      (readProgram .standard (Datum.blockText items (some linesWithComment))).toOption.map
        (·.1.length) = some 2 ∧
      (readProgram .standard (Datum.blockText items none)).toOption.map (·.1.length) = some 1 := by
  have hread : readList linesWithComment = .ok
      (.list [.symbol "print", .symbol "1", .symbol ";", .symbol "note", .symbol "print",
        .symbol "2"] (some linesWithComment) (some ⟨0, 24, 1, 1⟩)) := by
    with_unfolding_all rfl
  exact ⟨_, _, hread, by decide +kernel, by decide +kernel⟩

end Logo
