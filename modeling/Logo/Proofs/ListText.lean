import Logo.Proofs.Scanning
import Mathlib.Data.List.Basic

/-!
# The text of a list

Between the brackets of a list stand words and lists, set off by brackets and white space. What is
read from such a text does not depend on where the text stands: a list that was found in a program
is read again, with all the lists in it, from the text between its brackets.
-/

namespace Logo

namespace Datum

mutual

def unplaced : Datum → Datum
  | .list items text _ => .list (unplacedAll items) text Option.none
  | datum => datum

def unplacedAll : List Datum → List Datum
  | [] => []
  | datum :: data => datum.unplaced :: unplacedAll data

end

theorem unplacedAll_eq_map (data : List Datum) : unplacedAll data = data.map unplaced := by
  induction data with
  | nil => rfl
  | cons datum data ih => rw [unplacedAll, ih, List.map_cons]

end Datum

open Datum (unplacedAll)

/-- The items that a text between brackets spells. -/
inductive ListText : List Char → List Datum → Prop where
  | nil : ListText [] []
  | blank {c : Char} {text : List Char} {items : List Datum} (hblank : Text.isBlank c = true)
      (hrest : ListText text items) : ListText (c :: text) items
  | word {c : Char} {tail text : List Char} {items : List Datum} (hfirst : endsWord c = false)
      (htail : ∀ other ∈ tail, endsWord other = false)
      (hnext : ∀ other ∈ text.head?, endsWord other = true) (hrest : ListText text items) :
      ListText (c :: (tail ++ text)) (.symbol (.ofList (c :: tail)) :: items)
  | list {inner text : List Char} {data items : List Datum} (hinner : ListText inner data)
      (hrest : ListText text items) :
      ListText ('[' :: (inner ++ ']' :: text)) (.list data (some (.ofList inner)) none :: items)

/-! ## What is read is spelled -/

section Reading

variable {source : String} {opening : Span}

theorem exists_bracketed_eq {before inner after : List Char} (first last : Position)
    (items : List Datum) (hsource : source.toList = before ++ (inner ++ after)) :
    ∃ place, bracketed source (.between first (.behind before))
      (.between (.behind (before ++ inner)) last) items =
        .list items (some (.ofList inner)) place := by
  have htext := sliceBytes_behind hsource
  rw [bracketed]
  exact ⟨_, congrArg (fun text => Datum.list items (some text) (some _)) htext⟩

theorem unplaced_bracketed {before inner after : List Char} (first last : Position)
    (items : List Datum) (hsource : source.toList = before ++ (inner ++ after)) :
    (bracketed source (.between first (.behind before)) (.between (.behind (before ++ inner)) last)
      items).unplaced = .list (unplacedAll items) (some (.ofList inner)) none := by
  obtain ⟨place, hlist⟩ := exists_bracketed_eq first last items hsource
  rw [hlist, Datum.unplaced]

/-- The text goes on with a spelling of the items, up to the bracket that closes the list, and the
tokens left are those of the text behind it. -/
def SpellsItems (source : String) (depth : Nat) (before text : List Char) (items : List Datum)
    (closing : Span) (after : List Token) : Prop :=
  ∃ inner rest, text = inner ++ ']' :: rest ∧ ListText inner (unplacedAll items) ∧
    closing = .between (.behind (before ++ inner)) (.behind (before ++ inner ++ [']'])) ∧
    Cut source depth (before ++ inner ++ [']']) rest after

namespace SpellsItems

variable {depth : Nat} {before text : List Char} {items : List Datum} {closing : Span}
  {after : List Token}

theorem close (hcut : Cut source depth (before ++ [']']) text after) :
    SpellsItems source depth before (']' :: text) []
      (.between (.behind before) (.behind (before ++ [']']))) after := by
  refine ⟨[], text, rfl, .nil, ?_, ?_⟩
  · rw [List.append_nil]
  · rwa [List.append_nil]

theorem blank {c : Char} (hblank : Text.isBlank c = true)
    (hitems : SpellsItems source depth (before ++ [c]) text items closing after) :
    SpellsItems source depth before (c :: text) items closing after := by
  obtain ⟨inner, rest, rfl, htext, hclosing, hrest⟩ := hitems
  rw [← List.append_cons] at hclosing hrest
  exact ⟨c :: inner, rest, rfl, .blank hblank htext, hclosing, hrest⟩

theorem word {c : Char} {tail : List Char} (hfirst : endsWord c = false)
    (htail : ∀ other ∈ tail, endsWord other = false)
    (hnext : ∀ other ∈ text.head?, endsWord other = true)
    (hitems : SpellsItems source depth (before ++ c :: tail) text items closing after) :
    SpellsItems source depth before (c :: (tail ++ text))
      (.symbol (.ofList (c :: tail)) :: items) closing after := by
  obtain ⟨inner, rest, rfl, htext, hclosing, hrest⟩ := hitems
  refine ⟨c :: (tail ++ inner), rest, by simp, .word hfirst htail ?_ htext, by simpa using hclosing,
    by simpa using hrest⟩
  intro other hother
  exact hnext other (List.mem_head?_append_of_mem_head? hother)

theorem list {inner : List Char} {data : List Datum} (first last : Position)
    (hsource : source.toList = before ++ ['['] ++ (inner ++ ']' :: text))
    (hinner : ListText inner (unplacedAll data))
    (hitems : SpellsItems source depth (before ++ ['['] ++ inner ++ [']']) text items closing
      after) :
    SpellsItems source depth before ('[' :: (inner ++ ']' :: text))
      (bracketed source (.between first (.behind (before ++ ['['])))
        (.between (.behind (before ++ ['['] ++ inner)) last) data :: items) closing after := by
  obtain ⟨outer, rest, rfl, htext, hclosing, hrest⟩ := hitems
  refine ⟨'[' :: (inner ++ ']' :: outer), rest, by simp, ?_, by simpa using hclosing,
    by simpa using hrest⟩
  rw [unplacedAll, unplaced_bracketed first last data hsource]
  exact .list hinner htext

end SpellsItems

/-- Items that have been read are spelled by the text. -/
theorem spellsItems_of_readItems {depth : Nat} {before text : List Char} {tokens : List Token}
    {items : List Datum} {closing : Span} {after : Shorter tokens}
    (hcut : Cut source (depth + 1) before text tokens)
    (hread : readItems source opening tokens = .ok (items, closing, after)) :
    SpellsItems source depth before text items closing after := by
  -- Both lists of tokens that a nested list leads to are those of shorter texts.
  induction hlength : text.length using Nat.strongRecOn
    generalizing depth before text tokens items closing opening with
  | ind length ih =>
    subst hlength
    cases text with
    | nil =>
      obtain ⟨_, rfl⟩ := Cut.nil_iff.mp hcut
      rw [readItems] at hread
      · cases hread
      all_goals simp
    | cons c text =>
      by_cases hblank : Text.isBlank c = true
      · exact .blank hblank
          (ih text.length (Nat.lt_succ_self _) ((Cut.blank_iff hblank).mp hcut) hread rfl)
      by_cases hopen : c = '['
      · subst hopen
        obtain ⟨others, rfl, hinner⟩ := Cut.open_iff.mp hcut
        rw [readItems] at hread
        obtain ⟨⟨data, innerClosing, middle, hmiddle⟩, hdata, hread⟩ := exists_ok_of_bind hread
        obtain ⟨⟨items, closing, final, hfinal⟩, hitems, hread⟩ := exists_ok_of_bind hread
        cases hread
        obtain ⟨inner, text, rfl, hinnerText, rfl, htext⟩ :=
          ih text.length (Nat.lt_succ_self _) hinner hdata rfl
        have hshorter : text.length < ('[' :: (inner ++ ']' :: text)).length := by
          simp only [List.length_append, List.length_cons]
          omega
        have houter := ih text.length hshorter htext hitems rfl
        exact .list _ _ hinner.source_eq hinnerText houter
      by_cases hclose : c = ']'
      · subst hclose
        obtain ⟨others, rfl, hrest⟩ := Cut.close_iff.mp hcut
        rw [readItems] at hread
        cases hread
        exact .close hrest
      · have hword : endsWord c = false := by simp [endsWord, hblank, hopen, hclose]
        obtain ⟨tail, text, rfl, htail, hnext⟩ := exists_word_append text
        obtain ⟨others, rfl, hothers⟩ := (Cut.word_iff hword htail hnext).mp hcut
        rw [readItems] at hread
        obtain ⟨⟨items, closing, final, hfinal⟩, hitems, hread⟩ := exists_ok_of_bind hread
        cases hread
        have hshorter : text.length < (c :: (tail ++ text)).length := by
          simp only [List.length_cons, List.length_append]
          omega
        have hspelled := ih text.length hshorter hothers hitems rfl
        exact .word hword htail hnext hspelled

/-! ## What is spelled is read -/

/-- The tokens of a text that goes on with a closing bracket give these items. -/
def ReadsItems (source : String) (tokens : List Token) (data : List Datum) (closing : Span)
    (after : List Token) : Prop :=
  ∀ opening, ∃ items hafter,
    readItems source opening tokens = .ok (items, closing, ⟨after, hafter⟩) ∧
      unplacedAll items = data

namespace ReadsItems

variable {tokens after : List Token} {data items : List Datum} {closing : Span}

theorem close (span : Span) (after : List Token) :
    ReadsItems source (⟨.rightBracket, span⟩ :: after) [] span after := by
  intro opening
  rw [readItems]
  exact ⟨[], by simp, rfl, rfl⟩

theorem word (hreads : ReadsItems source tokens items closing after) (text : String)
    (span : Span) :
    ReadsItems source (⟨.word text, span⟩ :: tokens) (.symbol text :: items) closing after := by
  intro opening
  obtain ⟨read, hafter, hread, rfl⟩ := hreads opening
  simp only [readItems, hread]
  exact ⟨.symbol text :: read, Nat.lt_succ_of_lt hafter, rfl, rfl⟩

theorem list {middle : List Token} {innerClosing : Span}
    (hinner : ReadsItems source tokens data innerClosing middle)
    (hreads : ReadsItems source middle items closing after) (span : Span) :
    ReadsItems source (⟨.leftBracket, span⟩ :: tokens)
      (.list data (some (sliceBytes source span.stop innerClosing.start)) none :: items) closing
      after := by
  intro opening
  obtain ⟨nested, hmiddle, hnested, rfl⟩ := hinner span
  obtain ⟨read, hafter, hread, rfl⟩ := hreads opening
  simp only [readItems, hnested]
  dsimp only [bind, Except.bind]
  simp only [hread]
  refine ⟨bracketed source span innerClosing nested :: read, ?_, rfl, rfl⟩
  exact Nat.lt_succ_of_lt (Nat.lt_trans hafter hmiddle)

end ReadsItems

/-- A word that ends in the text of a list ends where the bracket has been put behind that text. -/
theorem endsWord_head?_append {text : List Char}
    (hnext : ∀ other ∈ text.head?, endsWord other = true) (rest : List Char) :
    ∀ other ∈ (text ++ ']' :: rest).head?, endsWord other = true := by
  cases text with
  | nil => simp [endsWord]
  | cons first text => exact hnext

/-- List text is read as the items that it spells. -/
theorem ListText.exists_readsItems {inner : List Char} {data : List Datum}
    (htext : ListText inner data) {depth : Nat} {before rest : List Char} {after : List Token}
    (hrest : Cut source depth (before ++ inner ++ [']']) rest after) :
    ∃ tokens, Cut source (depth + 1) before (inner ++ ']' :: rest) tokens ∧
      ReadsItems source tokens data
        (.between (.behind (before ++ inner)) (.behind (before ++ inner ++ [']']))) after := by
  induction htext generalizing depth before rest after with
  | nil =>
    rw [List.append_nil] at hrest ⊢
    exact ⟨_, Cut.close_iff.mpr ⟨after, rfl, hrest⟩, .close _ after⟩
  | @blank c text items hblank htext ih =>
    have hmoved : Cut source depth (before ++ [c] ++ text ++ [']']) rest after := by
      simpa using hrest
    obtain ⟨tokens, htokens, hreads⟩ := ih hmoved
    exact ⟨tokens, (Cut.blank_iff hblank).mpr htokens, by simpa using hreads⟩
  | @word c tail text items hfirst htail hnext htext ih =>
    have hmoved : Cut source depth (before ++ c :: tail ++ text ++ [']']) rest after := by
      simpa using hrest
    obtain ⟨tokens, htokens, hreads⟩ := ih hmoved
    have hends := endsWord_head?_append hnext rest
    rw [List.cons_append, List.append_assoc]
    refine ⟨_, (Cut.word_iff hfirst htail hends).mpr ⟨tokens, rfl, htokens⟩, ?_⟩
    have hword := hreads.word (.ofList (c :: tail))
      (.between (.behind before) (.behind (before ++ c :: tail)))
    simpa using hword
  | @list inner text data items hinner htext ihInner ih =>
    have hmoved : Cut source depth (before ++ ['['] ++ inner ++ [']'] ++ text ++ [']']) rest
        after := by
      simpa using hrest
    obtain ⟨middle, hmiddle, hreads⟩ := ih hmoved
    obtain ⟨tokens, htokens, hnested⟩ := ihInner hmiddle
    have hopen := Cut.open_iff.mpr ⟨tokens, rfl, htokens⟩
    have hlist := hnested.list hreads (.between (.behind before) (.behind (before ++ ['['])))
    have hslice : sliceBytes source
        (Span.between (.behind before) (.behind (before ++ ['[']))).stop
        (Span.between (.behind (before ++ ['['] ++ inner))
          (.behind (before ++ ['['] ++ inner ++ [']']))).start = .ofList inner :=
      sliceBytes_behind htokens.source_eq
    rw [hslice] at hlist
    exact ⟨_, by simpa using hopen, by simpa using hlist⟩

end Reading

theorem readList_of_readItems {text : String} {opening closing finish : Span} {tokens : List Token}
    {items : List Datum} {after : Shorter tokens}
    (hscan : Scan.ofSource ("[" ++ text ++ "]") = .ok ⟨⟨.leftBracket, opening⟩ :: tokens, finish⟩)
    (hread : readItems ("[" ++ text ++ "]") opening tokens = .ok (items, closing, after)) :
    readList text = .ok (bracketed ("[" ++ text ++ "]") opening closing items) := by
  rw [readList, hscan]
  change (readItems ("[" ++ text ++ "]") opening tokens).mapError _ >>= _ = _
  rw [hread]
  rfl

variable {text : List Char} {data : List Datum}

/-- A text that begins with a list has the tokens of this list and then those of what is left. -/
theorem ListText.exists_scan_of_cut {source : String} {inner rest : List Char} {after : List Token}
    (htext : ListText inner data) (hrest : Cut source 0 (['['] ++ inner ++ [']']) rest after) :
    ∃ opening closing finish tokens items hshorter,
      Scan.ofSource source = .ok ⟨⟨.leftBracket, opening⟩ :: tokens, finish⟩ ∧
      readItems source opening tokens = .ok (items, closing, ⟨after, hshorter⟩) ∧
      sliceBytes source opening.stop closing.start = .ofList inner ∧
      unplacedAll items = data := by
  obtain ⟨tokens, htokens, hreads⟩ := htext.exists_readsItems hrest
  have hcut : Cut source 0 [] ('[' :: (inner ++ ']' :: rest)) (_ :: tokens) :=
    Cut.openCode_iff.mpr ⟨tokens, rfl, htokens⟩
  obtain ⟨hsource, finish, hscan⟩ := hcut
  obtain ⟨items, hshorter, hread, hdata⟩ := hreads (.between (.behind []) (.behind ['[']))
  have hslice := sliceBytes_behind htokens.source_eq
  refine ⟨_, _, finish, tokens, items, hshorter, ?_, hread, hslice, hdata⟩
  rw [Scan.ofSource, hsource]
  exact hscan

/-- A text between two brackets has the tokens of one list. -/
theorem ListText.exists_scan (htext : ListText text data) :
    ∃ opening closing finish tokens items hshorter,
      Scan.ofSource ("[" ++ .ofList text ++ "]") =
        .ok ⟨⟨.leftBracket, opening⟩ :: tokens, finish⟩ ∧
      readItems ("[" ++ .ofList text ++ "]") opening tokens =
        .ok (items, closing, ⟨[], hshorter⟩) ∧
      sliceBytes ("[" ++ .ofList text ++ "]") opening.stop closing.start = .ofList text ∧
      unplacedAll items = data := by
  apply htext.exists_scan_of_cut
  exact Cut.nil_iff.mpr ⟨by simp, rfl⟩

/-- What is spelled between two brackets is read when the text between them is given alone. -/
theorem ListText.exists_readList (htext : ListText text data) :
    ∃ items place, readList (.ofList text) = .ok (.list items (some (.ofList text)) place) ∧
      unplacedAll items = data := by
  obtain ⟨opening, closing, finish, tokens, items, hshorter, hscan, hread, hslice, hdata⟩ :=
    htext.exists_scan
  have hlist := readList_of_readItems hscan hread
  rw [bracketed, hslice] at hlist
  exact ⟨items, _, hlist, hdata⟩

/-- What is read as a list is spelled by the text up to a bracket that closes it, the one put
behind the text or an earlier one. -/
theorem exists_listText_of_readList {text : String} {datum : Datum}
    (hread : readList text = .ok datum) :
    ∃ inner rest after items place, datum = .list items (some (.ofList inner)) place ∧
      text.toList ++ [']'] = inner ++ ']' :: rest ∧ ListText inner (unplacedAll items) ∧
      Cut ("[" ++ text ++ "]") 0 (['['] ++ inner ++ [']']) rest after := by
  rw [readList] at hread
  obtain ⟨scan, hscan, hread⟩ := exists_ok_of_bind hread
  have hcut := cut_ofSource (ok_of_mapError hscan)
  have hsource : ("[" ++ text ++ "]").toList = '[' :: (text.toList ++ [']']) := by
    simp
  rw [hsource] at hcut
  obtain ⟨tokens, htokens, hinside⟩ := Cut.openCode_iff.mp hcut
  rw [htokens] at hread
  obtain ⟨⟨items, closing, after⟩, hitems, hread⟩ := exists_ok_of_bind hread
  obtain ⟨inner, rest, htext, hinner, rfl, hrest⟩ :=
    spellsItems_of_readItems hinside (ok_of_mapError hitems)
  obtain ⟨place, hlist⟩ := exists_bracketed_eq _ _ items (htext ▸ hinside.source_eq)
  exact ⟨inner, rest, after, items, place, (Except.ok.inj hread).symm.trans hlist, htext, hinner,
    hrest⟩

/-- A text spells no more than one list. -/
theorem ListText.unique {first second : List Datum} (hfirst : ListText text first)
    (hsecond : ListText text second) : first = second := by
  obtain ⟨items, place, hread, rfl⟩ := hfirst.exists_readList
  obtain ⟨others, other, hother, rfl⟩ := hsecond.exists_readList
  rw [hread] at hother
  cases hother
  rfl

/-- What stands behind the first of several texts, with one blank between them. -/
theorem toList_intercalate_cons (first : String) (texts : List String) :
    (" ".intercalate (first :: texts)).toList =
      first.toList ++ if texts.isEmpty then [] else ' ' :: (" ".intercalate texts).toList := by
  cases texts with
  | nil => simp
  | cons second texts =>
    rw [String.intercalate_cons_cons]
    simp

/-- What a text spells is a word or the list of a text. -/
theorem ListText.cases_of_mem {datum : Datum} (htext : ListText text data) (hmem : datum ∈ data) :
    (∃ word, datum = .symbol word ∧ ∀ c ∈ word.toList, endsWord c = false) ∨
      ∃ nested inner, datum = .list inner (some (.ofList nested)) none ∧
        ListText nested inner := by
  induction htext with
  | nil => cases hmem
  | blank hblank hrest ih => exact ih hmem
  | @word c tail text items hfirst htail hnext hrest ih =>
    cases hmem with
    | head =>
      refine .inl ⟨_, rfl, ?_⟩
      rw [String.toList_ofList]
      exact List.forall_mem_cons.mpr ⟨hfirst, htail⟩
    | tail _ hmem => exact ih hmem
  | @list nested text inner items hinner hrest ihInner ih =>
    cases hmem with
    | head => exact .inr ⟨nested, inner, rfl, hinner⟩
    | tail _ hmem => exact ih hmem

/-- The text of a list that is spelled inside another spells that list. -/
theorem ListText.of_mem {data inner : List Datum} {original : Option String} {place : Option Span}
    (htext : ListText text data) (hmem : Datum.list inner original place ∈ data) :
    ∃ nested, original = some (.ofList nested) ∧ ListText nested inner := by
  obtain ⟨word, hword, -⟩ | ⟨nested, others, hlist, hinner⟩ := htext.cases_of_mem hmem
  · cases hword
  · cases hlist
    exact ⟨nested, rfl, hinner⟩

end Logo
