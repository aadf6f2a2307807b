import Logo.Proofs.Excerpts
import Logo.Proofs.ListText

/-!
# Brackets in a line

A line is read as a list by putting brackets around it. If no part of the line from its start closes
more brackets than it opens, the line is read to its end or not at all, and it is read if all the
brackets are closed. But the first bracket that closes too much ends the list. Whatever comes behind
it is dropped, unless it has no tokens as code.
-/

namespace Logo

open Datum (unplacedAll)

/-- No part of the text from its start closes more brackets than it opens. -/
def OpensFirst (text : List Char) : Prop :=
  ∀ front, front <+: text → front.count ']' ≤ front.count '['

/-- All brackets are closed, and none before it has been opened. -/
structure Balanced (text : List Char) : Prop where
  opensFirst : OpensFirst text
  closed : text.count '[' = text.count ']'

structure Unclosed (text : List Char) : Prop where
  opensFirst : OpensFirst text
  opened : text.count ']' < text.count '['

theorem OpensFirst.append {first second : List Char} (hfirst : OpensFirst first)
    (hsecond : OpensFirst second) : OpensFirst (first ++ second) := by
  rintro front ⟨back, hfront⟩
  obtain ⟨more, rfl, -⟩ | ⟨more, rfl, rfl⟩ := List.append_eq_append_iff.mp hfront
  · exact hfirst front (List.prefix_append _ _)
  · have hwhole := hfirst first (List.prefix_refl _)
    have hmore := hsecond more (List.prefix_append _ _)
    simp only [List.count_append]
    omega

theorem count_open (text : List Char) :
    ('[' :: text).count '[' = text.count '[' + 1 ∧ ('[' :: text).count ']' = text.count ']' :=
  ⟨List.count_cons_self, List.count_cons_of_ne (by decide)⟩

theorem count_close (text : List Char) :
    (text ++ [']']).count '[' = text.count '[' ∧
      (text ++ [']']).count ']' = text.count ']' + 1 := by
  simp [List.count_append]

variable {text : List Char}

theorem OpensFirst.open (htext : OpensFirst text) : OpensFirst ('[' :: text) := by
  intro front hfront
  obtain rfl | ⟨more, rfl, hmore⟩ := List.prefix_cons_iff.mp hfront
  · exact Nat.le_refl _
  · have hcounts := count_open more
    have hopens := htext more hmore
    omega

theorem Unclosed.open (htext : Unclosed text) : Unclosed ('[' :: text) := by
  refine ⟨htext.opensFirst.open, ?_⟩
  have hcounts := count_open text
  have hopened := htext.opened
  omega

namespace Balanced

variable {first second text : List Char}

theorem of_plain (htext : ∀ c ∈ text, c ≠ '[' ∧ c ≠ ']') : Balanced text := by
  have hnone : ∀ front, front <+: text → front.count ']' = 0 ∧ front.count '[' = 0 := by
    intro front hfront
    constructor
    · exact List.count_eq_zero.mpr fun hmem => (htext _ (hfront.subset hmem)).2 rfl
    · exact List.count_eq_zero.mpr fun hmem => (htext _ (hfront.subset hmem)).1 rfl
  constructor
  · intro front hfront
    rw [(hnone front hfront).1]
    exact Nat.zero_le _
  · rw [(hnone text (List.prefix_refl _)).1, (hnone text (List.prefix_refl _)).2]

theorem append (hfirst : Balanced first) (hsecond : Balanced second) :
    Balanced (first ++ second) := by
  refine ⟨hfirst.opensFirst.append hsecond.opensFirst, ?_⟩
  rw [List.count_append, List.count_append, hfirst.closed, hsecond.closed]

theorem unclosed (htext : Balanced text) : Unclosed ('[' :: text) := by
  refine ⟨htext.opensFirst.open, ?_⟩
  have hcounts := count_open text
  have hclosed := htext.closed
  omega

theorem enclose (htext : Balanced text) : Balanced ('[' :: text ++ [']']) := by
  have hopen := count_open text
  have hclose := count_close ('[' :: text)
  have hclosed := htext.closed
  constructor
  · intro front hfront
    obtain rfl | hfront := List.prefix_concat_iff.mp hfront
    · omega
    · exact htext.opensFirst.open front hfront
  · omega

theorem append_unclosed (hfirst : Balanced first) (hsecond : Unclosed second) :
    Unclosed (first ++ second) := by
  refine ⟨hfirst.opensFirst.append hsecond.opensFirst, ?_⟩
  rw [List.count_append, List.count_append, hfirst.closed]
  exact Nat.add_lt_add_left hsecond.opened _

/-- A bracket behind balanced ones closes too much. -/
theorem not_opensFirst {rest : List Char} (htext : Balanced text) :
    ¬ OpensFirst (text ++ ']' :: rest) := by
  intro hopens
  have hfront := hopens (text ++ [']']) ⟨rest, by simp⟩
  have hcounts := count_close text
  have hclosed := htext.closed
  omega

/-- The first bracket that closes too much is in one place only. -/
theorem eq_of_append_eq {rest other : List Char} (hfirst : Balanced first)
    (hsecond : Balanced second) (hsame : first ++ ']' :: rest = second ++ ']' :: other) :
    first = second := by
  obtain ⟨more, rfl, hmore⟩ | ⟨more, rfl, hmore⟩ := List.append_eq_append_iff.mp hsame
  · cases more with
    | nil => rw [List.append_nil]
    | cons c more =>
      cases hmore
      exact absurd hsecond.opensFirst hfirst.not_opensFirst
  · cases more with
    | nil => rw [List.append_nil]
    | cons c more =>
      cases hmore
      exact absurd hfirst.opensFirst hsecond.not_opensFirst

end Balanced

/-! ## Texts of lists -/

theorem Balanced.blank {c : Char} (hblank : Text.isBlank c = true) : Balanced [c] :=
  .of_plain (List.forall_mem_singleton.mpr (ne_bracket_of_isBlank hblank))

theorem Balanced.word (htext : ∀ c ∈ text, endsWord c = false) : Balanced text :=
  .of_plain fun c hc => (not_isBlank_of_endsWord (htext c hc)).2

theorem ListText.balanced {data : List Datum} (htext : ListText text data) : Balanced text := by
  induction htext with
  | nil => exact .word (by simp)
  | blank hblank hrest ih => exact (Balanced.blank hblank).append ih
  | word hfirst htail hnext hrest ih =>
    exact (Balanced.word (List.forall_mem_cons.mpr ⟨hfirst, htail⟩)).append ih
  | list hinner hrest ihInner ih =>
    have hwhole := ihInner.enclose.append ih
    rwa [List.append_assoc] at hwhole

/-- How far a text goes as the text of a list: to its end, to a bracket that closes too much, or not
even to the end of a list in it. -/
inductive Extent (text : List Char) : Prop where
  | whole {data : List Datum} (htext : ListText text data)
  | surplus {inner rest : List Char} {data : List Datum} (htext : text = inner ++ ']' :: rest)
      (hinner : ListText inner data)
  | unclosed (htext : Unclosed text)

namespace Extent

variable {c : Char} {text : List Char}

theorem blank (hblank : Text.isBlank c = true) (hrest : Extent text) : Extent (c :: text) := by
  cases hrest with
  | whole htext => exact .whole (.blank hblank htext)
  | surplus htext hinner => exact .surplus (congrArg (c :: ·) htext) (.blank hblank hinner)
  | unclosed htext =>
    exact .unclosed ((Balanced.blank hblank).append_unclosed htext)

theorem word {tail : List Char} (hfirst : endsWord c = false)
    (htail : ∀ other ∈ tail, endsWord other = false)
    (hnext : ∀ other ∈ text.head?, endsWord other = true) (hrest : Extent text) :
    Extent (c :: (tail ++ text)) := by
  cases hrest with
  | whole htext => exact .whole (.word hfirst htail hnext htext)
  | @surplus inner rest data htext hinner =>
    subst htext
    have hsplit : c :: (tail ++ (inner ++ ']' :: rest)) =
        c :: (tail ++ inner) ++ ']' :: rest := by
      simp
    refine .surplus hsplit (.word hfirst htail ?_ hinner)
    intro other hother
    exact hnext other (List.mem_head?_append_of_mem_head? hother)
  | unclosed htext =>
    have hfront := Balanced.word (List.forall_mem_cons.mpr ⟨hfirst, htail⟩)
    exact .unclosed (hfront.append_unclosed htext)

theorem list {inner : List Char} {data : List Datum} (hinner : ListText inner data)
    (hrest : Extent text) : Extent ('[' :: (inner ++ ']' :: text)) := by
  cases hrest with
  | whole htext => exact .whole (.list hinner htext)
  | @surplus outer rest data htext houter =>
    subst htext
    have hsplit : '[' :: (inner ++ ']' :: (outer ++ ']' :: rest)) =
        '[' :: (inner ++ ']' :: outer) ++ ']' :: rest := by
      simp
    exact .surplus hsplit (.list hinner houter)
  | unclosed htext =>
    have hwhole := hinner.balanced.enclose.append_unclosed htext
    rw [List.append_assoc] at hwhole
    exact .unclosed hwhole

end Extent

/-- Every text has an extent. -/
theorem extent (text : List Char) : Extent text := by
  -- What comes behind a list in the text is shorter than the text, but no tail of it in one step.
  induction hlength : text.length using Nat.strongRecOn generalizing text with
  | ind length ih =>
    subst hlength
    cases text with
    | nil => exact .whole .nil
    | cons c text =>
      by_cases hblank : Text.isBlank c = true
      · exact .blank hblank (ih text.length (Nat.lt_succ_self _) text rfl)
      by_cases hopen : c = '['
      · subst hopen
        cases ih text.length (Nat.lt_succ_self _) text rfl with
        | whole htext => exact .unclosed htext.balanced.unclosed
        | @surplus inner rest data htext hinner =>
          subst htext
          refine .list hinner (ih rest.length ?_ rest rfl)
          simp only [List.length_append, List.length_cons]
          omega
        | unclosed htext => exact .unclosed htext.open
      by_cases hclose : c = ']'
      · subst hclose
        exact .surplus rfl .nil
      · have hword : endsWord c = false := by simp [endsWord, hblank, hopen, hclose]
        obtain ⟨tail, rest, rfl, htail, hnext⟩ := exists_word_append text
        refine .word hword htail hnext (ih rest.length ?_ rest rfl)
        simp only [List.length_append, List.length_cons]
        omega

theorem Balanced.exists_listText (htext : Balanced text) : ∃ data, ListText text data := by
  cases extent text with
  | whole hspelled => exact ⟨_, hspelled⟩
  | surplus hsurplus hinner =>
    subst hsurplus
    exact absurd htext.opensFirst hinner.balanced.not_opensFirst
  | unclosed hunclosed =>
    have hopened := hunclosed.opened
    rw [htext.closed] at hopened
    exact absurd hopened (Nat.lt_irrefl _)

/-! ## Lines that are read as lists -/

/-- Whether the rest of a text has tokens as code does not depend on what stands before it. -/
theorem exists_cut_iff {source : String} {before text : List Char}
    (hsource : source.toList = before ++ text) :
    (∃ tokens, Cut source 0 before text tokens) ↔
      ∃ scan, Scan.ofSource (.ofList text) = .ok scan := by
  have hoffset : (Position.behind before).offset = byteLength before + Position.origin.offset := by
    rw [Position.offset_behind]
    rfl
  rw [Scan.ofSource, String.toList_ofList]
  constructor
  · rintro ⟨tokens, -, finish, hscan⟩
    obtain ⟨scan, hscan, -⟩ := (scanFrom_shifted 0 text hoffset).exists_ok hscan
    exact ⟨scan, hscan⟩
  · rintro ⟨scan, hscan⟩
    obtain ⟨moved, hmoved, -⟩ := (scanFrom_shifted 0 text hoffset).symm.exists_ok hscan
    exact ⟨moved.tokens, hsource, moved.finish, hmoved⟩

/-- A line is read to its end, or up to a bracket in it. -/
theorem cases_of_readList {text : String} {list : Datum} (hread : readList text = .ok list) :
    ∃ inner items place, list = .list items (some (.ofList inner)) place ∧
      ListText inner (unplacedAll items) ∧
      (text.toList = inner ∨ ∃ rest, text.toList = inner ++ ']' :: rest) := by
  obtain ⟨inner, rest, after, items, place, hlist, hsplit, hinner, -⟩ :=
    exists_listText_of_readList hread
  refine ⟨inner, items, place, hlist, hinner, ?_⟩
  obtain rfl | ⟨more, last, rfl⟩ := rest.eq_nil_or_concat
  · exact .inl (List.append_inj_left' hsplit rfl)
  · rw [List.concat_eq_append, ← List.cons_append, ← List.append_assoc] at hsplit
    exact .inr ⟨more, List.append_inj_left' hsplit rfl⟩

/-- What is read behind the bracket that closes the list is dropped, but it has to be code. -/
theorem exists_readList_of_surplus {text : String} {inner rest : List Char} {data : List Datum}
    (htext : text.toList = inner ++ ']' :: rest) (hinner : ListText inner data) :
    (∃ list, readList text = .ok list) ↔
      ∃ scan, Scan.ofSource (.ofList (rest ++ [']'])) = .ok scan := by
  have hsource : ("[" ++ text ++ "]").toList =
      ['['] ++ inner ++ [']'] ++ (rest ++ [']']) := by
    simp [htext]
  rw [← exists_cut_iff hsource]
  constructor
  · rintro ⟨list, hread⟩
    obtain ⟨front, behind, after, items, place, rfl, hsplit, hfront, hcut⟩ :=
      exists_listText_of_readList hread
    rw [htext, List.append_assoc, List.cons_append] at hsplit
    obtain rfl := hinner.balanced.eq_of_append_eq hfront.balanced hsplit
    obtain rfl : rest ++ [']'] = behind := (List.cons.inj (List.append_cancel_left hsplit)).2
    exact ⟨after, hcut⟩
  · rintro ⟨tokens, hcut⟩
    obtain ⟨opening, closing, finish, others, items, hshorter, hscan, hread, -, -⟩ :=
      hinner.exists_scan_of_cut hcut
    exact ⟨_, readList_of_readItems hscan hread⟩

/-- A line in which no bracket closes too much is read to its end if it is balanced, and otherwise
not at all. Another line is read up to the first bracket that closes too much, if what comes behind
it has tokens as code. -/
theorem readList_ends_at_surplus_bracket (text : String) :
    (OpensFirst text.toList →
      ((∃ list, readList text = .ok list) ↔ Balanced text.toList) ∧
      ∀ list, readList text = .ok list → ∃ items place, list = .list items (some text) place) ∧
    (¬ OpensFirst text.toList →
      ∃ inner rest, text.toList = inner ++ ']' :: rest ∧ Balanced inner ∧
        ((∃ list, readList text = .ok list) ↔
          ∃ scan, Scan.ofSource (.ofList (rest ++ [']'])) = .ok scan) ∧
        ∀ list, readList text = .ok list →
          (∃ items place, list = .list items (some (.ofList inner)) place) ∧
          ∃ alone, readList (.ofList inner) = .ok alone ∧ alone.unplaced = list.unplaced) := by
  constructor
  · intro hopens
    have hwhole : ∀ list, readList text = .ok list → Balanced text.toList ∧
        ∃ items place, list = .list items (some text) place := by
      intro list hread
      obtain ⟨inner, items, place, rfl, hinner, rfl | ⟨rest, hsurplus⟩⟩ := cases_of_readList hread
      · exact ⟨hinner.balanced, items, place, by rw [String.ofList_toList]⟩
      · rw [hsurplus] at hopens
        exact absurd hopens hinner.balanced.not_opensFirst
    refine ⟨⟨fun hexists => ?_, fun hbalanced => ?_⟩, fun list hread => (hwhole list hread).2⟩
    · obtain ⟨list, hread⟩ := hexists
      exact (hwhole list hread).1
    · obtain ⟨data, hspelled⟩ := hbalanced.exists_listText
      obtain ⟨items, place, hread, -⟩ := hspelled.exists_readList
      rw [String.ofList_toList] at hread
      exact ⟨_, hread⟩
  · intro hopens
    cases extent text.toList with
    | whole hspelled => exact absurd hspelled.balanced.opensFirst hopens
    | unclosed hunclosed => exact absurd hunclosed.opensFirst hopens
    | @surplus inner rest data htext hinner =>
      refine ⟨inner, rest, htext, hinner.balanced, exists_readList_of_surplus htext hinner, ?_⟩
      intro list hread
      obtain ⟨front, items, place, rfl, hfront, rfl | ⟨behind, hsurplus⟩⟩ :=
        cases_of_readList hread
      · exact absurd hfront.balanced.opensFirst hopens
      · obtain rfl := hinner.balanced.eq_of_append_eq hfront.balanced (htext.symm.trans hsurplus)
        obtain ⟨others, span, halone, hsame⟩ := hfront.exists_readList
        refine ⟨⟨items, place, rfl⟩, _, halone, ?_⟩
        rw [Datum.unplaced, Datum.unplaced, hsame]

/-- What comes behind the bracket is lost. -/
theorem word_behind_surplus_bracket_is_dropped :
    ¬ Balanced "a ] b".toList ∧
      readList "a ] b" = .ok (.list [.symbol "a"] (some "a ") (some ⟨0, 4, 1, 1⟩)) := by
  constructor
  · intro hbalanced
    exact absurd hbalanced.closed (by decide)
  · with_unfolding_all rfl

end Logo
