import Logo.Datum.Printer
import Logo.Proofs.ListText

/-!
# Printed lists

A list is printed with one blank between its items, whatever stood there in the text that it was
read from. What is printed is read as a list of the same words and lists, and this list is printed
in the same way.
-/

namespace Logo

namespace Datum

mutual

/-- The words and lists of a datum, without the texts and the places of its lists. -/
def bare : Datum → Datum
  | .list items _ _ => .list (bareAll items) Option.none Option.none
  | datum => datum

def bareAll : List Datum → List Datum
  | [] => []
  | datum :: data => datum.bare :: bareAll data

end

mutual

theorem bare_unplaced : ∀ datum : Datum, datum.unplaced.bare = datum.bare
  | .list items _ _ => by rw [unplaced, bare, bare, bareAll_unplacedAll items]
  | .atom _ | .call _ | .procedure _ => rfl

theorem bareAll_unplacedAll : ∀ data : List Datum, bareAll (unplacedAll data) = bareAll data
  | [] => rfl
  | datum :: data => by
    rw [unplacedAll, bareAll, bareAll, bare_unplaced datum, bareAll_unplacedAll data]

end

mutual

/-- Printing shows nothing but words and lists. -/
theorem display_bare : ∀ datum : Datum, datum.bare.display = datum.display
  | .list items _ _ => by rw [bare, display, display, displays_bareAll items]
  | .atom _ | .call _ | .procedure _ => rfl

theorem displays_bareAll : ∀ data : List Datum, displays (bareAll data) = displays data
  | [] => rfl
  | datum :: data => by
    rw [bareAll, displays, displays, display_bare datum, displays_bareAll data]

end

theorem displays_eq_of_bareAll_eq {data others : List Datum}
    (hbare : bareAll data = bareAll others) : displays data = displays others := by
  rw [← displays_bareAll data, hbare, displays_bareAll]

end Datum

open Datum (bareAll displays unplacedAll)

/-- A blank before it does not change what a text spells. -/
theorem ListText.behind_item {texts : List String} {data : List Datum}
    (htext : ListText (" ".intercalate texts).toList data) :
    ListText (if texts.isEmpty then [] else ' ' :: (" ".intercalate texts).toList) data := by
  cases texts with
  | nil => exact htext
  | cons first texts => exact .blank (by decide) htext

/-- The printed items of a list text spell the same words and lists. -/
theorem ListText.exists_printed {text : List Char} {data : List Datum}
    (htext : ListText text data) :
    ∃ again, ListText (" ".intercalate (displays data)).toList again ∧
      bareAll again = bareAll data := by
  induction htext with
  | nil => exact ⟨[], .nil, rfl⟩
  | blank hblank hrest ih => exact ih
  | @word c tail text items hfirst htail hnext hrest ih =>
    obtain ⟨again, hagain, hbare⟩ := ih
    have hword : (Datum.symbol (.ofList (c :: tail))).display.toList = c :: tail :=
      String.toList_ofList
    rw [displays, toList_intercalate_cons, hword]
    refine ⟨_, .word hfirst htail ?_ hagain.behind_item, ?_⟩
    · intro next hnext
      split at hnext
      · cases hnext
      · cases hnext
        decide
    · rw [bareAll, bareAll, hbare]
  | @list inner text data items hinner hrest ihInner ih =>
    obtain ⟨nested, hnested, hbareNested⟩ := ihInner
    obtain ⟨again, hagain, hbare⟩ := ih
    have hlist : (Datum.list data (some (.ofList inner)) none).display.toList =
        '[' :: ((" ".intercalate (displays data)).toList ++ [']']) := by
      simp [Datum.display]
    rw [displays, toList_intercalate_cons, hlist, List.cons_append, List.append_assoc]
    refine ⟨_, .list hnested hagain.behind_item, ?_⟩
    rw [bareAll, bareAll, Datum.bare, Datum.bare, hbareNested, hbare]

/-- The text is read as a list of the same words and lists, which is printed in the same way. -/
def GivesBack (text : String) (list : Datum) : Prop :=
  ∃ again, readList text = .ok again ∧ again.bare = list.bare ∧ again.printed = list.printed

theorem ListText.givesBack {text : List Char} {data items : List Datum}
    (htext : ListText text data) (hbare : bareAll data = bareAll items) (source : Option String)
    (place : Option Span) : GivesBack (.ofList text) (.list items source place) := by
  obtain ⟨again, span, hread, rfl⟩ := htext.exists_readList
  rw [Datum.bareAll_unplacedAll] at hbare
  refine ⟨_, hread, ?_, ?_⟩
  · rw [Datum.bare, Datum.bare, hbare]
  · rw [Datum.printed, Datum.printed, Datum.displays_eq_of_bareAll_eq hbare]

/-- A list that has been read from a line is read again from the text that it keeps, and from what
is printed of it. -/
theorem lists_read_back_from_text_and_print {text : String} {list : Datum}
    (hread : readList text = .ok list) :
    ∃ items inner place, list = .list items (some inner) place ∧
      GivesBack inner list ∧ GivesBack list.printed list := by
  obtain ⟨inner, rest, after, items, place, rfl, -, hinner, -⟩ := exists_listText_of_readList hread
  refine ⟨items, .ofList inner, place, rfl, ?_, ?_⟩
  · exact hinner.givesBack (Datum.bareAll_unplacedAll items) _ _
  · obtain ⟨again, hagain, hbare⟩ := hinner.exists_printed
    rw [Datum.bareAll_unplacedAll] at hbare
    have hprinted : displays (unplacedAll items) = displays items :=
      Datum.displays_eq_of_bareAll_eq (Datum.bareAll_unplacedAll items)
    rw [hprinted] at hagain
    have hreads := hagain.givesBack hbare (some (.ofList inner)) place
    rwa [String.ofList_toList] at hreads

/-- Brackets next to words, a tab and a list without items. -/
theorem glued_lists_read_back :
    ∃ items place, readList "a[b\t[c]d] []" = .ok (.list items (some "a[b\t[c]d] []") place) ∧
      GivesBack "a[b\t[c]d] []" (.list items (some "a[b\t[c]d] []") place) ∧
      GivesBack "a [b [c] d] []" (.list items (some "a[b\t[c]d] []") place) := by
  have hread : readList "a[b\t[c]d] []" = .ok (.list [.symbol "a",
      .list [.symbol "b", .list [.symbol "c"] (some "c") (some ⟨5, 8, 1, 6⟩), .symbol "d"]
        (some "b\t[c]d") (some ⟨2, 10, 1, 3⟩), .list [] (some "") (some ⟨11, 13, 1, 12⟩)]
      (some "a[b\t[c]d] []") (some ⟨0, 14, 1, 1⟩)) := by
    with_unfolding_all rfl
  obtain ⟨items, inner, place, hlist, hinner, hprinted⟩ :=
    lists_read_back_from_text_and_print hread
  cases hlist
  exact ⟨_, _, hread, hinner, hprinted⟩

end Logo
