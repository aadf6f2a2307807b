import Logo.Proofs.TextLines

/-!
# Carets below faulty lines

A report shows the lines at most two away from the faulty one, in their order and each once, behind
their numbers. An arrow marks the faulty line, and the caret in the row below is under the column of
the fault as long as the line's number has no more than four digits. Longer numbers move the line to
the right, but not the caret.
-/

namespace Logo

/-! ## Lines of a source -/

namespace Text

theorem newline_not_mem_splitLines (text : List Char) : ∀ line ∈ splitLines text, '\n' ∉ line := by
  fun_induction splitLines text with
  | case1 => simp
  | case2 rest ih => simpa using ih
  | case3 c rest hc hnone ih => simpa using Ne.symm hc
  | case4 c rest hc line lines hrest ih =>
    rw [hrest, List.forall_mem_cons] at ih
    rw [List.forall_mem_cons, List.mem_cons, not_or]
    exact ⟨⟨Ne.symm hc, ih.1⟩, ih.2⟩

theorem dropReturn_subset (line : List Char) : dropReturn line ⊆ line := by
  rw [dropReturn]
  split
  · rename_i shorter hline
    intro c hc
    rw [← List.mem_reverse, hline]
    exact List.mem_cons_of_mem _ (List.mem_reverse.mp hc)
  · exact List.Subset.refl line

theorem newline_not_mem_closeLines {lines : List (List Char)}
    (hlines : ∀ line ∈ lines, '\n' ∉ line) :
    ∀ line ∈ closeLines lines, '\n' ∉ line := by
  fun_induction closeLines lines with
  | case1 => simp
  | case2 last hempty => simp
  | case3 last hempty => exact hlines
  | case4 line lines hmore ih =>
    obtain ⟨hline, hlines⟩ := List.forall_mem_cons.mp hlines
    exact List.forall_mem_cons.mpr ⟨fun hmem => hline (dropReturn_subset line hmem), ih hlines⟩

theorem newline_not_mem_lines (source : String) : ∀ line ∈ lines source, '\n' ∉ line.toList := by
  have hclosed := newline_not_mem_closeLines (newline_not_mem_splitLines source.toList)
  simpa [lines] using hclosed

theorem lines_behind_newlines (count : Nat) :
    lines (.ofList (List.replicate count '\n' ++ ['!', '\n'])) =
      List.replicate count "" ++ ["!"] := by
  have hlines : splitLines (List.replicate count '\n' ++ ['!', '\n']) =
        List.replicate count [] ++ [['!'], []] ∧
      closeLines (List.replicate count [] ++ [['!'], []]) = List.replicate count [] ++ [['!']] := by
    induction count with
    | zero => exact ⟨rfl, rfl⟩
    | succ count ih =>
      simp only [List.replicate_succ, List.cons_append]
      rw [splitLines, if_pos rfl, ih.1, closeLines, ih.2]
      · exact ⟨rfl, rfl⟩
      · simp
  simp [lines, hlines]

end Text

namespace Diagnostic

/-- The lines of a source with their numbers, which begin with one. -/
def numbered (source : String) : List (Nat × String) :=
  (Text.lines source).zipIdx.map fun line => (line.2 + 1, line.1)

def nearby (line : Nat) (source : String) : List (Nat × String) :=
  (numbered source).filter fun other => other.1 ≤ line + 2 ∧ line ≤ other.1 + 2

variable {source : String} {line column : Nat} {above below : List (Nat × String)}

theorem pairwise_numbered (source : String) : (numbered source).Pairwise (·.1 < ·.1) := by
  rw [List.pairwise_iff_getElem]
  intro i j hi hj hij
  simpa [numbered] using hij

theorem window_eq (hline : 1 ≤ line) : window line source = nearby line source := by
  have hwindow : window line source =
      ((numbered source).take (line - 1 + 3)).drop (line - 1 - 2) := rfl
  have hfront : (numbered source).take (line - 1 - 2) ++ window line source =
      (numbered source).take (line - 1 + 3) := by
    have hshorter : ((numbered source).take (line - 1 + 3)).take (line - 1 - 2) =
        (numbered source).take (line - 1 - 2) := by
      rw [List.take_take, Nat.min_eq_left (by omega)]
    rw [hwindow, ← hshorter, List.take_append_drop]
  have hbefore : ∀ other ∈ (numbered source).take (line - 1 - 2),
      ¬ (other.1 ≤ line + 2 ∧ line ≤ other.1 + 2) := by
    intro other hother
    obtain ⟨i, hi, rfl⟩ := List.mem_take_iff_getElem.mp hother
    simp only [numbered, List.getElem_map, List.getElem_zipIdx]
    omega
  have hinside : ∀ other ∈ window line source, other.1 ≤ line + 2 ∧ line ≤ other.1 + 2 := by
    intro other hother
    rw [hwindow] at hother
    obtain ⟨i, hi, rfl⟩ := List.mem_drop_iff_getElem.mp hother
    simp only [numbered, List.getElem_take, List.getElem_map, List.getElem_zipIdx]
    rw [List.length_take] at hi
    omega
  have hbehind : ∀ other ∈ (numbered source).drop (line - 1 + 3),
      ¬ (other.1 ≤ line + 2 ∧ line ≤ other.1 + 2) := by
    intro other hother
    obtain ⟨i, hi, rfl⟩ := List.mem_drop_iff_getElem.mp hother
    simp only [numbered, List.getElem_map, List.getElem_zipIdx]
    omega
  rw [nearby, ← List.take_append_drop (line - 1 + 3) (numbered source), ← hfront,
    List.filter_append, List.filter_append, List.filter_eq_nil_iff.mpr (by simpa using hbefore),
    List.filter_eq_self.mpr (by simpa using hinside),
    List.filter_eq_nil_iff.mpr (by simpa using hbehind), List.nil_append, List.append_nil]

/-- A line that exists is among those near it. -/
theorem exists_nearby_eq (hline : 1 ≤ line) (hlast : line ≤ (Text.lines source).length) :
    ∃ above content below, nearby line source = above ++ (line, content) :: below := by
  have hlength : line - 1 < (Text.lines source).length := by omega
  have hmem : (line, (Text.lines source)[line - 1]) ∈ numbered source := by
    refine List.mem_map.mpr ⟨((Text.lines source)[line - 1], line - 1), ?_, ?_⟩
    · rw [List.mk_mem_zipIdx_iff_getElem?, List.getElem?_eq_getElem hlength]
    · rw [Nat.sub_add_cancel hline]
  have hnear : (line, (Text.lines source)[line - 1]) ∈ nearby line source :=
    List.mem_filter.mpr ⟨hmem, by simp⟩
  obtain ⟨above, below, hsplit⟩ := List.append_of_mem hnear
  exact ⟨above, _, below, hsplit⟩

variable {content : String}

/-- The numbers before that of a line are smaller, and those behind it are greater. -/
theorem numbers_of_nearby_eq (hsplit : nearby line source = above ++ (line, content) :: below) :
    (∀ other ∈ above, other.1 < line) ∧ ∀ other ∈ below, line < other.1 := by
  have hpairwise : (nearby line source).Pairwise (·.1 < ·.1) :=
    (pairwise_numbered source).filter _
  rw [hsplit, List.pairwise_append, List.pairwise_cons] at hpairwise
  obtain ⟨-, ⟨hbelow, -⟩, habove⟩ := hpairwise
  exact ⟨fun other hother => habove other hother _ List.mem_cons_self, hbelow⟩

/-! ## Rows -/

def row (mark : String) (line : Nat × String) : String :=
  mark ++ lineNumber line.1 ++ " | " ++ line.2

def pointer (column : Nat) : String :=
  "        | " ++ "".pushn ' ' (column - 1) ++ "^"

theorem toList_pushn (c : Char) (count : Nat) :
    ("".pushn c count).toList = List.replicate count c := by
  rw [String.pushn_eq_repeat_push]
  induction count with
  | zero => rfl
  | succ count ih => rw [Nat.repeat, String.toList_push, ih, List.replicate_succ']

theorem length_lineNumber (n : Nat) : (lineNumber n).length = max 4 (toString n).length := by
  rw [lineNumber, String.length_append, String.length_pushn, String.length_empty]
  omega

theorem newline_not_mem_toDigits (n : Nat) : '\n' ∉ Nat.toDigits 10 n := by
  intro hmem
  exact absurd (Nat.isDigit_of_mem_toDigits (by decide) (by decide) hmem) (by decide)

theorem newline_not_mem_row {mark : String} {line : Nat × String} (hmark : '\n' ∉ mark.toList)
    (hline : '\n' ∉ line.2.toList) : '\n' ∉ (row mark line).toList := by
  simp [row, lineNumber, toList_pushn, hmark, hline, newline_not_mem_toDigits]

theorem newline_not_mem_pointer (column : Nat) : '\n' ∉ (pointer column).toList := by
  simp [pointer, toList_pushn]

/-- The excerpt is made of the rows of the lines and the one with the caret. -/
theorem excerpt_eq {content : String} (hline : 1 ≤ line) (hcolumn : 1 ≤ column)
    (hsplit : nearby line source = above ++ (line, content) :: below) :
    excerpt line column source = String.join ((above.map (row "   ") ++
      row " → " (line, content) :: pointer column :: below.map (row "   ")).map (· ++ "\n")) := by
  obtain ⟨habove, hbelow⟩ := numbers_of_nearby_eq hsplit
  have hothers : ∀ others : List (Nat × String), (∀ other ∈ others, other.1 ≠ line) →
      others.map (fun other => excerptLine line column other.1 other.2) =
        (others.map (row "   ")).map (· ++ "\n") := by
    intro others hnumbers
    rw [List.map_map]
    refine List.map_congr_left fun other hother => ?_
    rw [excerptLine, if_neg (hnumbers other hother)]
    rfl
  have hmarked : excerptLine line column line content =
      row " → " (line, content) ++ "\n" ++ (pointer column ++ "\n") := by
    rw [excerptLine, if_pos rfl, if_pos (show 0 < column from hcolumn), row, pointer]
    simp only [String.append_assoc]
    rfl
  have hexcerpt : excerpt line column source =
      String.join ((nearby line source).map fun other =>
        excerptLine line column other.1 other.2) := by
    rw [excerpt, window_eq hline, Nat.sub_add_cancel hline]
  rw [hexcerpt, hsplit, List.map_append, List.map_cons,
    hothers above fun other hother => Nat.ne_of_lt (habove other hother),
    hothers below fun other hother => Nat.ne_of_gt (hbelow other hother), hmarked]
  simp [String.append_assoc]

theorem newline_not_mem_nearby (line : Nat) (source : String) :
    ∀ other ∈ nearby line source, '\n' ∉ other.2.toList := by
  intro other hother
  obtain ⟨⟨content, index⟩, hmem, rfl⟩ := List.mem_map.mp (List.mem_filter.mp hother).1
  exact Text.newline_not_mem_lines source content (List.fst_mem_of_mem_zipIdx hmem)

/-- No row falls into several lines. -/
theorem inLines_excerpt (hline : 1 ≤ line) (hcolumn : 1 ≤ column)
    (hsplit : nearby line source = above ++ (line, content) :: below) :
    Text.InLines (excerpt line column source) (above.map (row "   ") ++
      row " → " (line, content) :: pointer column :: below.map (row "   ")) "" := by
  have hfree := newline_not_mem_nearby line source
  rw [hsplit, List.forall_mem_append, List.forall_mem_cons] at hfree
  obtain ⟨habove, hcontent, hbelow⟩ := hfree
  refine ⟨by rw [excerpt_eq hline hcolumn hsplit, String.append_empty], ?_, by simp⟩
  rw [List.forall_mem_append, List.forall_mem_cons, List.forall_mem_cons, List.forall_mem_map,
    List.forall_mem_map]
  exact ⟨fun other hother => newline_not_mem_row (by simp) (habove other hother),
    newline_not_mem_row (by simp) hcontent, newline_not_mem_pointer column,
    fun other hother => newline_not_mem_row (by simp) (hbelow other hother)⟩

theorem detailedAt_eq (heading message source : String) (hcolumn : 1 ≤ column) :
    detailedAt heading message line column source =
      "\n" ++ summary.located heading message line column ++ "\n\n" ++
        excerpt line column source := by
  rw [detailedAt, summary.located, if_pos (show 0 < column from hcolumn)]
  simp only [String.append_assoc]

/-- Behind its first line, a report with a place has nothing but the excerpt. -/
theorem detailed_eq {diagnostic : Diagnostic} (source : String)
    (hplace : diagnostic.place? = some (line, column)) (hcolumn : 1 ≤ column) :
    diagnostic.detailed source =
      "\n" ++ diagnostic.summary ++ "\n\n" ++ excerpt line column source := by
  cases diagnostic with
  | lexical message _ _ | parse message _ _ =>
    cases hplace
    exact detailedAt_eq _ message source hcolumn
  | runtime => cases hplace

/-- A report shows the lines near the fault, in order and each once, and marks only the faulty one.
The caret in the row below is under the column of the fault, unless the number of the line has more
than four digits: each digit more moves the line, but not the caret, one place to the right. -/
theorem caret_is_under_column_up_to_four_digits {diagnostic : Diagnostic} (source : String)
    (hplace : diagnostic.place? = some (line, column)) (hcolumn : 1 ≤ column) (hline : 1 ≤ line)
    (hlast : line ≤ (Text.lines source).length) :
    ∃ text above content below gutter blanks,
      diagnostic.detailed source = "\n" ++ diagnostic.summary ++ "\n\n" ++ text ∧
      nearby line source = above ++ (line, content) :: below ∧
      Text.InLines text (above.map (row "   ") ++
        (gutter ++ content) :: (blanks ++ "^") :: below.map (row "   ")) "" ∧
      gutter ++ content = row " → " (line, content) ∧
      blanks.length + ((toString line).length - 4) = gutter.length + (column - 1) ∧
      (blanks.length = gutter.length + (column - 1) ↔ line < 10000) := by
  obtain ⟨above, content, below, hsplit⟩ := exists_nearby_eq hline hlast
  have hblanks : ("        | " ++ "".pushn ' ' (column - 1)).length = 10 + (column - 1) := by
    rw [String.length_append, String.length_pushn, String.length_empty, Nat.zero_add]
    rfl
  have hgutter : (" → " ++ lineNumber line ++ " | ").length = 6 + max 4 (toString line).length := by
    have hmark : " → ".length = 3 ∧ " | ".length = 3 := by decide
    rw [String.length_append, String.length_append, length_lineNumber, hmark.1, hmark.2]
    omega
  have hdigits : (toString line).length ≤ 4 ↔ line < 10 ^ 4 := by
    rw [Nat.toString_eq_repr]
    exact Nat.length_repr_le_iff (by decide)
  refine ⟨_, above, content, below, " → " ++ lineNumber line ++ " | ", _,
    detailed_eq source hplace hcolumn, hsplit, inLines_excerpt hline hcolumn hsplit, rfl, ?_⟩
  rw [hblanks, hgutter]
  omega

/-- A fault in the third of six lines, the last of which is too far away to be shown. -/
theorem caret_under_column_of_third_line :
    (parse "Expected ')'" 3 7).place? = some (3, 7) ∧
      3 ≤ (Text.lines "a\nb\nprint (1\r\nc\nd\ne").length ∧
      ∃ text above content below gutter blanks,
        (parse "Expected ')'" 3 7).detailed "a\nb\nprint (1\r\nc\nd\ne" =
          "\nParse error at line 3, column 7: Expected ')'\n\n" ++ text ∧
        [(1, "a"), (2, "b"), (3, "print (1"), (4, "c"), (5, "d")] =
          above ++ (3, content) :: below ∧
        Text.InLines text (above.map (row "   ") ++
          (gutter ++ content) :: (blanks ++ "^") :: below.map (row "   ")) "" ∧
        blanks.length = gutter.length + 6 := by
  have hlast : 3 ≤ (Text.lines "a\nb\nprint (1\r\nc\nd\ne").length := by decide +kernel
  have hnearby : nearby 3 "a\nb\nprint (1\r\nc\nd\ne" =
      [(1, "a"), (2, "b"), (3, "print (1"), (4, "c"), (5, "d")] := by
    decide +kernel
  obtain ⟨text, above, content, below, gutter, blanks, htext, hsplit, hrows, -, -, hcaret⟩ :=
    caret_is_under_column_up_to_four_digits "a\nb\nprint (1\r\nc\nd\ne"
      (show (parse "Expected ')'" 3 7).place? = some (3, 7) from rfl) (by decide) (by decide) hlast
  exact ⟨rfl, hlast, text, above, content, below, gutter, blanks, htext, hnearby ▸ hsplit, hrows,
    hcaret.mpr (by decide)⟩

theorem nearby_behind_newlines (count : Nat) :
    ∃ above, nearby (count + 1) (.ofList (List.replicate count '\n' ++ ['!', '\n'])) =
      above ++ [(count + 1, "!")] := by
  rw [nearby, numbered, Text.lines_behind_newlines, List.zipIdx_append, List.map_append,
    List.filter_append]
  refine ⟨_, congrArg _ ?_⟩
  simp
  omega

/-- A stray mark in line 10000: the caret is not below it. -/
theorem caret_is_beside_column_in_line_10000 :
    ∃ front, (lexical "Unexpected character: '!'" 10000 1).detailed
        (.ofList (List.replicate 9999 '\n' ++ ['!', '\n'])) =
      front ++ " → 10000 | !\n        | ^\n" ∧
      " → 10000 | !\n".toList[11]? = some '!' ∧ "        | ^\n".toList[10]? = some '^' := by
  obtain ⟨above, hsplit⟩ := nearby_behind_newlines 9999
  have hexcerpt : excerpt 10000 1 _ = _ := excerpt_eq (by decide) (by decide) hsplit
  have hrows : row " → " (10000, "!") ++ "\n" ++ (pointer 1 ++ "\n") =
      " → 10000 | !\n        | ^\n" := by
    decide +kernel
  refine ⟨"\n" ++ summary (lexical "Unexpected character: '!'" 10000 1) ++ "\n\n" ++
    String.join ((above.map (row "   ")).map (· ++ "\n")), ?_, by decide, by decide⟩
  rw [detailed_eq _ rfl (by decide), hexcerpt, List.map_append, String.join_append, ← hrows]
  simp [String.append_assoc]

end Diagnostic

end Logo
