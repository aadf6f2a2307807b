import Logo.CommandLine

/-!
# Lines of a text

Newlines cut a text in one way only: into the lines that they close and a tail that none closes. A
recorder holds these parts of all that was written to it, so that it does not matter how the text
was divided among the writes, and a report may as well write all of it at the end.
-/

namespace Logo

namespace Text

/-- The lines of a text that newlines close, and what comes behind the last newline. -/
structure InLines (text : String) (closed : List String) (tail : String) : Prop where
  text_eq : text = String.join (closed.map (· ++ "\n")) ++ tail
  closed_free : ∀ line ∈ closed, '\n' ∉ line.toList
  tail_free : '\n' ∉ tail.toList

def rows (text : String) : List String :=
  (splitLines text.toList).map String.ofList

variable {text more tail rest : String} {closed others : List String}

/-! ## One line after another -/

theorem splitLines_of_free {line : List Char} (hline : '\n' ∉ line) : splitLines line = [line] := by
  induction line with
  | nil => rfl
  | cons c line ih =>
    rw [List.mem_cons, not_or] at hline
    rw [splitLines, if_neg (Ne.symm hline.1), ih hline.2]

theorem splitLines_append_newline {line : List Char} (behind : List Char) (hline : '\n' ∉ line) :
    splitLines (line ++ '\n' :: behind) = line :: splitLines behind := by
  induction line with
  | nil => rw [List.nil_append, splitLines, if_pos rfl]
  | cons c line ih =>
    rw [List.mem_cons, not_or] at hline
    rw [List.cons_append, splitLines, if_neg (Ne.symm hline.1), ih hline.2]

namespace InLines

theorem of_free (htail : '\n' ∉ tail.toList) : InLines tail [] tail where
  text_eq := by simp
  closed_free := by simp
  tail_free := htail

theorem cons {line : String} (hline : '\n' ∉ line.toList) (htext : InLines text closed tail) :
    InLines (line ++ "\n" ++ text) (line :: closed) tail where
  text_eq := by simp [htext.text_eq, String.append_assoc]
  closed_free := List.forall_mem_cons.mpr ⟨hline, htext.closed_free⟩
  tail_free := htext.tail_free

/-- What is written behind a text goes on with the text's tail. -/
theorem append (htext : InLines text closed tail) (hmore : InLines (tail ++ more) others rest) :
    InLines (text ++ more) (closed ++ others) rest where
  text_eq := by
    have hlines := hmore.text_eq
    rw [htext.text_eq, String.append_assoc, hlines, List.map_append, String.join_append,
      String.append_assoc]
  closed_free := List.forall_mem_append.mpr ⟨htext.closed_free, hmore.closed_free⟩
  tail_free := hmore.tail_free

/-- The rows are the closed lines and what is behind them. -/
theorem rows_eq (htext : InLines text closed tail) : rows text = closed ++ [tail] := by
  obtain ⟨rfl, hclosed, htail⟩ := htext
  induction closed with
  | nil => simp [rows, splitLines_of_free htail]
  | cons line closed ih =>
    obtain ⟨hline, hclosed⟩ := List.forall_mem_cons.mp hclosed
    have hsplit := splitLines_append_newline
      (String.join (closed.map (· ++ "\n")) ++ tail).toList hline
    have htext : (String.join ((line :: closed).map (· ++ "\n")) ++ tail).toList =
        line.toList ++ '\n' :: (String.join (closed.map (· ++ "\n")) ++ tail).toList := by
      simp
    rw [rows, htext, hsplit, List.map_cons, String.ofList_toList, List.cons_append, ← ih hclosed,
      rows]

/-- There is one way only to cut a text at its newlines. -/
theorem unique (htext : InLines text closed tail) (hother : InLines text others rest) :
    closed = others ∧ tail = rest := by
  have hrows := htext.rows_eq.symm.trans hother.rows_eq
  exact ⟨List.append_inj_left' hrows rfl, List.singleton_inj.mp (List.append_inj_right' hrows rfl)⟩

end InLines

/-- Lines that are put together with newlines between them are the parts of the whole. -/
theorem inLines_intercalate {lines : List String} {last : String}
    (hlines : ∀ line ∈ lines, '\n' ∉ line.toList) (hlast : '\n' ∉ last.toList) :
    InLines ("\n".intercalate (lines ++ [last])) lines last := by
  induction lines with
  | nil => exact .of_free hlast
  | cons line lines ih =>
    obtain ⟨hline, hlines⟩ := List.forall_mem_cons.mp hlines
    rw [List.cons_append, String.intercalate_cons_of_ne_nil (by simp)]
    exact (ih hlines).cons hline

end Text

/-! ## Recorders -/

namespace Recorder

def recording (texts : List String) : Recorder :=
  texts.foldl write new

/-- A recorder of a text holds its lines as entries, and the tail is pending. -/
def Holds (recorder : Recorder) (text : String) : Prop :=
  Text.InLines text recorder.entries (.ofList recorder.pending)

/-- `line` is what has been read of the line, last character first. -/
theorem inLines_cutLines {line : List Char} (rest : List Char) (hline : '\n' ∉ line) :
    Text.InLines (.ofList (line.reverse ++ rest)) (cutLines line rest).1
      (.ofList (cutLines line rest).2) := by
  fun_induction cutLines line rest with
  | case1 line =>
    rw [List.append_nil]
    exact .of_free (by simpa using hline)
  | case2 line rest entries pending hrest ih =>
    have hclosed : '\n' ∉ (String.ofList line.reverse).toList := by simpa using hline
    have htext : String.ofList (line.reverse ++ '\n' :: rest) =
        .ofList line.reverse ++ "\n" ++ .ofList rest := by
      simp [← String.toList_inj]
    rw [hrest] at ih
    rw [htext]
    exact (ih List.not_mem_nil).cons hclosed
  | case3 line c rest hc ih =>
    have hmore : '\n' ∉ c :: line := by
      rw [List.mem_cons, not_or]
      exact ⟨Ne.symm hc, hline⟩
    simpa using ih hmore

variable {recorder : Recorder} {text : String}

theorem holds_new : new.Holds "" :=
  .of_free (by simp)

/-- Writing goes on with the text that a recorder holds. -/
theorem Holds.write (hholds : recorder.Holds text) (more : String) :
    (recorder.write more).Holds (text ++ more) := by
  have hpending : '\n' ∉ recorder.pending.reverse := by
    simpa using hholds.tail_free
  have hlines := inLines_cutLines more.toList hpending
  rw [List.reverse_reverse, String.ofList_append, String.ofList_toList] at hlines
  exact hholds.append hlines

theorem Holds.writeAll (hholds : recorder.Holds text) (texts : List String) :
    (texts.foldl Recorder.write recorder).Holds (text ++ String.join texts) := by
  induction texts generalizing recorder text with
  | nil => simpa using hholds
  | cons first texts ih =>
    rw [List.foldl_cons, String.join_cons, ← String.append_assoc]
    exact ih (hholds.write first)

theorem holds_recording (texts : List String) : (recording texts).Holds (String.join texts) := by
  have hholds := holds_new.writeAll texts
  rwa [String.empty_append] at hholds

/-- A recorder gives its entries and, unless it is empty, the line that has not ended. -/
theorem take_eq (recorder : Recorder) :
    recorder.take = (recorder.entries ++
      (if String.ofList recorder.pending = "" then [] else [.ofList recorder.pending]), new) := by
  cases hpending : recorder.pending with
  | nil => simp [take, hpending]
  | cons c pending => simp [take, hpending, ← String.toList_inj]

/-- Two recorders that hold one text give the same entries. -/
theorem Holds.take_eq_take {other : Recorder} (hholds : recorder.Holds text)
    (hother : other.Holds text) : recorder.take = other.take := by
  obtain ⟨hentries, hpending⟩ := hholds.unique hother
  rw [take_eq, take_eq, hentries, hpending]

/-- However a text is divided among the writes to a new recorder, the entries are the same: the
lines of the text, empty ones included, and then the tail if it is not empty. Nothing is left to be
taken again. -/
theorem entries_do_not_depend_on_chunks {text : String} {first second : List String}
    (hfirst : String.join first = text) (hsecond : String.join second = text) :
    (recording first).take.1 = (recording second).take.1 ∧
      (∃ closed tail, Text.InLines text closed tail ∧
        (recording first).take.1 = closed ++ if tail = "" then [] else [tail]) ∧
      (recording first).take.2.take.1 = [] := by
  have hholds : (recording first).Holds text := hfirst ▸ holds_recording first
  have hother : (recording second).Holds text := hsecond ▸ holds_recording second
  refine ⟨by rw [hholds.take_eq_take hother], ⟨_, _, hholds, by rw [take_eq]⟩, rfl⟩

/-- A text with empty lines and a tail, written at once and in pieces of which one is empty and
others end at, before and behind newlines. -/
theorem entries_of_pieces :
    String.join ["a\n\n\nbc\nd"] = "a\n\n\nbc\nd" ∧
      String.join ["a", "\n\n", "", "\nb", "c\nd"] = "a\n\n\nbc\nd" ∧
      (recording ["a", "\n\n", "", "\nb", "c\nd"]).take.1 = ["a", "", "", "bc", "d"] := by
  have hwhole : String.join ["a\n\n\nbc\nd"] = "a\n\n\nbc\nd" := by decide
  have hpieces : String.join ["a", "\n\n", "", "\nb", "c\nd"] = "a\n\n\nbc\nd" := by decide
  obtain ⟨hsame, -⟩ := entries_do_not_depend_on_chunks hwhole hpieces
  exact ⟨hwhole, hpieces, hsame ▸ by decide⟩

end Recorder

/-- A report shows what a recorder would have been given by every single write of the program. -/
theorem CommandLine.consoleEntries_eq_recording (machine : Machine) :
    consoleEntries machine =
      (Recorder.recording machine.world.console.written.reverse).take.1.map (⟨0, ·⟩) := by
  have hwritten := Recorder.holds_recording machine.world.console.written.reverse
  have hwhole := Recorder.holds_recording [machine.world.console.output]
  rw [String.join_cons, String.join_nil, String.append_empty] at hwhole
  rw [← hwhole.take_eq_take hwritten]
  rfl

end Logo
