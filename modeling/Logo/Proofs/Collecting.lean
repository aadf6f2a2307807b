import Logo.Proofs.TextLines
import Mathlib.Data.List.Induction

/-!
# Collecting definitions line by line

The collector gives back every line that it has taken, in the order in which they came, except for
those that it was told to give up. What it gives back is a single line outside a definition, or a
definition from its first line through the one that ends it, and what it has not given back yet is
the beginning of a definition.
-/

namespace Logo

/-! ## First words -/

namespace Text

/-- The first word of a line, up to the next white space. A blank line has an empty one. -/
def firstWord (line : String) : String :=
  .ofList ((line.toList.dropWhile isBlank).takeWhile (!isBlank ·))

def BeginsWith (line word : String) : Prop :=
  sameLetters (firstWord line) word = true

/-- An open field goes on to the next white space. -/
theorem head?_fieldsFrom_cons (c : Char) (field text : List Char) :
    (fieldsFrom (c :: field) text).head? =
      some ((c :: field).reverse ++ text.takeWhile (!isBlank ·)) := by
  induction text generalizing c field with
  | nil => simp [fieldsFrom]
  | cons d text ih => by_cases hd : isBlank d = true <;> simp [fieldsFrom, hd, ih]

theorem getD_head?_fieldsFrom (text : List Char) :
    (fieldsFrom [] text).head?.getD [] = (text.dropWhile isBlank).takeWhile (!isBlank ·) := by
  induction text with
  | nil => rfl
  | cons c text ih =>
    by_cases hc : isBlank c = true
    · simp [fieldsFrom, hc, ih]
    · simp [fieldsFrom, hc, head?_fieldsFrom_cons]

theorem getD_head?_fields (line : String) : (fields line).head?.getD "" = firstWord line := by
  rw [firstWord, ← getD_head?_fieldsFrom, fields]
  cases fieldsFrom [] line.toList <;> rfl

theorem sameLetters_eq (left right : String) :
    sameLetters left right = (left.toList.map Char.toLower == right.toList.map Char.toLower) := by
  have hlower (text : String) : text.toLower = text.map Char.toLower := rfl
  rw [sameLetters, Bool.eq_iff_iff, beq_iff_eq, beq_iff_eq, ← String.toList_inj, hlower, hlower,
    String.toList_map, String.toList_map]

end Text

namespace PartialDefinition

theorem startsWith_iff {line word : String} (hword : word ≠ "") :
    startsWith line word = true ↔ Text.BeginsWith line word := by
  rw [startsWith, Text.BeginsWith, ← Text.getD_head?_fields]
  cases Text.fields line with
  | nil => simp [Text.sameLetters_eq, hword]
  | cons first others => rfl

/-! ## What a line does -/

/-- What pushing a line gives back and leaves: outside a definition it passes or opens one, and
inside it is one line more or closes the definition. -/
inductive Pushed (line : String) : PartialDefinition → Option String → PartialDefinition → Prop
  | passes (hline : ¬ Text.BeginsWith line "to") : Pushed line .none (some line) .none
  | opens (hline : Text.BeginsWith line "to") : Pushed line .none Option.none ⟨[line]⟩
  | goesOn {header : String} {body : List String} (hline : ¬ Text.BeginsWith line "end") :
      Pushed line ⟨header :: body⟩ Option.none ⟨header :: (body ++ [line])⟩
  | closes {header : String} {body : List String} (hline : Text.BeginsWith line "end") :
      Pushed line ⟨header :: body⟩ (some ("\n".intercalate (header :: (body ++ [line])))) .none

/-- A pushed line passes, or opens, continues or closes a definition. -/
theorem pushed_push (definition : PartialDefinition) (line : String) :
    Pushed line definition (definition.push line).1 (definition.push line).2 := by
  obtain ⟨lines⟩ := definition
  cases lines with
  | nil =>
    by_cases hline : startsWith line "to" = true
    · simpa [push, isOpen, none, hline] using Pushed.opens ((startsWith_iff (by decide)).mp hline)
    · simpa [push, isOpen, none, hline] using
        Pushed.passes (mt (startsWith_iff (by decide)).mpr hline)
  | cons header body =>
    by_cases hline : startsWith line "end" = true
    · simpa [push, isOpen, hline] using Pushed.closes ((startsWith_iff (by decide)).mp hline)
    · simpa [push, isOpen, hline] using Pushed.goesOn (mt (startsWith_iff (by decide)).mpr hline)

variable {definition after : PartialDefinition} {line : String} {text : Option String}

/-- A line is given back behind those that were pending, or it is pending behind them. -/
theorem Pushed.rows_eq (hpushed : Pushed line definition text after)
    (hlines : ∀ line ∈ definition.lines, '\n' ∉ line.toList) (hline : '\n' ∉ line.toList) :
    text.toList.flatMap Text.rows ++ after.lines = definition.lines ++ [line] := by
  cases hpushed with
  | passes => simp [none, (Text.InLines.of_free hline).rows_eq]
  | opens => rfl
  | goesOn => rfl
  | closes =>
    have hrows := (Text.inLines_intercalate hlines hline).rows_eq
    simpa [none] using hrows

/-! ## Turns -/

inductive Turn where
  | push (line : String)
  | clear

/-- The texts that a collector has given back, in this order, and what it holds. -/
structure Collection where
  returned : List String
  definition : PartialDefinition

namespace Collection

def step (collection : Collection) : Turn → Collection
  | .push line =>
    ⟨collection.returned ++ (collection.definition.push line).1.toList,
      (collection.definition.push line).2⟩
  | .clear => { collection with definition := collection.definition.clear }

def of (turns : List Turn) : Collection :=
  turns.foldl step ⟨[], .none⟩

variable {turns : List Turn} {line : String} {lines : List String}

theorem of_append_clear (turns : List Turn) :
    of (turns ++ [.clear]) = ⟨(of turns).returned, .none⟩ := by
  rw [of, List.foldl_append]
  rfl

theorem exists_pushed (turns : List Turn) (line : String) :
    ∃ text after, of (turns ++ [.push line]) = ⟨(of turns).returned ++ text.toList, after⟩ ∧
      Pushed line (of turns).definition text after := by
  refine ⟨_, _, ?_, pushed_push _ _⟩
  rw [of, List.foldl_append]
  rfl

/-! ## Where the texts come from -/

/-- What is pending: nothing, or the last lines that were pushed, the first of which has begun a
definition that no other ends. -/
inductive Pending (turns : List Turn) : List String → Prop
  | nothing : Pending turns []
  | beginning {before : List Turn} {header : String} {body : List String}
      (hturns : turns = before ++ (header :: body).map .push)
      (hclosed : (of before).definition.isOpen = false) (hheader : Text.BeginsWith header "to")
      (hbody : ∀ line ∈ body, ¬ Text.BeginsWith line "end") : Pending turns (header :: body)

/-- What is given back: a line pushed outside of definitions that begins none, or the lines of a
definition, which were pushed one right after the other. -/
inductive Origin (turns : List Turn) : String → Prop
  | line {before after : List Turn} {line : String} (hturns : turns = before ++ .push line :: after)
      (hclosed : (of before).definition.isOpen = false) (hline : ¬ Text.BeginsWith line "to") :
      Origin turns line
  | definition {before after : List Turn} {header closing : String} {body : List String}
      (hturns : turns = before ++ ((header :: (body ++ [closing])).map .push ++ after))
      (hclosed : (of before).definition.isOpen = false) (hheader : Text.BeginsWith header "to")
      (hbody : ∀ line ∈ body, ¬ Text.BeginsWith line "end")
      (hclosing : Text.BeginsWith closing "end") :
      Origin turns ("\n".intercalate (header :: (body ++ [closing])))

theorem Origin.append {text : String} (horigin : Origin turns text) (more : List Turn) :
    Origin (turns ++ more) text := by
  cases horigin with
  | @line before after _ hturns hclosed hline =>
    have hall : turns ++ more = before ++ .push text :: (after ++ more) := by
      rw [hturns, List.append_assoc, List.cons_append]
    exact .line hall hclosed hline
  | @definition before after header closing body hturns hclosed hheader hbody hclosing =>
    have hall : turns ++ more =
        before ++ ((header :: (body ++ [closing])).map .push ++ (after ++ more)) := by
      rw [hturns, List.append_assoc, List.append_assoc]
    exact .definition hall hclosed hheader hbody hclosing

theorem Pending.push_mem (hpending : Pending turns lines) : ∀ line ∈ lines, .push line ∈ turns := by
  cases hpending with
  | nothing => simp
  | beginning hturns =>
    intro line hline
    rw [hturns]
    exact List.mem_append_right _ (List.mem_map_of_mem hline)

structure Orderly (turns : List Turn) (collection : Collection) : Prop where
  pending : Pending turns collection.definition.lines
  origin : ∀ text ∈ collection.returned, Origin turns text

/-- A pushed line leaves the collection in order. -/
theorem Orderly.push (horderly : Orderly turns (of turns)) (line : String) :
    Orderly (turns ++ [.push line]) (of (turns ++ [.push line])) := by
  obtain ⟨hpending, horigin⟩ := horderly
  obtain ⟨text, after, hof, hpushed⟩ := exists_pushed turns line
  have hearlier : ∀ text ∈ (of turns).returned, Origin (turns ++ [.push line]) text :=
    fun text htext => (horigin text htext).append _
  rw [hof]
  generalize hdefinition : (of turns).definition = definition at hpending hpushed
  cases hpushed with
  | passes hline =>
    have hclosed : (of turns).definition.isOpen = false := by rw [hdefinition]; rfl
    refine ⟨.nothing, List.forall_mem_append.mpr ⟨hearlier, List.forall_mem_singleton.mpr ?_⟩⟩
    exact .line rfl hclosed hline
  | opens hline =>
    have hclosed : (of turns).definition.isOpen = false := by rw [hdefinition]; rfl
    exact ⟨.beginning rfl hclosed hline (by simp), by simpa using hearlier⟩
  | @goesOn header body hline =>
    cases hpending with
    | @beginning before _ _ hturns hclosed hheader hbody =>
      have hall : turns ++ [.push line] = before ++ (header :: (body ++ [line])).map .push := by
        rw [hturns]
        simp
      refine ⟨.beginning hall hclosed hheader ?_, by simpa using hearlier⟩
      exact List.forall_mem_append.mpr ⟨hbody, List.forall_mem_singleton.mpr hline⟩
  | @closes header body hline =>
    cases hpending with
    | @beginning before _ _ hturns hclosed hheader hbody =>
      have hall : turns ++ [.push line] =
          before ++ ((header :: (body ++ [line])).map .push ++ []) := by
        rw [hturns]
        simp
      refine ⟨.nothing, List.forall_mem_append.mpr ⟨hearlier, List.forall_mem_singleton.mpr ?_⟩⟩
      exact .definition hall hclosed hheader hbody hline

theorem orderly (turns : List Turn) : Orderly turns (of turns) := by
  induction turns using List.reverseRecOn with
  | nil => exact ⟨.nothing, by simp [of]⟩
  | append_singleton turns turn ih =>
    cases turn with
    | push line => exact ih.push line
    | clear =>
      rw [of_append_clear]
      exact ⟨.nothing, fun text htext => (ih.origin text htext).append _⟩

/-! ## The lines that are kept -/

/-- The lines of the texts that were given back, and then those that are pending. -/
def rows (collection : Collection) : List String :=
  collection.returned.flatMap Text.rows ++ collection.definition.lines

/-- The lines that were pushed, in order, except for those that were pending when the collector was
cleared. -/
inductive Kept : List Turn → List String → Prop
  | nil : Kept [] []
  | push {turns : List Turn} {lines : List String} (line : String) (hkept : Kept turns lines) :
      Kept (turns ++ [.push line]) (lines ++ [line])
  | clear {turns : List Turn} {lines : List String}
      (hkept : Kept turns (lines ++ (of turns).definition.lines)) : Kept (turns ++ [.clear]) lines

/-- A line more is given back or pending behind all the others. -/
theorem rows_push (hlines : ∀ other, .push other ∈ turns ++ [.push line] → '\n' ∉ other.toList) :
    (of (turns ++ [.push line])).rows = (of turns).rows ++ [line] := by
  obtain ⟨text, after, hof, hpushed⟩ := exists_pushed turns line
  have hpending : ∀ other ∈ (of turns).definition.lines, '\n' ∉ other.toList := fun other hmem =>
    hlines other (List.mem_append_left _ ((orderly turns).pending.push_mem other hmem))
  have hrows := hpushed.rows_eq hpending (hlines line (by simp))
  rw [rows, rows, hof, List.flatMap_append, List.append_assoc, hrows, List.append_assoc]

theorem rows_clear (turns : List Turn) :
    (of (turns ++ [.clear])).rows = (of turns).returned.flatMap Text.rows := by
  rw [rows, of_append_clear]
  exact List.append_nil _

theorem Kept.eq_rows (hkept : Kept turns lines)
    (hlines : ∀ line, .push line ∈ turns → '\n' ∉ line.toList) : lines = (of turns).rows := by
  induction hkept with
  | nil => rfl
  | push line hkept ih =>
    rw [rows_push hlines, ih fun other hmem => hlines other (List.mem_append_left _ hmem)]
  | clear hkept ih =>
    rw [rows_clear]
    exact List.append_cancel_right
      (ih fun other hmem => hlines other (List.mem_append_left _ hmem))

theorem kept_rows (hlines : ∀ line, .push line ∈ turns → '\n' ∉ line.toList) :
    Kept turns (of turns).rows := by
  induction turns using List.reverseRecOn with
  | nil => exact .nil
  | append_singleton turns turn ih =>
    have hkept := ih fun other hmem => hlines other (List.mem_append_left _ hmem)
    cases turn with
    | push line =>
      rw [rows_push hlines]
      exact hkept.push line
    | clear =>
      rw [rows_clear]
      exact hkept.clear

theorem kept_iff (hlines : ∀ line, .push line ∈ turns → '\n' ∉ line.toList) :
    Kept turns lines ↔ lines = (of turns).rows :=
  ⟨fun hkept => hkept.eq_rows hlines, fun heq => heq ▸ kept_rows hlines⟩

end Collection

open Collection in
/-- No line is lost and none changes its place. The lines of what was given back, and then those
that are pending, are the lines pushed except for those pending when the collector was cleared.
Whatever was given back is a line outside of definitions or a whole definition, what is pending is
the beginning of a definition, and the collector is open if there is any such line. -/
theorem collector_keeps_lines_in_order (turns : List Turn)
    (hlines : ∀ line, .push line ∈ turns → '\n' ∉ line.toList) :
    (∀ lines, Kept turns lines ↔
        lines = (of turns).returned.flatMap Text.rows ++ (of turns).definition.lines) ∧
      (∀ text ∈ (of turns).returned, Origin turns text) ∧
      Pending turns (of turns).definition.lines ∧
      ((of turns).definition.isOpen = true ↔
        ∃ line lines, Kept turns ((of turns).returned.flatMap Text.rows ++ line :: lines)) := by
  refine ⟨fun lines => kept_iff hlines, (orderly turns).origin, (orderly turns).pending, ?_⟩
  simp only [kept_iff hlines, rows, List.append_cancel_left_eq]
  cases hpending : (of turns).definition.lines <;> simp [isOpen, hpending]

open Collection in
/-- A line, the beginning of a definition that is given up, and another definition, with capital
letters and with a blank before its last word. -/
theorem collector_keeps_lines_around_clear :
    (∀ line, .push line ∈ [.push "pd", .push "to f", .clear, .push "TO g", Turn.push " End"] →
        '\n' ∉ line.toList) ∧
      (of [.push "pd", .push "to f", .clear, .push "TO g", .push " End"]).returned =
        ["pd", "TO g\n End"] ∧
      Kept [.push "pd", .push "to f", .clear, .push "TO g", .push " End"]
        ["pd", "TO g", " End"] := by
  have hlines : ∀ line, .push line ∈ [.push "pd", .push "to f", .clear, .push "TO g",
      Turn.push " End"] → '\n' ∉ line.toList := by
    simp
  have hfirst : startsWith "pd" "to" = false ∧ startsWith "to f" "to" = true ∧
      startsWith "TO g" "to" = true ∧ startsWith " End" "end" = true := by
    simp only [startsWith, Text.sameLetters_eq]
    decide +kernel
  have hof : of [.push "pd", .push "to f", .clear, .push "TO g", .push " End"] =
      ⟨["pd", "TO g\n End"], .none⟩ := by
    simp [of, step, push, clear, isOpen, none, hfirst]
  have hkept := (collector_keeps_lines_in_order _ hlines).1 ["pd", "TO g", " End"]
  rw [hof] at hkept
  exact ⟨hlines, by rw [hof], hkept.mpr (by decide +kernel)⟩

end PartialDefinition

end Logo
