import Logo.Proofs.FloatOrder
import Logo.Proofs.Numerals

/-!
# Laws of the order

Two numbers are ordered by their size and two words by their text, unless both words spell numbers:
these are ordered like the numbers, although they are equal only if their texts are. So there are
two orders at work among words. Each of them is transitive, and the laws fail where they meet.
-/

namespace Logo

/-! ## Order of numbers -/

namespace Number

variable {a b : Int64} {left right : Number}

def isNaN : Number → Bool
  | .integer _ => false
  | .float value => value.isNaN

theorem isNaN_toFloat (value : Number) : value.toFloat.isNaN = value.isNaN := by
  cases value with
  | integer n => exact isNaN_widen n
  | float x => rfl

theorem isNaN_ofWord? {text : String} {value : Number} (hvalue : ofWord? text = some value) :
    value.isNaN = false := by
  rw [← @String.ofList_toList text, ofWord?_eq_some_iff] at hvalue
  generalize text.toList = letters at hvalue
  cases hvalue with
  | integer => rfl
  | float => exact isNaN_readFloat _ _ _

/-- Numbers are at one in order exactly if they are equal, two floats that are no numbers apart. -/
theorem compare?_eq_eq_iff (left right : Number) :
    left.compare? right = some .eq ↔
      left.equal right = true ∧ ¬(left.isNaN = true ∧ right.isNaN = true) := by
  cases left with
  | integer a =>
    cases right with
    | integer b => simp [compare?, equal, isNaN]
    | float b =>
      rw [compare?_eq_compareFloats? (by simp)]
      simp [equal, isNaN, float_beq_eq, toFloat]
  | float a =>
    cases right with
    | integer b =>
      rw [compare?_eq_compareFloats? (by simp)]
      simp [equal, isNaN, float_beq_comm (widen b), float_beq_eq, toFloat]
    | float b =>
      rw [compare?_eq_compareFloats? (by simp), equal, equalFloats, float_beq_eq,
        Bool.or_eq_true, Bool.and_eq_true, beq_iff_eq]
      constructor
      · intro horder
        obtain ⟨hnumber, -⟩ := isNaN_of_compareFloats? horder
        exact ⟨.inl horder, fun hneither => Bool.false_ne_true (hnumber.symm.trans hneither.1)⟩
      · rintro ⟨horder | hneither, hnot⟩
        · exact horder
        · exact absurd hneither hnot

def rank (value : Number) : ℤ ×ₗ ℤ ×ₗ ℤ :=
  floatRank value.toFloat

theorem compare?_integers_eq_lt_iff :
    (integer a).compare? (.integer b) = some .lt ↔ a.toInt < b.toInt := by
  rw [compare?, Option.some_inj, Std.compare_eq_lt, Int64.lt_iff_toInt_lt]

/-- A pair that is not one of integers is ordered by rank. -/
theorem compare?_eq_lt_iff (hfloat : ∀ a b, ¬(left = .integer a ∧ right = .integer b)) :
    left.compare? right = some .lt ↔
      left.isNaN = false ∧ right.isNaN = false ∧ left.rank < right.rank := by
  rw [compare?_eq_compareFloats? hfloat, compareFloats?_eq_lt_iff, isNaN_toFloat, isNaN_toFloat]
  rfl

theorem rank_integer_le (hle : a.toInt ≤ b.toInt) : (integer a).rank ≤ (integer b).rank := by
  change floatRank (widen a) ≤ floatRank (widen b)
  rw [floatRank, floatRank, (widen_spec a).2, (widen_spec b).2]
  exact widenedRank_le hle

theorem rank_le_of_compare? (horder : left.compare? right = some .lt) :
    left.isNaN = false ∧ right.isNaN = false ∧ left.rank ≤ right.rank := by
  by_cases hintegers : ∃ a b, left = .integer a ∧ right = .integer b
  · obtain ⟨a, b, rfl, rfl⟩ := hintegers
    exact ⟨rfl, rfl, rank_integer_le (compare?_integers_eq_lt_iff.mp horder).le⟩
  · obtain ⟨hleft, hright, hless⟩ :=
      (compare?_eq_lt_iff fun a b h => hintegers ⟨a, b, h⟩).mp horder
    exact ⟨hleft, hright, hless.le⟩

theorem compare?_eq_lt_of_rank_lt (hleft : left.isNaN = false) (hright : right.isNaN = false)
    (hless : left.rank < right.rank) : left.compare? right = some .lt := by
  by_cases hintegers : ∃ a b, left = .integer a ∧ right = .integer b
  · obtain ⟨a, b, rfl, rfl⟩ := hintegers
    rw [compare?_integers_eq_lt_iff]
    by_contra hnot
    exact hless.not_ge (rank_integer_le (not_lt.mp hnot))
  · exact (compare?_eq_lt_iff fun a b h => hintegers ⟨a, b, h⟩).mpr ⟨hleft, hright, hless⟩

/-- Widening may give two integers one rank. But of three numbers that are not all integers, one
neighbour of another one is a float, and those two have different ranks. -/
theorem compare?_trans {a b c : Number} (hab : a.compare? b = some .lt)
    (hbc : b.compare? c = some .lt) : a.compare? c = some .lt := by
  obtain ⟨ha, hb, hleft⟩ := rank_le_of_compare? hab
  obtain ⟨-, hc, hright⟩ := rank_le_of_compare? hbc
  by_cases hfirst : ∃ m n, a = .integer m ∧ b = .integer n
  · obtain ⟨m, n, rfl, rfl⟩ := hfirst
    cases c with
    | integer k =>
      rw [compare?_integers_eq_lt_iff] at hab hbc ⊢
      exact hab.trans hbc
    | float x =>
      have hless := ((compare?_eq_lt_iff (by simp)).mp hbc).2.2
      exact compare?_eq_lt_of_rank_lt ha hc (hleft.trans_lt hless)
  · have hless := ((compare?_eq_lt_iff fun m n h => hfirst ⟨m, n, h⟩).mp hab).2.2
    exact compare?_eq_lt_of_rank_lt ha hc (hless.trans_le hright)

end Number

/-! ## Order of atoms -/

namespace Atom

variable {other : String}

def compareTexts? : Option String → Option String → Option Ordering
  | some a, some b => some (compare a b)
  | _, _ => Option.none

/-- The order of texts is transitive. -/
theorem compareTexts?_trans {a b c : Option String} (hab : compareTexts? a b = some .lt)
    (hbc : compareTexts? b c = some .lt) : compareTexts? a c = some .lt := by
  cases a with
  | none => cases hab
  | some first =>
    cases b with
    | none => cases hab
    | some second =>
      cases c with
      | none => cases hbc
      | some third =>
        rw [compareTexts?, Option.some_inj] at hab hbc ⊢
        exact Std.TransCmp.lt_trans hab hbc

theorem compare?_of_numbers {a b : Atom} {x y : Number} (hx : a.number? = some x)
    (hy : b.number? = some y) : a.compare? b = x.compare? y := by
  rw [compare?, hx, hy]

theorem compare?_of_texts {a b : Atom} (hnot : a.number? = Option.none ∨ b.number? = Option.none) :
    a.compare? b = compareTexts? a.text? b.text? := by
  rw [compare?]
  obtain hnone | hnone := hnot
  · rw [hnone]
    rfl
  · rw [hnone]
    cases a.number? <;> rfl

variable {a b c : Atom} {text : String}

theorem number?_of_text? (htext : a.text? = some text) : a.number? = Number.ofWord? text := by
  cases a with
  | symbol _ | quote _ =>
    cases htext
    rfl
  | number _ | boolean _ | nil | none => cases htext

theorem equal_of_texts (htext : a.text? = some text) (hother : b.text? = some other) :
    a.equal b = (text == other) := by
  cases a with
  | symbol _ | quote _ =>
    cases b with
    | symbol _ | quote _ =>
      cases htext
      cases hother
      rfl
    | number _ | boolean _ | nil | none => cases hother
  | number _ | boolean _ | nil | none => cases htext

theorem equal_number_text (value : Number) (htext : a.text? = some text) :
    (Atom.number value).equal a = (Number.ofWord? text).any (·.equal value) := by
  cases a with
  | symbol _ | quote _ =>
    cases htext
    rw [equal]
    cases Number.ofWord? text <;> rfl
  | number _ | boolean _ | nil | none => cases htext

/-- Between a number and a word the order is at one with equality: the word is taken as a number for
both, and no word spells a float that is no number. -/
theorem compare?_number_text_eq_iff (value : Number) (htext : a.text? = some text) :
    (Atom.number value).compare? a = some .eq ↔ (Atom.number value).equal a = true := by
  rw [equal_number_text value htext]
  cases hspelled : Number.ofWord? text with
  | none =>
    rw [compare?_of_texts (.inr ((number?_of_text? htext).trans hspelled))]
    simp [compareTexts?, text?]
  | some spelled =>
    rw [compare?_of_numbers rfl ((number?_of_text? htext).trans hspelled),
      Number.compare?_eq_eq_iff, Number.isNaN_ofWord? hspelled, Number.equal_comm]
    simp

theorem compare?_eq_eq_comm : a.compare? b = some .eq ↔ b.compare? a = some .eq := by
  rw [compare?_swap a b]
  cases a.compare? b with
  | none => simp
  | some order => cases order <;> simp

theorem compare?_texts_eq_iff (htext : a.text? = some text) (hother : b.text? = some other) :
    a.compare? b = some .eq ↔ a.equal b = true ∨
      ∃ x y, Number.ofWord? text = some x ∧ Number.ofWord? other = some y ∧ x.equal y = true := by
  have hleft := number?_of_text? htext
  have hright := number?_of_text? hother
  rw [equal_of_texts htext hother, beq_iff_eq]
  by_cases hnumbers : ∃ x y, Number.ofWord? text = some x ∧ Number.ofWord? other = some y
  · obtain ⟨x, y, hx, hy⟩ := hnumbers
    rw [compare?_of_numbers (hleft.trans hx) (hright.trans hy), Number.compare?_eq_eq_iff,
      Number.isNaN_ofWord? hx]
    constructor
    · rintro ⟨hequal, -⟩
      exact .inr ⟨x, y, hx, hy, hequal⟩
    · rintro (rfl | ⟨x', y', hx', hy', hequal⟩)
      · obtain rfl : x = y := Option.some_inj.mp (hx.symm.trans hy)
        exact ⟨Number.equal_self x, by simp⟩
      · obtain rfl : x = x' := Option.some_inj.mp (hx.symm.trans hx')
        obtain rfl : y = y' := Option.some_inj.mp (hy.symm.trans hy')
        exact ⟨hequal, by simp⟩
  · have hnone : a.number? = Option.none ∨ b.number? = Option.none := by
      rw [hleft, hright]
      cases hx : Number.ofWord? text with
      | none => exact .inl rfl
      | some x =>
        cases hy : Number.ofWord? other with
        | none => exact .inr rfl
        | some y => exact absurd ⟨x, y, hx, hy⟩ hnumbers
    rw [compare?_of_texts hnone, htext, hother, compareTexts?, Option.some_inj,
      Std.LawfulEqOrd.compare_eq_iff_eq]
    constructor
    · exact .inl
    · rintro (hsame | ⟨x, y, hx, hy, -⟩)
      · exact hsame
      · exact absurd ⟨x, y, hx, hy⟩ hnumbers

/-- Three atoms are ordered by their numbers or by their texts alone, as long as it is not two of
them that have a number. -/
theorem compare?_trans (hab : a.compare? b = some .lt) (hbc : b.compare? c = some .lt)
    (hnumbers : [a, b, c].countP (fun atom => atom.number?.isSome) ≠ 2) :
    a.compare? c = some .lt := by
  cases ha : a.number? with
  | some x =>
    cases hb : b.number? with
    | some y =>
      cases hc : c.number? with
      | some z =>
        rw [compare?_of_numbers ha hb] at hab
        rw [compare?_of_numbers hb hc] at hbc
        rw [compare?_of_numbers ha hc]
        exact Number.compare?_trans hab hbc
      | none => simp [ha, hb, hc] at hnumbers
    | none =>
      cases hc : c.number? with
      | some z => simp [ha, hb, hc] at hnumbers
      | none =>
        rw [compare?_of_texts (.inr hb)] at hab
        rw [compare?_of_texts (.inl hb)] at hbc
        rw [compare?_of_texts (.inr hc)]
        exact compareTexts?_trans hab hbc
  | none =>
    rw [compare?_of_texts (.inl ha)] at hab
    rw [compare?_of_texts (.inl ha)]
    cases hb : b.number? with
    | some y =>
      cases hc : c.number? with
      | some z => simp [ha, hb, hc] at hnumbers
      | none =>
        rw [compare?_of_texts (.inr hc)] at hbc
        exact compareTexts?_trans hab hbc
    | none =>
      rw [compare?_of_texts (.inl hb)] at hbc
      exact compareTexts?_trans hab hbc

end Atom

namespace Datum

variable {text : String} {atom : Atom} {a b : Datum}

/-- A number, or a word with or without its quote mark. -/
inductive IsNumberOrWord : Datum → Prop where
  | number (value : Number) : IsNumberOrWord (.atom (.number value))
  | word {datum : Datum} {text : String} (htext : datum.text? = some text) : IsNumberOrWord datum

/-- A float that is no number. -/
def isNaN : Datum → Bool
  | .atom (.number value) => value.isNaN
  | _ => false

/-- A word whose text is read as a number. -/
def Spells (datum : Datum) (value : Number) : Prop :=
  datum.text?.isSome = true ∧ datum.number? = some value

theorem exists_atom_of_text? {datum : Datum} (htext : datum.text? = some text) :
    ∃ atom, datum = .atom atom ∧ atom.text? = some text := by
  cases datum with
  | atom atom => exact ⟨atom, rfl, htext⟩
  | list _ _ _ | call _ | procedure _ => cases htext

theorem isNaN_of_text? (htext : atom.text? = some text) : (Datum.atom atom).isNaN = false := by
  cases atom with
  | number _ => cases htext
  | boolean _ | symbol _ | quote _ | nil | none => rfl

theorem spells_atom_iff {value : Number} (htext : atom.text? = some text) :
    (Datum.atom atom).Spells value ↔ Number.ofWord? text = some value := by
  change atom.text?.isSome = true ∧ atom.number? = some value ↔ _
  rw [htext, Atom.number?_of_text? htext]
  simp

theorem not_spells_number (value other : Number) : ¬(Datum.atom (.number value)).Spells other :=
  fun hspells => Bool.false_ne_true hspells.1

/-- What compares as equal is equal, or spells equal numbers. -/
theorem compare?_eq_eq_iff (ha : a.IsNumberOrWord) (hb : b.IsNumberOrWord) :
    a.compare? b = some .eq ↔
      a.equal b = true ∧ ¬(a.isNaN = true ∧ b.isNaN = true) ∨
        ∃ x y, a.Spells x ∧ b.Spells y ∧ x.equal y = true := by
  cases ha with
  | number x =>
    cases hb with
    | number y =>
      simp only [not_spells_number, false_and, exists_false, or_false, equal]
      exact Number.compare?_eq_eq_iff x y
    | word hright =>
      obtain ⟨right, rfl, htext⟩ := exists_atom_of_text? hright
      simp only [not_spells_number, false_and, exists_false, or_false, equal,
        isNaN_of_text? htext, Bool.false_eq_true, and_false, not_false_eq_true, and_true]
      exact Atom.compare?_number_text_eq_iff x htext
  | word hleft =>
    obtain ⟨left, rfl, htext⟩ := exists_atom_of_text? hleft
    cases hb with
    | number y =>
      simp only [not_spells_number, false_and, and_false, exists_false, or_false, equal,
        isNaN_of_text? htext, Bool.false_eq_true, not_false_eq_true, and_true]
      rw [Atom.equal_comm, ← Atom.compare?_number_text_eq_iff y htext]
      exact Atom.compare?_eq_eq_comm
    | word hright =>
      obtain ⟨right, rfl, hother⟩ := exists_atom_of_text? hright
      simp only [spells_atom_iff htext, spells_atom_iff hother, equal, isNaN_of_text? htext,
        Bool.false_eq_true, false_and, not_false_eq_true, and_true]
      exact Atom.compare?_texts_eq_iff htext hother

theorem exists_atoms_of_compare? {order : Ordering} (horder : a.compare? b = some order) :
    ∃ left right, a = .atom left ∧ b = .atom right := by
  cases a with
  | atom left =>
    cases b with
    | atom right => exact ⟨left, right, rfl, rfl⟩
    | list _ _ _ | call _ | procedure _ => cases horder
  | list _ _ _ | call _ | procedure _ => cases b <;> cases horder

theorem compare?_trans {c : Datum} (hab : a.compare? b = some .lt) (hbc : b.compare? c = some .lt)
    (hnumbers : [a, b, c].countP (fun datum => datum.number?.isSome) ≠ 2) :
    a.compare? c = some .lt := by
  obtain ⟨left, middle, rfl, rfl⟩ := exists_atoms_of_compare? hab
  obtain ⟨-, right, -, rfl⟩ := exists_atoms_of_compare? hbc
  exact Atom.compare?_trans hab hbc hnumbers

/-- Two data of which each is a number or a word are at one in order exactly if they are equal and
not both floats that are no numbers, or if they are words that spell equal numbers. And the order is
transitive, except for three data of which exactly two are numbers or spell numbers. -/
theorem order_is_lawful_except_among_numerals (a b c : Datum) :
    (a.IsNumberOrWord → b.IsNumberOrWord →
      (a.compare? b = some .eq ↔
        a.equal b = true ∧ ¬(a.isNaN = true ∧ b.isNaN = true) ∨
          ∃ x y, a.Spells x ∧ b.Spells y ∧ x.equal y = true)) ∧
    (a.compare? b = some .lt → b.compare? c = some .lt →
      [a, b, c].countP (fun datum => datum.number?.isSome) ≠ 2 → a.compare? c = some .lt) :=
  ⟨compare?_eq_eq_iff, compare?_trans⟩

/-- A number, a word and a quoted word one above the other. -/
theorem number_and_words_in_order :
    (Datum.atom (.number (.integer 1))).compare? (.atom (.symbol "1.5")) = some .lt ∧
      (Datum.atom (.symbol "1.5")).compare? (.atom (.quote "2")) = some .lt ∧
      (Datum.atom (.number (.integer 1))).compare? (.atom (.quote "2")) = some .lt ∧
      (Datum.atom (.number (.integer 1))).equal (.atom (.symbol "1.5")) = false := by
  have hfirst : (Datum.atom (.number (.integer 1))).compare? (.atom (.symbol "1.5")) =
      some .lt := by
    with_unfolding_all rfl
  have hsecond : (Datum.atom (.symbol "1.5")).compare? (.atom (.quote "2")) = some .lt := by
    with_unfolding_all rfl
  obtain ⟨hequal, htrans⟩ := order_is_lawful_except_among_numerals (.atom (.number (.integer 1)))
    (.atom (.symbol "1.5")) (.atom (.quote "2"))
  refine ⟨hfirst, hsecond, htrans hfirst hsecond ?_, ?_⟩
  · with_unfolding_all decide
  · rw [← Bool.not_eq_true]
    intro hsame
    have horder := (hequal (.number _) (.word rfl)).mpr
      (.inl ⟨hsame, fun hneither => Bool.false_ne_true hneither.1⟩)
    rw [hfirst] at horder
    cases horder

/-- Two spellings of one number are not equal, and neither comes first. A text that is no numeral
can stand between two numerals that are the other way round. A float that is no number equals itself
and has no order. -/
theorem numerals_break_the_order_of_texts :
    (Datum.atom (.symbol "1")).compare? (.atom (.symbol "1.0")) = some .eq ∧
      (Datum.atom (.symbol "1")).equal (.atom (.symbol "1.0")) = false ∧
      (Datum.atom (.symbol "10")).compare? (.atom (.symbol "1a")) = some .lt ∧
      (Datum.atom (.symbol "1a")).compare? (.atom (.symbol "9")) = some .lt ∧
      (Datum.atom (.symbol "10")).compare? (.atom (.symbol "9")) = some .gt ∧
      (Datum.atom (.number (.float (.ofBits 0x7FF8000000000000)))).equal
        (.atom (.number (.float (.ofBits 0x7FF8000000000000)))) = true ∧
      (Datum.atom (.number (.float (.ofBits 0x7FF8000000000000)))).compare?
        (.atom (.number (.float (.ofBits 0x7FF8000000000000)))) = Option.none := by
  refine ⟨?_, ?_, ?_, ?_, ?_, ?_, ?_⟩ <;> with_unfolding_all rfl

end Datum

end Logo
