import Logo.Datum.Equality

/-!
# Equality and order from both sides

Programs compare data of any two kinds: a number with the word that spells it, a truth value with
its name, a quoted word with a bare one. The answer does not depend on which of the two comes first.
A datum equals itself unless there is a nothing in it, since neither kind of nothing equals
anything. A float that is no number equals itself too, although it has no order.
-/

namespace Logo

/-! ## Floats -/

section Floats

open Float.Model

/-- Two magnitudes that are turned round have the opposite order. -/
theorem compare_scaled_swap (exponent power : Int) (mantissa next : Nat) :
    (compare power exponent).then (compare next mantissa) =
      ((compare exponent power).then (compare mantissa next)).swap := by
  rw [Ordering.swap_then, ← Std.OrientedOrd.eq_swap, ← Std.OrientedOrd.eq_swap]

/-- Swapped numbers compare the other way round. -/
theorem compare_unpacked_swap (left right : UnpackedFloat) :
    right.compare left = (left.compare right).map Ordering.swap := by
  cases left with
  | notANumber => cases right <;> rfl
  | infinity sign =>
    cases right with
    | infinity other => cases sign <;> cases other <;> rfl
    | notANumber | zero _ | finite _ _ _ _ => cases sign <;> rfl
  | zero sign =>
    cases right with
    | infinity other | finite other _ _ _ => cases other <;> rfl
    | notANumber | zero _ => rfl
  | finite sign mantissa exponent _ =>
    cases right with
    | infinity other => cases sign <;> cases other <;> rfl
    | notANumber | zero _ => cases sign <;> rfl
    | finite other next power _ =>
      -- Magnitudes count only between two floats of one sign.
      have hswap := compare_scaled_swap exponent power mantissa next
      cases sign <;> cases other
      · exact congrArg (fun order => some (Ordering.swap order)) hswap
      · rfl
      · rfl
      · exact congrArg some hswap

/-- Every number compares as equal to itself. -/
theorem compare_unpacked_self {value : UnpackedFloat} (hnumber : value.isNaN = false) :
    value.compare value = some .eq := by
  cases value with
  | notANumber => cases hnumber
  | zero _ => rfl
  | infinity sign => cases sign <;> rfl
  | finite sign mantissa exponent _ =>
    have hself : (compare exponent exponent).then (compare mantissa mantissa) = .eq := by
      rw [Std.ReflOrd.compare_self, Std.ReflOrd.compare_self]
      rfl
    cases sign
    · exact congrArg (fun order => some (Ordering.swap order)) hself
    · exact congrArg some hself

end Floats

def compareFloats? (left right : Float) : Option Ordering :=
  left.toModel.compare right.toModel

theorem compareFloats?_swap (left right : Float) :
    compareFloats? right left = (compareFloats? left right).map Ordering.swap :=
  compare_unpacked_swap left.toModel.unpack right.toModel.unpack

theorem float_lt_iff {left right : Float} :
    left < right ↔ compareFloats? left right = some .lt := by
  change decide (left.toModel < right.toModel) = true ↔ _
  rw [decide_eq_true_iff]
  exact beq_iff_eq

theorem float_beq_eq (left right : Float) :
    (left == right) = (compareFloats? left right == some .eq) :=
  rfl

theorem float_beq_comm (left right : Float) : (left == right) = (right == left) := by
  rw [float_beq_eq, float_beq_eq, compareFloats?_swap left right]
  cases compareFloats? left right with
  | none => rfl
  | some order => cases order <;> rfl

/-- The tests by which the order of two floats is found. -/
theorem compareFloats?_eq (left right : Float) :
    compareFloats? left right =
      if left < right then some .lt
      else if left == right then some .eq
      else if right < left then some .gt
      else none := by
  simp only [float_lt_iff, float_beq_eq, compareFloats?_swap left right]
  cases compareFloats? left right with
  | none => rfl
  | some order => cases order <;> rfl

theorem equalFloats_comm (left right : Float) :
    equalFloats left right = equalFloats right left := by
  rw [equalFloats, equalFloats, float_beq_comm, Bool.and_comm]

/-- A float equals itself, also if it is no number. -/
theorem equalFloats_self (value : Float) : equalFloats value value = true := by
  rw [equalFloats, Bool.and_self, Bool.or_eq_true]
  cases hnumber : value.isNaN with
  | true => exact .inr rfl
  | false =>
    left
    rw [float_beq_eq, beq_iff_eq]
    exact compare_unpacked_self hnumber

/-! ## Numbers -/

namespace Number

theorem equal_comm (left right : Number) : left.equal right = right.equal left := by
  cases left with
  | integer a =>
    cases right with
    | integer b => exact BEq.comm
    | float b => rfl
  | float a =>
    cases right with
    | integer b => rfl
    | float b => exact equalFloats_comm a b

theorem equal_self (value : Number) : value.equal value = true := by
  cases value with
  | integer n => exact beq_self_eq_true n
  | float a => exact equalFloats_self a

/-- Two numbers of which one is a float have the order of floats. -/
theorem compare?_eq_compareFloats? {left right : Number}
    (hfloat : ∀ a b, ¬(left = .integer a ∧ right = .integer b)) :
    left.compare? right = compareFloats? left.toFloat right.toFloat := by
  rw [compareFloats?_eq]
  cases left with
  | integer a =>
    cases right with
    | integer b => exact absurd ⟨rfl, rfl⟩ (hfloat a b)
    | float b => rfl
  | float a => rfl

theorem compare?_swap (left right : Number) :
    right.compare? left = (left.compare? right).map Ordering.swap := by
  by_cases hintegers : ∃ a b, left = .integer a ∧ right = .integer b
  · obtain ⟨a, b, rfl, rfl⟩ := hintegers
    exact congrArg some Std.OrientedOrd.eq_swap
  · rw [compare?_eq_compareFloats? fun b a h => hintegers ⟨a, b, h.2, h.1⟩,
      compare?_eq_compareFloats? fun a b h => hintegers ⟨a, b, h⟩]
    exact compareFloats?_swap left.toFloat right.toFloat

end Number

/-! ## Atoms -/

namespace Text

theorem sameLetters_comm (left right : String) :
    sameLetters left right = sameLetters right left :=
  BEq.comm

theorem sameLetters_self (text : String) : sameLetters text text = true :=
  beq_self_eq_true _

end Text

namespace Atom

/-- Of two words the texts are compared. A word and something else are taken in one order, whichever
of them comes first. -/
theorem equal_comm (left right : Atom) : left.equal right = right.equal left := by
  cases left with
  | number a =>
    cases right with
    | number b => exact Number.equal_comm a b
    | boolean _ | symbol _ | quote _ | nil | none => rfl
  | boolean a =>
    cases right with
    | boolean b => exact BEq.comm
    | number _ | symbol _ | quote _ | nil | none => rfl
  | symbol a | quote a =>
    cases right with
    | symbol b | quote b => exact BEq.comm
    | number _ | boolean _ | nil | none => rfl
  | nil | none => cases right <;> rfl

theorem equal_self_iff (value : Atom) :
    value.equal value = true ↔ value ≠ .nil ∧ value ≠ .none := by
  cases value with
  | number a => simp [equal, Number.equal_self]
  | boolean a => simp [equal]
  | symbol text | quote text => simp [equal]
  | nil | none => simp [equal]

/-- Texts have an order if there are two of them. -/
theorem compare_texts_swap (first second : Option String) :
    (match second, first with
      | some b, some a => some (compare b a)
      | _, _ => Option.none) =
    (match first, second with
      | some a, some b => some (compare a b)
      | _, _ => Option.none).map Ordering.swap := by
  cases first with
  | none => cases second <;> rfl
  | some a =>
    cases second with
    | none => rfl
    | some b => exact congrArg some Std.OrientedOrd.eq_swap

theorem compare?_swap (left right : Atom) :
    right.compare? left = (left.compare? right).map Ordering.swap := by
  have htexts := compare_texts_swap left.text? right.text?
  rw [compare?, compare?]
  cases left.number? with
  | none => cases right.number? <;> exact htexts
  | some a =>
    cases right.number? with
    | none => exact htexts
    | some b => exact Number.compare?_swap a b

end Atom

/-! ## Data -/

namespace Datum

variable {part value : Atom} {items inputs : List Datum} {source : Option String}
  {span : Option Span} {name : String}

/-- A datum is found in another one: it is the datum itself, or found in an item of the list or in
an input of the call. -/
inductive FoundIn (part : Datum) : Datum → Prop where
  | self : FoundIn part part
  | item {items : List Datum} {source : Option String} {span : Option Span} {inner : Datum}
      (hmem : inner ∈ items) (hinner : FoundIn part inner) : FoundIn part (.list items source span)
  | input {name : String} {inputs : List Datum} {span : Span} {inner : Datum}
      (hmem : inner ∈ inputs) (hinner : FoundIn part inner) :
      FoundIn part (.call ⟨name, inputs, span⟩)

def Filled (datum : Datum) : Prop :=
  ¬nil.FoundIn datum ∧ ¬none.FoundIn datum

theorem foundIn_atom_iff : (Datum.atom part).FoundIn (.atom value) ↔ part = value := by
  constructor
  · intro hfound
    cases hfound
    rfl
  · rintro rfl
    exact .self

theorem foundIn_list_iff :
    (Datum.atom part).FoundIn (.list items source span) ↔
      ∃ inner ∈ items, (Datum.atom part).FoundIn inner := by
  constructor
  · intro hfound
    cases hfound with
    | item hmem hinner => exact ⟨_, hmem, hinner⟩
  · rintro ⟨inner, hmem, hinner⟩
    exact .item hmem hinner

theorem foundIn_call_iff {span : Span} :
    (Datum.atom part).FoundIn (.call ⟨name, inputs, span⟩) ↔
      ∃ inner ∈ inputs, (Datum.atom part).FoundIn inner := by
  constructor
  · intro hfound
    cases hfound with
    | input hmem hinner => exact ⟨_, hmem, hinner⟩
  · rintro ⟨inner, hmem, hinner⟩
    exact .input hmem hinner

theorem filled_atom_iff : (Datum.atom value).Filled ↔ value ≠ .nil ∧ value ≠ .none := by
  rw [Filled, nil, none, foundIn_atom_iff, foundIn_atom_iff]
  exact and_congr ne_comm ne_comm

theorem filled_list_iff :
    (Datum.list items source span).Filled ↔ ∀ inner ∈ items, inner.Filled := by
  simp only [Filled, nil, none, foundIn_list_iff]
  grind

theorem filled_call_iff {span : Span} :
    (Datum.call ⟨name, inputs, span⟩).Filled ↔ ∀ inner ∈ inputs, inner.Filled := by
  simp only [Filled, nil, none, foundIn_call_iff]
  grind

theorem filled_procedure (definition : Procedure) : (Datum.procedure definition).Filled := by
  constructor <;> rintro ⟨⟩

mutual

theorem equal_comm : ∀ left right : Datum, left.equal right = right.equal left
  | .atom left, .atom right => by rw [equal, equal, Atom.equal_comm]
  | .list left _ _, .list right _ _ => by rw [equal, equal, equalAll_comm left right]
  | .call ⟨left, leftInputs, _⟩, .call ⟨right, rightInputs, _⟩ => by
    rw [equal, equal, Text.sameLetters_comm, equalAll_comm leftInputs rightInputs]
  | .procedure left, .procedure right => by rw [equal, equal, Text.sameLetters_comm]
  | .atom _, .list _ _ _ | .atom _, .call ⟨_, _, _⟩ | .atom _, .procedure _ => by simp [equal]
  | .list _ _ _, .atom _ | .list _ _ _, .call ⟨_, _, _⟩ | .list _ _ _, .procedure _ => by
    simp [equal]
  | .call ⟨_, _, _⟩, .atom _ | .call ⟨_, _, _⟩, .list _ _ _ | .call ⟨_, _, _⟩, .procedure _ => by
    simp [equal]
  | .procedure _, .atom _ | .procedure _, .list _ _ _ | .procedure _, .call ⟨_, _, _⟩ => by
    simp [equal]

theorem equalAll_comm : ∀ left right : List Datum, equalAll left right = equalAll right left
  | [], [] => rfl
  | [], _ :: _ | _ :: _, [] => by simp [equalAll]
  | left :: lefts, right :: rights => by
    rw [equalAll, equalAll, equal_comm left right, equalAll_comm lefts rights]

end

mutual

theorem equal_self_iff : ∀ datum : Datum, datum.equal datum = true ↔ datum.Filled
  | .atom value => by rw [equal, filled_atom_iff, Atom.equal_self_iff]
  | .list items _ _ => by rw [equal, filled_list_iff, equalAll_self_iff items]
  | .call ⟨name, inputs, _⟩ => by
    rw [equal, filled_call_iff, Text.sameLetters_self, Bool.true_and, equalAll_self_iff inputs]
  | .procedure definition => by
    simp only [equal, Text.sameLetters_self, filled_procedure]

theorem equalAll_self_iff : ∀ data : List Datum,
    equalAll data data = true ↔ ∀ datum ∈ data, datum.Filled
  | [] => by simp [equalAll]
  | datum :: data => by
    rw [equalAll, Bool.and_eq_true, equal_self_iff datum, equalAll_self_iff data,
      List.forall_mem_cons]

end

theorem compare?_swap (left right : Datum) :
    right.compare? left = (left.compare? right).map Ordering.swap := by
  cases left with
  | atom a =>
    cases right with
    | atom b => exact Atom.compare?_swap a b
    | list _ _ _ | call _ | procedure _ => rfl
  | list _ _ _ | call _ | procedure _ => cases right <;> rfl

/-- Two data are equal from both sides or from none, a datum equals itself exactly if no nothing is
found in it, and the order of two data turns round with them: it is undefined from both sides or the
one is the opposite of the other. -/
theorem comparisons_agree_from_both_sides (left right : Datum) :
    left.equal right = right.equal left ∧
      (left.equal left = true ↔ ¬nil.FoundIn left ∧ ¬none.FoundIn left) ∧
      right.compare? left = (left.compare? right).map Ordering.swap ∧
      (left.compare? right = Option.none ↔ right.compare? left = Option.none) := by
  refine ⟨equal_comm left right, equal_self_iff left, compare?_swap left right, ?_⟩
  rw [compare?_swap left right, Option.map_eq_none_iff]

end Datum

end Logo
