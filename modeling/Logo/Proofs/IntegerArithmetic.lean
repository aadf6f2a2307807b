import Logo.Native
import Logo.Proofs.Computation
import Logo.Text.Cluster

/-!
# Arithmetic of integers

Two integers are computed with exactly: the result is the integer that mathematics gives, if 64
signed bits hold it, and an error if they do not or if there is no such integer. There is one
exception. A remainder is refused where the quotient is too large, although the remainder is then
zero.
-/

namespace Logo

variable {n : Int}

def RuntimeError.IsArithmetic : RuntimeError → Prop
  | .overflow _ _ _ | .divisionByZero | .integerRange _ => True
  | _ => False

/-! ## Results of 64 bits -/

theorem toInt_ofInt_of_fits (hlow : Int64.minValue.toInt ≤ n) (hhigh : n ≤ Int64.maxValue.toInt) :
    (Int64.ofInt n).toInt = n := by
  rw [← Int64.ofIntLE_eq_ofInt hlow hhigh, Int64.toInt_ofIntLE]

theorem int64?_eq_some_iff {value : Int64} : int64? n = some value ↔ value.toInt = n := by
  rw [int64?]
  split
  · rename_i hfits
    rw [Option.some_inj, ← Int64.toInt_inj, toInt_ofInt_of_fits hfits.1 hfits.2, eq_comm]
  · rename_i hfits
    constructor
    · rintro ⟨⟩
    · rintro rfl
      exact absurd ⟨value.minValue_le_toInt, value.toInt_le⟩ hfits

theorem int64?_eq_none_iff : int64? n = none ↔ ∀ value : Int64, value.toInt ≠ n := by
  rw [Option.eq_none_iff_forall_ne_some]
  exact forall_congr' fun value => not_congr int64?_eq_some_iff

/-- The result is the one integer of 64 bits with a property, or an error of arithmetic where none
has it. -/
inductive Exact (holds : Int → Prop) : Except RuntimeError Number → Prop where
  | ok {value : Int64} (honly : ∀ n : Int64, holds n.toInt ↔ n = value) :
      Exact holds (.ok (.integer value))
  | error {cause : RuntimeError} (hcause : cause.IsArithmetic)
      (hnone : ∀ n : Int64, ¬holds n.toInt) : Exact holds (.error cause)

namespace Exact

variable {holds other : Int → Prop} {result : Except RuntimeError Number}

theorem congr (hexact : Exact holds result) (hother : ∀ n, other n ↔ holds n) :
    Exact other result := by
  obtain rfl : other = holds := funext fun n => propext (hother n)
  exact hexact

theorem ok_iff (hexact : Exact holds result) (n : Int64) :
    result = .ok (.integer n) ↔ holds n.toInt := by
  cases hexact with
  | ok honly => simp [honly, eq_comm]
  | error hcause hnone => simp [hnone]

theorem error_iff (hexact : Exact holds result) :
    (∃ cause, cause.IsArithmetic ∧ result = .error cause) ↔ ∀ n : Int64, ¬holds n.toInt := by
  cases hexact with
  | ok honly => simp [honly]
  | error hcause hnone => simp [hcause, hnone]

end Exact

theorem Arithmetic.exact_exact (operation : String) (left right : Int64) (whole : Int) :
    Exact (· = whole) (exact operation left right whole) := by
  rw [exact]
  split
  · rename_i value hvalue
    rw [int64?_eq_some_iff] at hvalue
    subst hvalue
    exact .ok fun n => Int64.toInt_inj
  · rename_i hnone
    exact .error trivial (int64?_eq_none_iff.mp hnone)

/-! ## Quotients and remainders -/

/-- A division that cuts off the fraction: what is left over is smaller than the divisor and lies on
the side of zero on which the dividend does. -/
structure CutsOff (dividend divisor quotient remainder : Int) : Prop where
  whole : dividend = divisor * quotient + remainder
  small : remainder.natAbs < divisor.natAbs
  above : 0 ≤ dividend → 0 ≤ remainder
  below : dividend ≤ 0 → remainder ≤ 0

namespace CutsOff

variable {a b quotient remainder : Int}

theorem divisor_ne_zero (hdivision : CutsOff a b quotient remainder) : b ≠ 0 := by
  rintro rfl
  exact Nat.not_lt_zero _ hdivision.small

/-- Cutting off is division towards zero. -/
theorem iff_tdiv_tmod (hdivisor : b ≠ 0) :
    CutsOff a b quotient remainder ↔ a.tdiv b = quotient ∧ a.tmod b = remainder := by
  constructor
  · intro hdivision
    have hwhole := hdivision.whole
    have hsmall := hdivision.small
    obtain hsign | hsign := Int.le_total 0 a
    · have hremainder := hdivision.above hsign
      exact (Int.tdiv_tmod_unique hsign hdivisor).mpr ⟨by omega, hremainder, by omega⟩
    · have hremainder := hdivision.below hsign
      exact (Int.tdiv_tmod_unique' hsign hdivisor).mpr ⟨by omega, by omega, hremainder⟩
  · rintro ⟨rfl, rfl⟩
    refine ⟨(Int.mul_tdiv_add_tmod a b).symm, ?_, Int.tmod_nonneg b, ?_⟩
    · rw [Int.natAbs_tmod]
      exact Nat.mod_lt _ (Int.natAbs_pos.mpr hdivisor)
    · intro hsign
      have hopposite := Int.tmod_nonneg b (Int.neg_nonneg_of_nonpos hsign)
      rw [Int.neg_tmod] at hopposite
      omega

theorem unique {other rest : Int} (hdivision : CutsOff a b quotient remainder)
    (hother : CutsOff a b other rest) : quotient = other ∧ remainder = rest := by
  have hdivisor := hdivision.divisor_ne_zero
  obtain ⟨rfl, rfl⟩ := (iff_tdiv_tmod hdivisor).mp hdivision
  exact (iff_tdiv_tmod hdivisor).mp hother

end CutsOff

/-- Only one quotient of two integers of 64 bits is too large for 64 bits. -/
theorem exists_toInt_eq_tdiv_iff (a b : Int64) :
    (∃ n : Int64, n.toInt = a.toInt.tdiv b.toInt) ↔ ¬(a = Int64.minValue ∧ b = -1) := by
  constructor
  · rintro ⟨n, hquotient⟩ ⟨rfl, rfl⟩
    have hlarge : Int64.minValue.toInt.tdiv (-1 : Int64).toInt = Int64.maxValue.toInt + 1 := by
      decide
    have hbound := n.toInt_le
    omega
  · intro hslip
    refine ⟨a / b, ?_⟩
    by_cases hdividend : a = Int64.minValue
    · exact Int64.toInt_div_of_ne_right a b fun hdivisor => hslip ⟨hdividend, hdivisor⟩
    · exact Int64.toInt_div_of_ne_left a b hdividend

/-! ## The operations -/

/-- The integer that an operation stands for, however large it is. -/
def Native.Gives : Native → Int → Int → Int → Prop
  | .add, a, b, result => result = a + b
  | .subtract, a, b, result => result = a - b
  | .multiply, a, b, result => result = a * b
  | .divide, a, b, result => ∃ remainder, CutsOff a b result remainder
  | .modulo, a, b, result => ∃ quotient, CutsOff a b quotient result
  | _, _, _, _ => False

namespace Arithmetic

variable {a b : Int64}

theorem exact_divide :
    Exact (Native.Gives .divide a.toInt b.toInt) (divide (.integer a) (.integer b)) := by
  rw [divide]
  split
  · rename_i hzero
    subst hzero
    refine .error trivial fun n hgives => ?_
    obtain ⟨remainder, hdivision⟩ := hgives
    exact hdivision.divisor_ne_zero rfl
  · rename_i hzero
    have hdivisor : b.toInt ≠ 0 := fun h => hzero (Int64.toInt_inj.mp h)
    refine (exact_exact "div" a b _).congr fun n => ?_
    simp [Native.Gives, CutsOff.iff_tdiv_tmod hdivisor, eq_comm]

/-- The remainder is asked for only where there is a quotient. -/
theorem exact_modulo :
    Exact (fun n => Native.Gives .modulo a.toInt b.toInt n ∧ ¬(a = Int64.minValue ∧ b = -1))
      (modulo a b) := by
  rw [modulo]
  split
  · rename_i hzero
    subst hzero
    refine .error trivial fun n hgives => ?_
    obtain ⟨⟨quotient, hdivision⟩, -⟩ := hgives
    exact hdivision.divisor_ne_zero rfl
  · rename_i hzero
    have hdivisor : b.toInt ≠ 0 := fun h => hzero (Int64.toInt_inj.mp h)
    split
    · rename_i quotient hquotient
      have hslip := (exists_toInt_eq_tdiv_iff a b).mp ⟨quotient, int64?_eq_some_iff.mp hquotient⟩
      refine (exact_exact "mod" a b _).congr fun n => ?_
      simp [Native.Gives, CutsOff.iff_tdiv_tmod hdivisor, hslip, eq_comm]
    · rename_i hnone
      refine .error trivial fun n hgives => ?_
      obtain ⟨quotient, hquotient⟩ := (exists_toInt_eq_tdiv_iff a b).mpr hgives.2
      exact int64?_eq_none_iff.mp hnone quotient hquotient

end Arithmetic

namespace World

variable {left right : Value} {a b : Int64}

variable {result : Except RuntimeError Number} {world : World}

def settled (result : Except RuntimeError Number) (world : World) :
    EStateM.Result RuntimeError World Value :=
  match result with
  | .ok number => .ok (.atom (.number number)) world
  | .error cause => .error cause world

theorem lift_bind_apply (result : Except RuntimeError Number) (world : World) :
    (lift result >>= fun number => pure (.atom (.number number)) : Action Value) world =
      settled result world := by
  cases result <;> rfl

theorem settled_eq_ok_iff {n : Int64} :
    settled result world = .ok (.integer n) world ↔ result = .ok (.integer n) := by
  cases result with
  | ok number => simp [settled, Value.integer]
  | error cause => simp [settled]

theorem settled_eq_error_iff {cause : RuntimeError} :
    settled result world = .error cause world ↔ result = .error cause := by
  cases result with
  | ok number => simp [settled]
  | error cause => simp [settled]

theorem arithmetic_apply (operation : Number → Number → Except RuntimeError Number)
    {first second : Number} (hleft : left.number? = some first) (hright : right.number? = some second)
    (world : World) :
    arithmetic operation left right world = settled (operation first second) world := by
  rw [arithmetic, bind_of_ok (expectNumber_of_number? hleft),
    bind_of_ok (expectNumber_of_number? hright), lift_bind_apply]

section Integers

variable (hleft : left.number? = some (.integer a)) (hright : right.number? = some (.integer b))
  (world : World) {action : Native}
  (haction : action ∈ [Native.add, .subtract, .multiply, .divide, .modulo])

include hleft hright haction

variable [Segmentation]

/-- Each operation comes to the integer that it stands for, if there is one of 64 bits; the
remainder is also refused where the quotient is too large. -/
theorem exists_exact_of_runNative :
    ∃ result, runNative action [left, right] world = settled result world ∧
      Exact (fun n => action.Gives a.toInt b.toInt n ∧
        ¬(action = .modulo ∧ a = Int64.minValue ∧ b = -1)) result := by
  have hoperation (operation : Number → Number → Except RuntimeError Number) :=
    arithmetic_apply operation hleft hright world
  simp only [List.mem_cons, List.not_mem_nil, or_false] at haction
  obtain rfl | rfl | rfl | rfl | rfl := haction
  · exact ⟨_, hoperation Arithmetic.add,
      (Arithmetic.exact_exact "add" a b _).congr fun n => by simp [Native.Gives]⟩
  · exact ⟨_, hoperation Arithmetic.subtract,
      (Arithmetic.exact_exact "sub" a b _).congr fun n => by simp [Native.Gives]⟩
  · exact ⟨_, hoperation Arithmetic.multiply,
      (Arithmetic.exact_exact "mul" a b _).congr fun n => by simp [Native.Gives]⟩
  · exact ⟨_, hoperation Arithmetic.divide, Arithmetic.exact_divide.congr fun n => by simp⟩
  · refine ⟨Arithmetic.modulo a b, ?_, Arithmetic.exact_modulo.congr fun n => by simp⟩
    change (expectInteger left >>= fun first => expectInteger right >>= fun second =>
      lift (Arithmetic.modulo first second) >>= fun number => pure _) world = _
    rw [bind_of_ok (expectInteger_of_number? hleft), bind_of_ok (expectInteger_of_number? hright),
      lift_bind_apply]

theorem runNative_eq_ok_iff (n : Int64) :
    runNative action [left, right] world = .ok (.integer n) world ↔
      action.Gives a.toInt b.toInt n.toInt ∧
        ¬(action = .modulo ∧ a = Int64.minValue ∧ b = -1) := by
  obtain ⟨result, hrun, hexact⟩ := exists_exact_of_runNative hleft hright world haction
  rw [hrun, settled_eq_ok_iff, hexact.ok_iff]

theorem runNative_fails_iff :
    (∃ cause, cause.IsArithmetic ∧ runNative action [left, right] world = .error cause world) ↔
      (∀ n : Int64, ¬action.Gives a.toInt b.toInt n.toInt) ∨
        action = .modulo ∧ a = Int64.minValue ∧ b = -1 := by
  obtain ⟨result, hrun, hexact⟩ := exists_exact_of_runNative hleft hright world haction
  simp only [hrun, settled_eq_error_iff, hexact.error_iff]
  by_cases hslip : action = .modulo ∧ a = Int64.minValue ∧ b = -1
  · simp [hslip]
  · simp [hslip]

end Integers

section

variable [Segmentation]

/-- Where two inputs are integers or spell them, each of the five operations gives the exact result
or fails. It gives an integer exactly if that is what the operation stands for, quotients being cut
off toward zero and remainders being on the side of the dividend, and fails for a reason of
arithmetic exactly if no integer of 64 bits is. The one exception is the remainder of the least
integer and minus one, which is refused although it is zero. A quotient and a remainder that are
given make up the dividend, and the world never changes. -/
theorem integers_are_exact_except_one_remainder (hleft : left.number? = some (.integer a))
    (hright : right.number? = some (.integer b)) (world : World) :
    (∀ action ∈ [Native.add, .subtract, .multiply, .divide, .modulo],
      (∀ n : Int64, runNative action [left, right] world = .ok (.integer n) world ↔
        action.Gives a.toInt b.toInt n.toInt ∧
          ¬(action = .modulo ∧ a = Int64.minValue ∧ b = -1)) ∧
      ((∃ cause, cause.IsArithmetic ∧ runNative action [left, right] world = .error cause world) ↔
        (∀ n : Int64, ¬action.Gives a.toInt b.toInt n.toInt) ∨
          action = .modulo ∧ a = Int64.minValue ∧ b = -1)) ∧
    ∀ quotient remainder : Int64,
      runNative .divide [left, right] world = .ok (.integer quotient) world →
      runNative .modulo [left, right] world = .ok (.integer remainder) world →
        a.toInt = b.toInt * quotient.toInt + remainder.toInt := by
  refine ⟨fun action haction => ⟨runNative_eq_ok_iff hleft hright world haction,
    runNative_fails_iff hleft hright world haction⟩, ?_⟩
  intro quotient remainder hquotient hremainder
  rw [runNative_eq_ok_iff hleft hright world (by simp)] at hquotient hremainder
  obtain ⟨⟨rest, hdivision⟩, -⟩ := hquotient
  obtain ⟨⟨other, hmodulo⟩, -⟩ := hremainder
  obtain ⟨-, rfl⟩ := hdivision.unique hmodulo
  exact hdivision.whole

end

open scoped Graphemes

/-- A word that spells a negative integer is divided by an integer. -/
theorem minus_seven_divided_by_two :
    (Value.atom (.symbol "-7")).number? = some (.integer (-7)) ∧
      (Value.integer 2).number? = some (.integer 2) ∧
      runNative .divide [.atom (.symbol "-7"), .integer 2] .empty = .ok (.integer (-3)) .empty ∧
      runNative .modulo [.atom (.symbol "-7"), .integer 2] .empty = .ok (.integer (-1)) .empty := by
  have hleft : (Value.atom (.symbol "-7")).number? = some (.integer (-7)) := by
    with_unfolding_all rfl
  have hright : (Value.integer 2).number? = some (.integer 2) := rfl
  obtain ⟨hactions, -⟩ := integers_are_exact_except_one_remainder hleft hright .empty
  have hdivision : CutsOff (-7 : Int64).toInt (2 : Int64).toInt (-3) (-1) := by
    constructor <;> decide
  refine ⟨hleft, hright, ?_, ?_⟩
  · exact ((hactions .divide (by simp)).1 (-3)).mpr ⟨⟨-1, hdivision⟩, by simp⟩
  · exact ((hactions .modulo (by simp)).1 (-1)).mpr ⟨⟨-3, hdivision⟩, by decide⟩

/-- Minus one goes into the least integer without remainder, but to ask for the remainder is an
overflow. -/
theorem remainder_of_least_integer_is_refused :
    Native.modulo.Gives Int64.minValue.toInt (-1 : Int64).toInt 0 ∧
      runNative .modulo [.integer Int64.minValue, .integer (-1)] .empty =
        .error (.overflow "mod" Int64.minValue (-1)) .empty := by
  refine ⟨⟨Int64.maxValue.toInt + 1, ?_⟩, ?_⟩
  · constructor <;> decide
  · with_unfolding_all rfl

end World

end Logo
