import Logo.Proofs.IntegerArithmetic
import Logo.Text.Cluster
import Mathlib

/-!
# Whole numbers of floats

A finite float is a rational number, and it is known exactly which one. To cut off its fraction or
to round it gives the integer of that number, if 64 signed bits hold it. The bound is tested among
floats, though, where the greatest integer of 64 bits does not exist: it has become `2 ^ 63`. So the
one float that stands for `2 ^ 63` passes the test and is brought down by one. Floats of that size
are so far apart that there is no second one.
-/

namespace Logo

open Float.Model (UnpackedFloat Format)
open Float.Model.UnpackedFloat (Sign unpackMantissa unpackExponent unpackSign)

/-! ## The number that a float stands for -/

def unpackedValue? : UnpackedFloat → Option ℚ
  | .zero _ => some 0
  | .finite sign mantissa exponent _ => some (sign.apply mantissa * 2 ^ exponent)
  | .infinity _ | .notANumber => none

def floatValue? (value : Float) : Option ℚ :=
  unpackedValue? value.toModel.unpack

theorem toNat_unpackMantissa (bits : BitVec 64) :
    (@unpackMantissa Format.binary64 bits).toNat = bits.toNat % Nat.pow 2 52 := by
  simp [unpackMantissa]

theorem toNat_unpackExponent (bits : BitVec 64) :
    (@unpackExponent Format.binary64 bits).toNat = bits.toNat / Nat.pow 2 52 % Nat.pow 2 11 := by
  simp [unpackExponent, Nat.shiftRight_eq_div_pow]

theorem toNat_unpackSign (bits : BitVec 64) :
    (@unpackSign Format.binary64 bits).toNat = bits.toNat / Nat.pow 2 63 % 2 := by
  simp [unpackSign, Nat.shiftRight_eq_div_pow]

def isNegative : Sign → Bool
  | .negative => true
  | .positive => false

theorem isNegative_ofBitVec (bit : BitVec 1) :
    isNegative (Sign.ofBitVec bit) = decide (bit.toNat = 1) := by
  revert bit
  decide

/-- An unpacked float in the form in which bits are read. -/
def Binary.ofUnpacked : UnpackedFloat → Binary
  | .notANumber => .nan
  | .infinity sign => .infinite (isNegative sign)
  | .zero sign => .finite (isNegative sign) 0 (-1074)
  | .finite sign mantissa exponent _ => .finite (isNegative sign) mantissa exponent

theorem toNat_implicit_append (fraction : BitVec 52) :
    (1#1 ++ fraction).toNat = Nat.pow 2 52 + fraction.toNat := by
  rw [BitVec.toNat_append, ← Nat.shiftLeft_add_eq_or_of_lt fraction.isLt]
  rfl

/-- The sign, the exponent and the fraction are where they are looked for. -/
theorem Binary.ofFloat_eq (value : Float) :
    ofFloat value = ofUnpacked value.toModel.unpack := by
  have hmantissa := toNat_unpackMantissa value.toModel.toBits.toBitVec
  have hexponent := toNat_unpackExponent value.toModel.toBits.toBitVec
  have hsign := toNat_unpackSign value.toModel.toBits.toBitVec
  have hinfinite : @unpackExponent Format.binary64 value.toModel.toBits.toBitVec = -1#_ ↔
      value.toBits.toNat / Nat.pow 2 52 % Nat.pow 2 11 = 2047 := by
    rw [← BitVec.toNat_inj, hexponent]
    rfl
  have hsubnormal : @unpackExponent Format.binary64 value.toModel.toBits.toBitVec = 0#_ ↔
      value.toBits.toNat / Nat.pow 2 52 % Nat.pow 2 11 = 0 := by
    rw [← BitVec.toNat_inj, hexponent]
    rfl
  have hzero : @unpackMantissa Format.binary64 value.toModel.toBits.toBitVec = 0#_ ↔
      value.toBits.toNat % Nat.pow 2 52 = 0 := by
    rw [← BitVec.toNat_inj, hmantissa]
    rfl
  have hnegative : isNegative (Sign.ofBitVec
      (@unpackSign Format.binary64 value.toModel.toBits.toBitVec)) =
        decide (value.toBits.toNat / Nat.pow 2 63 % 2 = 1) := by
    rw [isNegative_ofBitVec, hsign]
    rfl
  rw [ofFloat, ofBits, Float.Model.unpack, UnpackedFloat.unpack]
  simp only [hinfinite, hsubnormal, hzero]
  split
  · split
    · rw [ofUnpacked, hnegative]
    · rfl
  · split
    · split
      · rename_i hfraction
        rw [ofUnpacked, hnegative, hfraction]
      · rename_i hbiased _
        rw [ofUnpacked, hnegative, hmantissa, hexponent]
        have hleast : value.toModel.toBits.toBitVec.toNat / Nat.pow 2 52 % Nat.pow 2 11 = 0 := hbiased
        rw [hleast]
        rfl
    · rw [ofUnpacked, hnegative, toNat_implicit_append, hmantissa, hexponent]
      rfl

def Binary.value? : Binary → Option ℚ
  | .finite negative significand exponent =>
    let magnitude : ℚ := significand * 2 ^ exponent
    some (if negative then -magnitude else magnitude)
  | .infinite _ | .nan => none

theorem value?_ofFloat (value : Float) : (Binary.ofFloat value).value? = floatValue? value := by
  rw [Binary.ofFloat_eq, floatValue?]
  cases value.toModel.unpack with
  | notANumber | infinity _ => rfl
  | zero sign => simp [Binary.ofUnpacked, Binary.value?, unpackedValue?]
  | finite sign mantissa exponent _ =>
    cases sign <;> simp [Binary.ofUnpacked, Binary.value?, unpackedValue?, isNegative, Sign.apply]

/-! ## Cutting off and rounding -/

/-- The number without its fraction. -/
def truncated (q : ℚ) : ℤ :=
  if 0 ≤ q then ⌊q⌋ else ⌈q⌉

/-- The nearest integer, and of two equally near ones the one further from zero. -/
def rounded (q : ℚ) : ℤ :=
  if 0 ≤ q then ⌊q + 1 / 2⌋ else ⌈q - 1 / 2⌉

theorem mul_zpow_eq_div (significand : ℕ) (exponent : ℤ) :
    (significand : ℚ) * 2 ^ exponent =
      (significand * Nat.pow 2 exponent.toNat : ℕ) / (Nat.pow 2 (-exponent).toNat : ℕ) := by
  obtain ⟨n, rfl | rfl⟩ := exponent.eq_nat_or_neg
  · simp
  · simp [zpow_neg, div_eq_mul_inv]

theorem truncatedMagnitude_eq_floor (significand : ℕ) (exponent : ℤ) :
    (truncatedMagnitude significand exponent : ℤ) = ⌊(significand : ℚ) * 2 ^ exponent⌋ := by
  rw [mul_zpow_eq_div, Rat.floor_natCast_div_natCast]
  rfl

/-- Rounding adds one half and cuts off. -/
theorem roundedMagnitude_eq_floor (significand : ℕ) (exponent : ℤ) :
    (roundedMagnitude significand exponent : ℤ) = ⌊(significand : ℚ) * 2 ^ exponent + 1 / 2⌋ := by
  have hscale : ((Nat.pow 2 (-exponent).toNat : ℕ) : ℚ) ≠ 0 :=
    Nat.cast_ne_zero.mpr (Nat.two_pow_pos _).ne'
  have hhalf : (significand : ℚ) * 2 ^ exponent + 1 / 2 =
      (2 * (significand * Nat.pow 2 exponent.toNat) + Nat.pow 2 (-exponent).toNat : ℕ) /
        (2 * Nat.pow 2 (-exponent).toNat : ℕ) := by
    rw [mul_zpow_eq_div]
    push_cast
    field_simp
  rw [hhalf, Rat.floor_natCast_div_natCast]
  rfl

theorem truncated_neg {q : ℚ} (hq : 0 ≤ q) : truncated (-q) = -truncated q := by
  rw [truncated, truncated, if_pos hq]
  split
  · obtain rfl : q = 0 := by linarith
    simp
  · exact Int.ceil_neg

theorem rounded_neg {q : ℚ} (hq : 0 ≤ q) : rounded (-q) = -rounded q := by
  rw [rounded, rounded, if_pos hq]
  split
  · obtain rfl : q = 0 := by linarith
    norm_num
  · rw [← Int.ceil_neg]
    congr 1
    ring

/-- An integer for every number, itself for an integer and at most one away from every other. -/
structure IsWhole (whole : ℚ → ℤ) : Prop where
  fixed : ∀ n : ℤ, whole n = n
  near : ∀ q, |q - whole q| ≤ 1

theorem isWhole_truncated : IsWhole truncated where
  fixed n := by simp [truncated]
  near q := by
    rw [truncated, abs_le]
    split
    · constructor <;> linarith [Int.floor_le q, Int.lt_floor_add_one q]
    · constructor <;> linarith [Int.le_ceil q, Int.ceil_lt_add_one q]

theorem isWhole_rounded : IsWhole rounded where
  fixed n := by
    have hup : ⌊(n : ℚ) + 1 / 2⌋ = n := Int.floor_eq_iff.mpr ⟨by linarith, by linarith⟩
    have hdown : ⌈(n : ℚ) - 1 / 2⌉ = n := Int.ceil_eq_iff.mpr ⟨by linarith, by linarith⟩
    rw [rounded, hup, hdown, ite_self]
  near q := by
    rw [rounded, abs_le]
    split
    · constructor <;>
        linarith [Int.floor_le (q + 1 / 2), Int.lt_floor_add_one (q + 1 / 2)]
    · constructor <;>
        linarith [Int.le_ceil (q - 1 / 2), Int.ceil_lt_add_one (q - 1 / 2)]

/-- What is right for the magnitude is right for the number with its sign. -/
theorem signed_eq_whole {whole : ℚ → ℤ} {magnitude : ℕ} {q : ℚ} (negative : Bool)
    (hmagnitude : (magnitude : ℤ) = whole q) (hneg : whole (-q) = -whole q) :
    signed negative magnitude = whole (if negative then -q else q) := by
  cases negative with
  | false => exact hmagnitude
  | true => exact (congrArg Neg.neg hmagnitude).trans hneg.symm

theorem magnitude_nonneg (significand : ℕ) (exponent : ℤ) :
    (0 : ℚ) ≤ significand * 2 ^ exponent :=
  mul_nonneg (Nat.cast_nonneg _) (zpow_nonneg zero_le_two _)

theorem truncate?_eq (binary : Binary) : binary.truncate? = binary.value?.map truncated := by
  cases binary with
  | nan | infinite _ => rfl
  | finite negative significand exponent =>
    have hnonneg := magnitude_nonneg significand exponent
    refine congrArg some (signed_eq_whole negative ?_ (truncated_neg hnonneg))
    rw [truncatedMagnitude_eq_floor, truncated, if_pos hnonneg]

theorem round?_eq (binary : Binary) : binary.round? = binary.value?.map rounded := by
  cases binary with
  | nan | infinite _ => rfl
  | finite negative significand exponent =>
    have hnonneg := magnitude_nonneg significand exponent
    refine congrArg some (signed_eq_whole negative ?_ (rounded_neg hnonneg))
    rw [roundedMagnitude_eq_floor, rounded, if_pos hnonneg]

/-! ## The bound -/

/-- Significands have 53 bits. -/
theorem significand_lt {bits : ℕ} {negative : Bool} {significand : ℕ} {exponent : ℤ}
    (hbits : Binary.ofBits bits = .finite negative significand exponent) : significand < 2 ^ 53 := by
  have hfraction : bits % Nat.pow 2 52 < Nat.pow 2 52 := Nat.mod_lt _ (by decide)
  have hpower : Nat.pow 2 52 + Nat.pow 2 52 = 2 ^ 53 := rfl
  rw [Binary.ofBits] at hbits
  split at hbits
  · split at hbits <;> cases hbits
  · split at hbits
    · cases hbits
      omega
    · cases hbits
      omega

/-- A float from `2 ^ 53` on has no fraction. -/
theorem exists_int_of_large {value : Float} {q : ℚ} (hvalue : floatValue? value = some q)
    (hlarge : 2 ^ 53 ≤ |q|) : ∃ n : ℤ, q = n := by
  rw [← value?_ofFloat] at hvalue
  cases hbinary : Binary.ofFloat value with
  | nan | infinite _ =>
    rw [hbinary] at hvalue
    cases hvalue
  | finite negative significand exponent =>
    rw [hbinary] at hvalue
    cases hvalue
    obtain ⟨n, rfl | rfl⟩ := exponent.eq_nat_or_neg
    · refine ⟨signed negative (significand * 2 ^ n), ?_⟩
      cases negative <;> simp [signed]
    · have hsignificand : (significand : ℚ) < 2 ^ 53 := by
        exact_mod_cast significand_lt hbinary
      have hsmall : (significand : ℚ) * 2 ^ (-(n : ℤ)) ≤ significand :=
        mul_le_of_le_one_right (Nat.cast_nonneg _)
          (zpow_le_one_of_nonpos₀ one_le_two (by simp))
      rw [apply_ite abs, abs_neg, ite_self, abs_of_nonneg (magnitude_nonneg _ _)] at hlarge
      linarith

/-- There is no float next to `2 ^ 63` that has `2 ^ 63` as its whole number. -/
theorem eq_of_whole_eq {whole : ℚ → ℤ} (hwhole : IsWhole whole) {value : Float} {q : ℚ}
    (hvalue : floatValue? value = some q) (hq : whole q = 2 ^ 63) : q = 2 ^ 63 := by
  have hnear := abs_le.mp (hwhole.near q)
  rw [hq] at hnear
  push_cast at hnear
  have hlarge : (2 : ℚ) ^ 53 ≤ |q| := by
    refine le_trans ?_ (le_abs_self q)
    linarith
  obtain ⟨n, rfl⟩ := exists_int_of_large hvalue hlarge
  rw [hwhole.fixed] at hq
  exact_mod_cast hq

theorem toInt_clampInt64 {n : Int} (hlow : Int64.minValue.toInt ≤ n)
    (hhigh : n ≤ Int64.maxValue.toInt) : (clampInt64 n).toInt = n := by
  rw [clampInt64, if_neg (Int.not_lt.mpr hlow), if_neg (Int.not_lt.mpr hhigh),
    toInt_ofInt_of_fits hlow hhigh]

namespace Arithmetic

/-- The float nearest to the greatest integer is greater than all integers. -/
theorem truncate?_widen_maxValue :
    (Binary.ofFloat (widen Int64.maxValue)).truncate? = some (2 ^ 63) := by
  decide +kernel

theorem truncate?_widen_minValue :
    (Binary.ofFloat (widen Int64.minValue)).truncate? = some (-(2 ^ 63)) := by
  decide +kernel

theorem fitsAmongFloats_iff {n : Int} :
    fitsAmongFloats n = true ↔ Int64.minValue.toInt ≤ n ∧ n ≤ Int64.maxValue.toInt + 1 := by
  rw [fitsAmongFloats, truncate?_widen_maxValue, truncate?_widen_minValue, Bool.and_eq_true,
    decide_eq_true_iff, decide_eq_true_iff, Int64.toInt_minValue, Int64.toInt_maxValue]
  norm_num

/-- The range is tested among floats, where the upper bound is `2 ^ 63`, and so that float is let
through. -/
theorem exact_toInteger {whole : ℚ → ℤ} (hwhole : IsWhole whole) (value : Float) :
    Exact (fun n => ∃ q, floatValue? value = some q ∧
        (whole q = n ∨ q = 2 ^ 63 ∧ n = Int64.maxValue.toInt))
      (toInteger value ((floatValue? value).map whole)) := by
  cases hvalue : floatValue? value with
  | none => exact .error trivial (by simp)
  | some q =>
    simp only [Option.map_some, Option.some_inj, exists_eq_left']
    by_cases hexception : q = 2 ^ 63
    · have hfixed := hwhole.fixed (Int64.maxValue.toInt + 1)
      have hwhole : whole q = Int64.maxValue.toInt + 1 := by
        rw [hexception, ← hfixed]
        rfl
      have hresult : toInteger value (some (whole q)) = .ok (.integer Int64.maxValue) := by
        rw [hwhole, toInteger, if_pos (fitsAmongFloats_iff.mpr ⟨by decide, le_rfl⟩)]
        rfl
      rw [hresult]
      refine .ok fun n => ?_
      have hbound := n.toInt_le
      rw [← Int64.toInt_inj]
      constructor
      · rintro (hn | ⟨-, hn⟩)
        · omega
        · exact hn
      · exact fun hn => .inr ⟨hexception, hn⟩
    · have hnot : whole q ≠ Int64.maxValue.toInt + 1 :=
        fun hq => hexception (eq_of_whole_eq hwhole hvalue hq)
      simp only [hexception, false_and, or_false]
      rw [toInteger]
      split
      · rename_i hfits
        have hrange := fitsAmongFloats_iff.mp hfits
        have hclamp := toInt_clampInt64 hrange.1 (by omega)
        refine .ok fun n => ?_
        rw [← Int64.toInt_inj, hclamp, eq_comm]
      · rename_i hfits
        have hrange := mt fitsAmongFloats_iff.mpr hfits
        refine .error trivial fun n hn => ?_
        have hlow := n.minValue_le_toInt
        have hhigh := n.toInt_le
        omega

end Arithmetic

namespace World

theorem rounding_apply (operation : Number → Except RuntimeError Number) {value : Value}
    {number : Number} (hvalue : value.number? = some number) (world : World) :
    rounding operation value world = settled (operation number) world := by
  rw [rounding, bind_of_ok (expectNumber_of_number? hvalue), lift_bind_apply]

section Floats

variable {value : Value} {x : Float} (hvalue : value.number? = some (.float x)) (world : World)
  {action : Native} {whole : ℚ → ℤ}
  (haction : (action, whole) ∈ [(Native.integer, truncated), (.round, rounded)])

include hvalue haction

variable [Segmentation]

/-- Both primitives test the whole number of the exact value. -/
theorem exists_exact_of_float :
    ∃ result, runNative action [value] world = settled result world ∧
      Exact (fun n => ∃ q, floatValue? x = some q ∧
        (whole q = n ∨ q = 2 ^ 63 ∧ n = Int64.maxValue.toInt)) result := by
  simp only [List.mem_cons, Prod.mk.injEq, List.not_mem_nil, or_false] at haction
  obtain ⟨rfl, rfl⟩ | ⟨rfl, rfl⟩ := haction
  · refine ⟨_, ?_, Arithmetic.exact_toInteger isWhole_truncated x⟩
    rw [← value?_ofFloat, ← truncate?_eq]
    exact rounding_apply Arithmetic.integer hvalue world
  · refine ⟨_, ?_, Arithmetic.exact_toInteger isWhole_rounded x⟩
    rw [← value?_ofFloat, ← round?_eq]
    exact rounding_apply Arithmetic.round hvalue world

end Floats

section

variable [Segmentation]

/-- Where an input is a float or spells one, `integer` gives the exact number without its fraction
and `round` the nearest integer, halves going away from zero. Either of them gives an integer
exactly if the float is finite and that is the whole number, and fails for a reason of arithmetic
exactly if the float is not finite or no integer of 64 bits is its whole number. The one exception
is the float `2 ^ 63`, for which both give the greatest integer of 64 bits. -/
theorem floats_become_whole_except_two_to_63 {value : Value} {x : Float}
    (hvalue : value.number? = some (.float x)) (world : World) {action : Native} {whole : ℚ → ℤ}
    (haction : (action, whole) ∈ [(Native.integer, truncated), (.round, rounded)]) :
    (∀ n : Int64, runNative action [value] world = .ok (.integer n) world ↔
      ∃ q, floatValue? x = some q ∧ (whole q = n.toInt ∨ q = 2 ^ 63 ∧ n = Int64.maxValue)) ∧
    ((∃ cause, cause.IsArithmetic ∧ runNative action [value] world = .error cause world) ↔
      ∀ q, floatValue? x = some q → q ≠ 2 ^ 63 ∧ ∀ n : Int64, whole q ≠ n.toInt) := by
  obtain ⟨result, hrun, hexact⟩ := exists_exact_of_float hvalue world haction
  refine ⟨fun n => ?_, ?_⟩
  · rw [hrun, settled_eq_ok_iff, hexact.ok_iff]
    simp only [Int64.toInt_inj]
  · simp only [hrun, settled_eq_error_iff, hexact.error_iff, Int64.toInt_inj]
    constructor
    · intro hnone q hq
      exact ⟨fun hexception => hnone _ ⟨q, hq, .inr ⟨hexception, rfl⟩⟩,
        fun n hn => hnone n ⟨q, hq, .inl hn⟩⟩
    · rintro hnone n ⟨q, hq, hn | ⟨hexception, -⟩⟩
      · exact (hnone q hq).2 n hn
      · exact (hnone q hq).1 hexception

end

open scoped Graphemes

/-- A quoted word spells a number half way between two integers. -/
theorem minus_two_and_a_half :
    (Value.atom (.quote "-2.5")).number? = some (.float (readFloat true ['2'] ['5'])) ∧
      floatValue? (readFloat true ['2'] ['5']) = some (-5 / 2) ∧
      runNative .integer [.atom (.quote "-2.5")] .empty = .ok (.integer (-2)) .empty ∧
      runNative .round [.atom (.quote "-2.5")] .empty = .ok (.integer (-3)) .empty := by
  have hnumber : (Value.atom (.quote "-2.5")).number? =
      some (.float (readFloat true ['2'] ['5'])) := by
    with_unfolding_all rfl
  have hunpacked : (readFloat true ['2'] ['5']).toModel.unpack =
      .finite .negative 5629499534213120 (-51) (by decide) := by
    with_unfolding_all rfl
  have hvalue : floatValue? (readFloat true ['2'] ['5']) = some (-5 / 2) := by
    rw [floatValue?, hunpacked, unpackedValue?, Sign.apply]
    norm_num
  have hinteger := floats_become_whole_except_two_to_63 hnumber .empty (List.mem_cons_self)
  have hround := floats_become_whole_except_two_to_63 hnumber .empty
    (List.mem_cons_of_mem _ List.mem_cons_self)
  refine ⟨hnumber, hvalue, ?_, ?_⟩
  · exact (hinteger.1 (-2)).mpr ⟨_, hvalue, .inl (by decide +kernel)⟩
  · exact (hround.1 (-3)).mpr ⟨_, hvalue, .inl (by decide +kernel)⟩

/-- The float `2 ^ 63` does not fit, but it is not refused. -/
theorem two_to_63_is_brought_down :
    floatValue? (.ofBits 0x43E0000000000000) = some (Int64.maxValue.toInt + 1 : ℤ) ∧
      runNative .integer [.atom (.number (.float (.ofBits 0x43E0000000000000)))] .empty =
        .ok (.integer Int64.maxValue) .empty ∧
      runNative .round [.atom (.number (.float (.ofBits 0x43E0000000000000)))] .empty =
        .ok (.integer Int64.maxValue) .empty := by
  have hunpacked : (Float.ofBits 0x43E0000000000000).toModel.unpack =
      .finite .positive 4503599627370496 11 (by decide) := by
    with_unfolding_all rfl
  refine ⟨?_, ?_, ?_⟩
  · rw [floatValue?, hunpacked, unpackedValue?, Sign.apply, Int64.toInt_maxValue]
    norm_num
  · with_unfolding_all rfl
  · with_unfolding_all rfl

end World

end Logo
