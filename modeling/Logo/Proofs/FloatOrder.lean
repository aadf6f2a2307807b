import Logo.Proofs.Comparisons
import Logo.Proofs.WholeNumbers

/-!
# The order of floats

Floats are compared by their sign, their exponent and their significand, in this order. So every
float has a rank, and to compare two floats that are numbers is to compare their ranks. The float
nearest to an integer does not fall in rank if the integer grows: rounding to 53 bits keeps the
order, also where it carries over into the next exponent. Integers and decimals never give a float
that is no number.
-/

namespace Logo

open Float.Model (UnpackedFloat Format totalExponent)
open Float.Model.UnpackedFloat

/-! ## Ranks -/

/-- The place of a float among all others: its kind, and among floats of one kind first the exponent
and then the significand. -/
def unpackedRank : UnpackedFloat → ℤ ×ₗ ℤ ×ₗ ℤ
  | .infinity .negative => toLex (-2, toLex (0, 0))
  | .finite .negative mantissa exponent _ => toLex (-1, toLex (-exponent, -mantissa))
  | .zero _ | .notANumber => toLex (0, toLex (0, 0))
  | .finite .positive mantissa exponent _ => toLex (1, toLex (exponent, mantissa))
  | .infinity .positive => toLex (2, toLex (0, 0))

theorem then_compare_eq_lt_iff {exponent power : ℤ} {mantissa next : ℕ} :
    (compare exponent power).then (compare mantissa next) = .lt ↔
      exponent < power ∨ exponent = power ∧ mantissa < next := by
  rw [Ordering.then_eq_lt, compare_lt_iff_lt, compare_eq_iff_eq, compare_lt_iff_lt]

theorem then_compare_eq_gt_iff {exponent power : ℤ} {mantissa next : ℕ} :
    (compare exponent power).then (compare mantissa next) = .gt ↔
      power < exponent ∨ exponent = power ∧ next < mantissa := by
  rw [Ordering.then_eq_gt, compare_gt_iff_gt, compare_eq_iff_eq, compare_gt_iff_gt]

/-- Floats compare as their ranks do. -/
theorem compare_eq_lt_iff {left right : UnpackedFloat} (hleft : left.isNaN = false)
    (hright : right.isNaN = false) :
    left.compare right = some .lt ↔ unpackedRank left < unpackedRank right := by
  cases left with
  | notANumber => cases hleft
  | infinity sign | zero sign =>
    cases right with
    | notANumber => cases hright
    | infinity other | zero other | finite other _ _ _ =>
      cases sign <;> cases other <;>
        simp [UnpackedFloat.compare, unpackedRank, Prod.Lex.toLex_lt_toLex, compare]
  | finite sign mantissa exponent _ =>
    cases right with
    | notANumber => cases hright
    | infinity other | zero other =>
      cases sign <;> cases other <;>
        simp [UnpackedFloat.compare, unpackedRank, Prod.Lex.toLex_lt_toLex]
    | finite other next power _ =>
      -- Magnitudes count only between two floats of one sign.
      cases sign <;> cases other
      · rw [UnpackedFloat.compare, Option.some_inj, Ordering.swap_eq_lt, then_compare_eq_gt_iff]
        simp [unpackedRank, Prod.Lex.toLex_lt_toLex]
      · simp [UnpackedFloat.compare, unpackedRank, Prod.Lex.toLex_lt_toLex]
      · simp [UnpackedFloat.compare, unpackedRank, Prod.Lex.toLex_lt_toLex]
      · rw [UnpackedFloat.compare, Option.some_inj, then_compare_eq_lt_iff]
        simp [unpackedRank, Prod.Lex.toLex_lt_toLex]

/-! ## Bits -/

variable {spec : Format} {sign : Sign}

/-- An unpacked float is no number only if the bits say so. -/
theorem isNaN_unpack_packComponents {exponent : BitVec spec.exponentBits}
    {mantissa : BitVec spec.mantissaBitsWithoutImplicit}
    (hnumber : exponent = -1#_ → mantissa = 0#_) :
    (unpack spec (packComponents spec sign exponent mantissa)).isNaN = false := by
  simp only [unpack, unpackExponent_packComponents, unpackMantissa_packComponents]
  split
  · rename_i hexponent
    rw [if_pos (hnumber hexponent)]
    rfl
  · split
    · split <;> rfl
    · rfl

theorem ofNat_ne_neg_one {biased : ℕ} (hbiased : biased < 2047) :
    BitVec.ofNat 11 biased ≠ -1#11 := by
  intro heq
  have hvalue := congrArg BitVec.toNat heq
  rw [BitVec.toNat_ofNat, Nat.mod_eq_of_lt (by omega)] at hvalue
  have : (-1#11 : BitVec 11).toNat = 2047 := rfl
  omega

variable {value : UnpackedFloat}

theorem isNaN_unpack_pack (hnumber : value.isNaN = false) :
    (Float.Model.pack value).unpack.isNaN = false := by
  change (unpack Format.binary64 (pack Format.binary64 value)).isNaN = false
  cases value with
  | notANumber => cases hnumber
  | infinity sign => exact isNaN_unpack_packComponents fun _ => rfl
  | zero sign => exact isNaN_unpack_packComponents fun _ => rfl
  | finite sign mantissa exponent _ =>
    rw [pack]
    split
    · exact isNaN_unpack_packComponents fun _ => rfl
    · rename_i hbiased
      have hmost : 2 ^ Format.binary64.exponentBits = 2048 := rfl
      split
      · refine isNaN_unpack_packComponents fun hexponent => absurd hexponent ?_
        exact ofNat_ne_neg_one (by omega)
      · exact isNaN_unpack_packComponents fun hexponent => absurd hexponent (by decide)

/-- A float with all its 53 bits, and an exponent that fits, is kept by its bits. -/
theorem unpack_pack_finite (sign : Sign) {mantissa : ℕ} {exponent : ℤ} (hpositive : 0 < mantissa)
    (hlow : 2 ^ 52 ≤ mantissa) (hhigh : mantissa < 2 ^ 53) (hleast : -1074 ≤ exponent)
    (hmost : exponent ≤ 971) :
    (Float.Model.pack (.finite sign mantissa exponent hpositive)).unpack =
      .finite sign mantissa exponent hpositive := by
  change unpack Format.binary64 (pack Format.binary64 _) = _
  have hsize : mantissa.log2 = 52 := (Nat.log2_eq_iff (by omega)).mpr ⟨hlow, hhigh⟩
  have hbias : (exponent + Format.binary64.exponentBias + (52 : ℕ)).toNat =
      (exponent + 1075).toNat := by
    rw [Int.add_assoc]
    rfl
  rw [pack]
  simp only [hbias, hsize]
  have hnormal : 52 + 1 = Format.binary64.mantissaBits := rfl
  rw [if_neg (by omega), if_pos hnormal, unpack]
  have hbits : (BitVec.ofNat 11 (exponent + 1075).toNat).toNat = (exponent + 1075).toNat := by
    rw [BitVec.toNat_ofNat, Nat.mod_eq_of_lt (by omega)]
  have hnotZero : BitVec.ofNat 11 (exponent + 1075).toNat ≠ 0#11 := by
    intro heq
    rw [heq] at hbits
    have : (0#11 : BitVec 11).toNat = 0 := rfl
    omega
  simp only [unpackExponent_packComponents, unpackMantissa_packComponents,
    unpackSign_packComponents, Sign.ofBitVec_toBitVec]
  rw [if_neg (ofNat_ne_neg_one (by omega)), if_neg hnotZero]
  have hmantissa : (1#1 ++ BitVec.ofNat 52 mantissa).toNat = mantissa := by
    rw [toNat_implicit_append, BitVec.toNat_ofNat]
    have : Nat.pow 2 52 = 2 ^ 52 := rfl
    omega
  have hexponent : ((BitVec.ofNat 11 (exponent + 1075).toNat).toNat : ℤ) -
      (Format.binary64.exponentBias + (52 : ℕ)) = exponent := by
    rw [hbits]
    change ((exponent + 1075).toNat : ℤ) - ((1023 : ℕ) + (52 : ℕ)) = exponent
    omega
  simp only [hmantissa, hexponent]

/-! ## Rounding -/

/-- A mantissa with its two residual bits as one number, in quarters of a unit. -/
def quarters (mantissa : ExtendedMantissa) : ℕ :=
  4 * mantissa.mantissa + 2 * mantissa.roundBit.toNat + mantissa.stickyBit.toNat

variable {left right : ExtendedMantissa}

theorem quarters_shiftRightOne_le (hle : quarters left ≤ quarters right) :
    quarters left.shiftRightOne ≤ quarters right.shiftRightOne := by
  obtain ⟨m, round, sticky⟩ := left
  obtain ⟨n, round', sticky'⟩ := right
  have hodd : ∀ k : ℕ, (k % 2 != 0).toNat = k % 2 := by
    intro k
    obtain hk | hk := Nat.mod_two_eq_zero_or_one k <;> rw [hk] <;> rfl
  simp only [quarters, ExtendedMantissa.shiftRightOne, hodd] at hle ⊢
  cases round <;> cases sticky <;> cases round' <;> cases sticky' <;>
    simp only [Bool.toNat_true, Bool.toNat_false, Bool.or_false, Bool.or_true] at hle ⊢ <;> omega

theorem quarters_shiftRight_le (hle : quarters left ≤ quarters right) (shift : ℕ) :
    quarters (left >>> shift) ≤ quarters (right >>> shift) := by
  induction shift with
  | zero => exact hle
  | succ shift ih => exact quarters_shiftRightOne_le ih

theorem mantissa_shiftRight (mantissa : ExtendedMantissa) (shift : ℕ) :
    (mantissa >>> shift).mantissa = mantissa.mantissa / 2 ^ shift := by
  induction shift with
  | zero => exact (Nat.div_one _).symm
  | succ shift ih =>
    calc (mantissa >>> (shift + 1)).mantissa = (mantissa >>> shift).mantissa / 2 := rfl
      _ = mantissa.mantissa / 2 ^ (shift + 1) := by rw [ih, Nat.div_div_eq_div_mul, Nat.pow_succ]

theorem roundedMantissa_bounds (mantissa : ExtendedMantissa) :
    mantissa.mantissa ≤ mantissa.roundedMantissa ∧
      mantissa.roundedMantissa ≤ mantissa.mantissa + 1 := by
  obtain ⟨m, round, sticky⟩ := mantissa
  have hparity := Nat.mod_two_eq_zero_or_one m
  cases round <;> cases sticky <;>
    simp only [ExtendedMantissa.roundedMantissa, ExtendedMantissa.accuracy,
      Accuracy.roundToNearestEven] <;> omega

/-- Rounding to the nearest integer keeps the order. -/
theorem roundedMantissa_le (hle : quarters left ≤ quarters right) :
    left.roundedMantissa ≤ right.roundedMantissa := by
  have hleft := roundedMantissa_bounds left
  have hright := roundedMantissa_bounds right
  obtain ⟨m, round, sticky⟩ := left
  obtain ⟨n, round', sticky'⟩ := right
  simp only at hleft hright
  by_cases hsame : m = n
  · subst hsame
    simp only [quarters] at hle
    cases round <;> cases sticky <;> cases round' <;> cases sticky' <;>
      simp only [ExtendedMantissa.roundedMantissa, ExtendedMantissa.accuracy,
        Accuracy.roundToNearestEven, Bool.toNat_true, Bool.toNat_false] at hle ⊢ <;> omega
  · have hless : m < n := by
      have := round.toNat_le
      have := sticky.toNat_le
      have := round'.toNat_le
      have := sticky'.toNat_le
      simp only [quarters] at hle
      omega
    omega

/-! ## Widening -/

/-- The significand of an integer among the floats of its size, rounded. It has one bit too many if
rounding carries over. -/
def significand (n : ℕ) : ℕ :=
  (ExtendedMantissa.mk (n <<< (52 - n.log2)) false false >>> (n.log2 - 52)).roundedMantissa

/-- An integer that is shifted to 53 bits has its first bit in front. -/
theorem normalized_bounds {n : ℕ} (hn : n ≠ 0) :
    2 ^ 52 ≤ (n <<< (52 - n.log2)) / 2 ^ (n.log2 - 52) ∧
      (n <<< (52 - n.log2)) / 2 ^ (n.log2 - 52) < 2 ^ 53 := by
  have hleast := Nat.log2_self_le hn
  have hnext := Nat.lt_log2_self (n := n)
  rw [Nat.le_div_iff_mul_le (Nat.two_pow_pos _), Nat.div_lt_iff_lt_mul (Nat.two_pow_pos _),
    Nat.shiftLeft_eq, ← Nat.pow_add, ← Nat.pow_add]
  obtain hsmall | hlarge := Nat.le_total n.log2 52
  · rw [Nat.sub_eq_zero_of_le hsmall]
    constructor
    · calc 2 ^ (52 + 0) = 2 ^ (n.log2 + (52 - n.log2)) := by rw [Nat.add_sub_cancel' hsmall]
        _ = 2 ^ n.log2 * 2 ^ (52 - n.log2) := Nat.pow_add ..
        _ ≤ n * 2 ^ (52 - n.log2) := Nat.mul_le_mul_right _ hleast
    · calc n * 2 ^ (52 - n.log2) < 2 ^ (n.log2 + 1) * 2 ^ (52 - n.log2) :=
            Nat.mul_lt_mul_of_pos_right hnext (Nat.two_pow_pos _)
        _ = 2 ^ (n.log2 + 1 + (52 - n.log2)) := (Nat.pow_add ..).symm
        _ = 2 ^ (53 + 0) := congrArg (2 ^ ·) (by omega)
  · rw [Nat.sub_eq_zero_of_le hlarge, Nat.pow_zero, Nat.mul_one]
    constructor
    · exact (congrArg (2 ^ ·) (Nat.add_sub_cancel' hlarge)).trans_le hleast
    · exact hnext.trans_eq (congrArg (2 ^ ·) (by omega))

theorem significand_bounds {n : ℕ} (hn : n ≠ 0) :
    2 ^ 52 ≤ significand n ∧ significand n ≤ 2 ^ 53 := by
  obtain ⟨hlow, hhigh⟩ := roundedMantissa_bounds
    (ExtendedMantissa.mk (n <<< (52 - n.log2)) false false >>> (n.log2 - 52))
  rw [mantissa_shiftRight] at hlow hhigh
  have hcut := normalized_bounds hn
  exact ⟨hcut.1.trans hlow, hhigh.trans hcut.2⟩

theorem significand_le {m n : ℕ} (hle : m ≤ n) (hsize : m.log2 = n.log2) :
    significand m ≤ significand n := by
  rw [significand, significand, hsize]
  refine roundedMantissa_le (quarters_shiftRight_le ?_ _)
  have hshifted : m <<< (52 - n.log2) ≤ n <<< (52 - n.log2) := by
    rw [Nat.shiftLeft_eq, Nat.shiftLeft_eq]
    exact Nat.mul_le_mul_right _ hle
  simpa only [quarters, Bool.toNat_false, Nat.mul_zero, Nat.add_zero] using
    Nat.mul_le_mul_left 4 hshifted

def scaled (n : ℕ) : ℤ × ℕ :=
  if significand n < 2 ^ 53 then (n.log2 - 52, significand n) else (n.log2 - 51, 2 ^ 52)

theorem scaled_bounds {n : ℕ} (hn : n ≠ 0) : 2 ^ 52 ≤ (scaled n).2 ∧ (scaled n).2 < 2 ^ 53 := by
  have hbounds := significand_bounds hn
  rw [scaled]
  split
  · exact ⟨hbounds.1, by assumption⟩
  · exact ⟨le_rfl, Nat.pow_lt_pow_right (by decide) (by decide)⟩

/-- If rounding carries over, the exponent grows, and only the integers of the next size reach it.
-/
theorem scaled_le {m n : ℕ} (hm : m ≠ 0) (hle : m ≤ n) : toLex (scaled m) ≤ toLex (scaled n) := by
  have hleft := significand_bounds hm
  have hright := significand_bounds (n := n) (by omega)
  have hsize : m.log2 ≤ n.log2 := (Nat.le_log2 (by omega)).mpr ((Nat.log2_self_le hm).trans hle)
  rw [Prod.Lex.toLex_le_toLex]
  obtain hless | hsame := hsize.lt_or_eq
  · rw [scaled, scaled]
    split <;> split <;> simp only <;> omega
  · have hrounded := significand_le hle hsame
    rw [scaled, scaled]
    split <;> split <;> simp only <;> omega

theorem targetExponent_eq {total : ℤ} (hrange : -1021 ≤ total) :
    Format.binary64.targetExponent total = total - 53 := by
  rw [Format.targetExponent, max_eq_left]
  · rfl
  · change (-1074 : ℤ) ≤ total - 53
    omega

theorem shiftToTargetExponent_exact {m : ℕ} {exponent : ℤ}
    (hrange : -1021 ≤ totalExponent m exponent) :
    shiftToTargetExponent Format.binary64 m exponent .exact =
      (ExtendedMantissa.mk m false false >>> (m.log2 - 52), exponent + (m.log2 - 52 : ℕ)) := by
  have hshift : (Format.binary64.targetExponent (totalExponent m exponent) - exponent).toNat =
      m.log2 - 52 := by
    rw [targetExponent_eq hrange, totalExponent]
    omega
  rw [shiftToTargetExponent, shiftToExponent, hshift]
  rfl

theorem log2_shiftLeft {n : ℕ} (hn : n ≠ 0) (shift : ℕ) : (n <<< shift).log2 = n.log2 + shift := by
  induction shift with
  | zero => rfl
  | succ shift ih =>
    have hpositive : n <<< shift ≠ 0 := by simpa using hn
    rw [Nat.shiftLeft_succ, Nat.log2_two_mul hpositive, ih, Nat.add_assoc]

/-- The shift behind rounding only takes back a carry. -/
theorem shiftToTargetExponent_significand {n : ℕ} (hn : n ≠ 0) :
    (shiftToTargetExponent Format.binary64 (significand n) (n.log2 - 52) .exact).1.mantissa =
        (scaled n).2 ∧
      (shiftToTargetExponent Format.binary64 (significand n) (n.log2 - 52) .exact).2 =
        (scaled n).1 := by
  obtain ⟨hlow, hhigh⟩ := significand_bounds hn
  rw [shiftToTargetExponent_exact (by rw [totalExponent]; omega), mantissa_shiftRight, scaled]
  split
  · rename_i hsmall
    have hsize : (significand n).log2 = 52 := (Nat.log2_eq_iff (by omega)).mpr ⟨hlow, hsmall⟩
    rw [hsize]
    exact ⟨Nat.div_one _, Int.add_zero _⟩
  · have hcarry : significand n = 2 ^ 53 := by omega
    rw [hcarry, Nat.log2_two_pow]
    refine ⟨rfl, ?_⟩
    simp only
    omega

/-- The integer is shifted to 53 bits, rounded, and shifted back by one if that has carried over. -/
theorem round_eq {n : ℕ} (hn : n ≠ 0) (sign : Sign) :
    UnpackedFloat.round Format.binary64 sign n 0 =
      .finite sign (scaled n).2 (scaled n).1 (by have := scaled_bounds hn; omega) := by
  have hbounds := significand_bounds hn
  have htarget : Format.binary64.targetExponent (totalExponent n 0) = (n.log2 : ℤ) - 52 := by
    rw [targetExponent_eq (by rw [totalExponent]; omega), totalExponent]
    omega
  have hlift : ((0 : ℤ) - ((n.log2 : ℤ) - 52)).toNat = 52 - n.log2 := by omega
  have hsize := log2_shiftLeft hn (52 - n.log2)
  have hshift : (n <<< (52 - n.log2)).log2 - 52 = n.log2 - 52 := by omega
  have hfirst := @shiftToTargetExponent_exact (n <<< (52 - n.log2))
    ((0 : ℤ) - (52 - n.log2 : ℕ)) (by rw [totalExponent]; omega)
  rw [hshift] at hfirst
  have hexponent : (0 : ℤ) - (52 - n.log2 : ℕ) + (n.log2 - 52 : ℕ) = n.log2 - 52 := by omega
  rw [UnpackedFloat.round, htarget, decreaseExponent, hlift]
  obtain ⟨hmantissa, hlast⟩ := shiftToTargetExponent_significand hn
  have hpositive : (scaled n).2 ≠ 0 := by have := scaled_bounds hn; omega
  rw [significand] at hmantissa hlast
  simp only [roundWithAccuracy, hfirst, hexponent, hmantissa, hlast, hpositive, dif_neg,
    not_false_eq_true]

/-! ## Widened integers -/

theorem scaled_exponent_bounds (n : Int64) :
    -1074 ≤ (scaled n.toInt.natAbs).1 ∧ (scaled n.toInt.natAbs).1 ≤ 971 := by
  have hlow := n.minValue_le_toInt
  have hhigh := n.toInt_le
  have hsize : n.toInt.natAbs.log2 < 64 := by
    by_cases hzero : n.toInt.natAbs = 0
    · rw [hzero]
      decide
    · rw [Nat.log2_lt hzero]
      rw [Int64.toInt_minValue] at hlow
      rw [Int64.toInt_maxValue] at hhigh
      omega
  rw [scaled]
  split <;> simp only <;> omega

/-- The rank of a widened integer: that of its magnitude, turned round for a negative one. -/
def widenedRank (n : ℤ) : ℤ ×ₗ ℤ ×ₗ ℤ :=
  let magnitude := scaled n.natAbs
  if n = 0 then toLex (0, toLex (0, 0))
  else if n < 0 then toLex (-1, toLex (-magnitude.1, -magnitude.2))
  else toLex (1, toLex (magnitude.1, magnitude.2))

theorem unpack_pack_round (sign : Sign) {n : Int64} (hn : n.toInt.natAbs ≠ 0) :
    ∃ hpositive,
      (Float.Model.pack (UnpackedFloat.round Format.binary64 sign n.toInt.natAbs 0)).unpack =
        .finite sign (scaled n.toInt.natAbs).2 (scaled n.toInt.natAbs).1 hpositive := by
  obtain ⟨hlow, hhigh⟩ := scaled_bounds hn
  obtain ⟨hleast, hmost⟩ := scaled_exponent_bounds n
  rw [round_eq hn]
  exact ⟨_, unpack_pack_finite sign _ hlow hhigh hleast hmost⟩

/-- A widened integer is a number, and its rank is known. -/
theorem widen_spec (n : Int64) :
    (widen n).toModel.unpack.isNaN = false ∧
      unpackedRank (widen n).toModel.unpack = widenedRank n.toInt := by
  change (Float.Model.pack
      (UnpackedFloat.normalize Format.binary64 n.toInt 0 .positive)).unpack.isNaN = false ∧
    unpackedRank (Float.Model.pack
      (UnpackedFloat.normalize Format.binary64 n.toInt 0 .positive)).unpack = _
  rw [UnpackedFloat.normalize, widenedRank]
  obtain hn | hn | hn := lt_trichotomy n.toInt 0
  · obtain ⟨hpositive, hunpack⟩ := unpack_pack_round .negative (n := n) (by omega)
    have hmagnitude : (-n.toInt).toNat = n.toInt.natAbs := by omega
    rw [compare_lt_iff_lt.mpr hn, if_neg hn.ne, if_pos hn, hmagnitude, hunpack]
    exact ⟨rfl, rfl⟩
  · have hunpack : (Float.Model.pack (.zero .positive)).unpack = .zero .positive := by
      with_unfolding_all rfl
    rw [compare_eq_iff_eq.mpr hn, if_pos hn, hunpack]
    exact ⟨rfl, rfl⟩
  · obtain ⟨hpositive, hunpack⟩ := unpack_pack_round .positive (n := n) (by omega)
    have hmagnitude : n.toInt.toNat = n.toInt.natAbs := by omega
    rw [compare_gt_iff_gt.mpr hn, if_neg hn.ne', if_neg hn.not_gt, hmagnitude, hunpack]
    exact ⟨rfl, rfl⟩

/-- Widening keeps the order, but for integers that come to one float. -/
theorem widenedRank_le {m n : ℤ} (hle : m ≤ n) : widenedRank m ≤ widenedRank n := by
  simp only [widenedRank]
  split
  · split
    · exact le_rfl
    · rw [if_neg (by omega)]
      simp [Prod.Lex.toLex_le_toLex]
  · split
    · split
      · simp [Prod.Lex.toLex_le_toLex]
      · split
        · -- Among negative integers the greater one has the smaller magnitude.
          have hscaled := scaled_le (m := n.natAbs) (n := m.natAbs) (by omega) (by omega)
          rw [Prod.Lex.toLex_le_toLex] at hscaled
          simp only [Prod.Lex.toLex_le_toLex, lt_irrefl, true_and, false_or]
          omega
        · simp [Prod.Lex.toLex_le_toLex]
    · have hscaled := scaled_le (m := m.natAbs) (n := n.natAbs) (by omega) (by omega)
      rw [Prod.Lex.toLex_le_toLex] at hscaled
      rw [if_neg (by omega), if_neg (by omega)]
      simp only [Prod.Lex.toLex_le_toLex, lt_irrefl, true_and, false_or]
      omega

/-! ## Order of floats -/

def floatRank (value : Float) : ℤ ×ₗ ℤ ×ₗ ℤ :=
  unpackedRank value.toModel.unpack

theorem isNaN_of_compareFloats? {left right : Float} {order : Ordering}
    (horder : compareFloats? left right = some order) :
    left.isNaN = false ∧ right.isNaN = false := by
  change UnpackedFloat.compare left.toModel.unpack right.toModel.unpack = some order at horder
  change left.toModel.unpack.isNaN = false ∧ right.toModel.unpack.isNaN = false
  cases hleft : left.toModel.unpack with
  | notANumber =>
    rw [hleft] at horder
    cases horder
  | infinity _ | zero _ | finite _ _ _ _ =>
    refine ⟨rfl, ?_⟩
    cases hright : right.toModel.unpack with
    | notANumber =>
      rw [hleft, hright] at horder
      cases horder
    | infinity _ | zero _ | finite _ _ _ _ => rfl

theorem compareFloats?_eq_lt_iff {left right : Float} :
    compareFloats? left right = some .lt ↔
      left.isNaN = false ∧ right.isNaN = false ∧ floatRank left < floatRank right := by
  constructor
  · intro horder
    obtain ⟨hleft, hright⟩ := isNaN_of_compareFloats? horder
    exact ⟨hleft, hright, (compare_eq_lt_iff hleft hright).mp horder⟩
  · rintro ⟨hleft, hright, hless⟩
    exact (compare_eq_lt_iff hleft hright).mpr hless

/-! ## Numerals -/

theorem isNaN_pack (hnumber : value.isNaN = false) : (Float.ofModel (.pack value)).isNaN = false :=
  isNaN_unpack_pack hnumber

theorem isNaN_widen (n : Int64) : (widen n).isNaN = false :=
  (widen_spec n).1

theorem isNaN_roundWithAccuracy (sign : Sign) (mantissa : ℕ) (exponent : ℤ) (accuracy : Accuracy) :
    (roundWithAccuracy Format.binary64 sign mantissa exponent accuracy).isNaN = false := by
  simp only [roundWithAccuracy]
  split <;> rfl

theorem isNaN_div_finite {left : UnpackedFloat} (hleft : left.isNaN = false) (sign : Sign)
    {mantissa : ℕ} (exponent : ℤ) (hpositive : 0 < mantissa) :
    (div Format.binary64 left (.finite sign mantissa exponent hpositive)).isNaN = false := by
  cases left with
  | notANumber => cases hleft
  | infinity _ | zero _ => rfl
  | finite _ _ _ _ => exact isNaN_roundWithAccuracy _ _ _ _

theorem isNaN_unpacked_ofScientific (m : ℕ) (e : ℤ) :
    (ofScientific Format.binary64 m e).isNaN = false := by
  rw [ofScientific]
  split
  · rfl
  · split
    · rfl
    · split
      · rfl
      · split
        · exact isNaN_roundWithAccuracy _ _ _ _
        · exact isNaN_roundWithAccuracy _ _ _ _

theorem isNaN_neg {value : Float} (hvalue : value.isNaN = false) : (-value).isNaN = false := by
  refine @isNaN_pack value.toModel.unpack.neg ?_
  change value.toModel.unpack.isNaN = false at hvalue
  cases hunpack : value.toModel.unpack with
  | notANumber =>
    rw [hunpack] at hvalue
    cases hvalue
  | infinity _ | zero _ | finite _ _ _ _ => rfl

/-- Dividing by such a float gives a number for every number. -/
def isNonzero : UnpackedFloat → Bool
  | .finite _ _ _ _ => true
  | _ => false

theorem isNonzero_powerOfTen :
    ∀ power ∈ Float.exactlyRepresentablePowersOfTen.toList,
      isNonzero power.toModel.unpack = true := by
  decide +kernel

theorem isNaN_ofUInt64 (n : UInt64) :
    (ofUInt64 Format.binary64 n).isNaN = false := by
  change (UnpackedFloat.normalize Format.binary64 n.toNat 0 .positive).isNaN = false
  rw [UnpackedFloat.normalize]
  split
  · exact isNaN_roundWithAccuracy _ _ _ _
  · rfl
  · exact isNaN_roundWithAccuracy _ _ _ _

theorem isNaN_div {left right : Float} (hleft : left.isNaN = false)
    (hright : isNonzero right.toModel.unpack = true) : (left / right).isNaN = false := by
  refine @isNaN_pack (div Format.binary64 left.toModel.unpack right.toModel.unpack) ?_
  cases hunpack : right.toModel.unpack with
  | finite sign mantissa exponent hpositive => exact isNaN_div_finite hleft sign exponent hpositive
  | notANumber | infinity _ | zero _ =>
    rw [hunpack] at hright
    cases hright

theorem isNaN_ofScientific (m e : ℕ) : (Float.ofScientific m true e).isNaN = false := by
  rw [Float.ofScientific]
  split
  · exact isNaN_div (isNaN_pack (isNaN_ofUInt64 _))
      (isNonzero_powerOfTen _ (Array.getElem_mem_toList _))
  · exact isNaN_pack (isNaN_unpacked_ofScientific m _)

/-- No decimal is read as a float that is no number. -/
theorem isNaN_readFloat (negative : Bool) (whole fraction : List Char) :
    (readFloat negative whole fraction).isNaN = false := by
  have hmagnitude := isNaN_ofScientific (digitsValue (whole ++ fraction)) fraction.length
  cases negative with
  | false => exact hmagnitude
  | true => exact isNaN_neg hmagnitude

end Logo
