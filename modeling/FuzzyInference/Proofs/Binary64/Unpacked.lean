import Mathlib
import FuzzyInference.Binary64.Instances
import FuzzyInference.Proofs.Decimal.Rounding

/-!
Numbers as the core library unpacks and packs them. A number that is defined is a sign and a
magnitude. It is unpacked to the significand and the scale of the magnitude, and packed again from
these; and the order of such numbers is that of their magnitudes with the sign.
-/
namespace FuzzyInference.Binary64

attribute [local instance (2000)] instPowNat

open Float.Model Float.Model.UnpackedFloat

/-- The sign of a number, as the core library has it. -/
def sign (x : Float) : Sign := if isNegative x then .negative else .positive

/-! ### Fields of a number -/

section Fields

variable (x : Float)

theorem toNat_exponent (b : BitVec 64) :
    (@unpackExponent Format.binary64 b).toNat = b.toNat / 2 ^ 52 % 2 ^ 11 := by
  simp [unpackExponent, Nat.shiftRight_eq_div_pow]

theorem toNat_fraction (b : BitVec 64) :
    (@unpackMantissa Format.binary64 b).toNat = b.toNat % 2 ^ 52 := by
  simp [unpackMantissa]

theorem toNat_unpackSign (b : BitVec 64) :
    (@unpackSign Format.binary64 b).toNat = b.toNat / 2 ^ 63 % 2 := by
  simp [unpackSign, Nat.shiftRight_eq_div_pow]

theorem ofBitVec_unpackSign :
    Sign.ofBitVec (@unpackSign Format.binary64 x.toBits.toBitVec) = sign x := by
  have hsign := toNat_unpackSign x.toBits.toBitVec
  have hlt := x.toBits.toNat_lt
  have hnat : x.toBits.toBitVec.toNat = x.toBits.toNat := rfl
  rw [hnat] at hsign
  unfold sign Sign.ofBitVec isNegative signWeight
  simp only [BitVec.toNat_eq, hsign, decide_eq_true_eq]
  by_cases h : 2 ^ 63 ≤ x.toBits.toNat
  · rw [if_pos h, if_neg]
    change ¬x.toBits.toNat / 2 ^ 63 % 2 = 0
    omega
  · rw [if_neg h, if_pos]
    change x.toBits.toNat / 2 ^ 63 % 2 = 0
    omega

theorem toNat_unpackExponent :
    (@unpackExponent Format.binary64 x.toBits.toBitVec).toNat = magnitude x / 2 ^ 52 := by
  have hexponent := toNat_exponent x.toBits.toBitVec
  have hnat : x.toBits.toBitVec.toNat = x.toBits.toNat := rfl
  rw [hexponent, hnat]
  unfold magnitude signWeight
  omega

theorem toNat_unpackMantissa :
    (@unpackMantissa Format.binary64 x.toBits.toBitVec).toNat = magnitude x % 2 ^ 52 := by
  have hfraction := toNat_fraction x.toBits.toBitVec
  have hnat : x.toBits.toBitVec.toNat = x.toBits.toNat := rfl
  rw [hfraction, hnat]
  unfold magnitude signWeight
  omega

theorem unpackExponent_eq_iff {n : Nat} (h : n < 2 ^ 11) :
    @unpackExponent Format.binary64 x.toBits.toBitVec = BitVec.ofNat 11 n ↔
      magnitude x / 2 ^ 52 = n := by
  rw [BitVec.toNat_eq, toNat_unpackExponent, BitVec.toNat_ofNat, Nat.mod_eq_of_lt h]

theorem unpackMantissa_eq_zero_iff :
    @unpackMantissa Format.binary64 x.toBits.toBitVec = BitVec.ofNat 52 0 ↔
      magnitude x % 2 ^ 52 = 0 := by
  rw [BitVec.toNat_eq, toNat_unpackMantissa]
  rfl

theorem exponentBias_binary64 : Format.binary64.exponentBias = 1023 := rfl

theorem toNat_implicit {w : Nat} (m : BitVec w) : (1#1 ++ m).toNat = 2 ^ w + m.toNat := by
  rw [BitVec.toNat_append, ← Nat.shiftLeft_add_eq_or_of_lt m.isLt]
  simp [Nat.shiftLeft_eq]

end Fields

/-! ### Numbers as the core library unpacks them -/

section Unpack

variable {x : Float}

theorem unpack_eq : x.toModel.unpack = UnpackedFloat.unpack Format.binary64 x.toBits.toBitVec := rfl

theorem unpack_of_zero (h : magnitude x = 0) : x.toModel.unpack = .zero (sign x) := by
  have hfull := mt (unpackExponent_eq_iff x (n := 2047) (by decide)).mp (by omega)
  have hexponent := (unpackExponent_eq_iff x (n := 0) (by decide)).mpr (by omega)
  have hmantissa := (unpackMantissa_eq_zero_iff x).mpr (by omega)
  rw [unpack_eq, UnpackedFloat.unpack, ofBitVec_unpackSign]
  exact (if_neg hfull).trans ((if_pos hexponent).trans (dif_pos hmantissa))

theorem unpack_of_finite (hpos : 0 < magnitude x) (h : magnitude x < infinityBits) :
    x.toModel.unpack = .finite (sign x) (significand (magnitude x))
      (scale (magnitude x) - 1074) (significand_pos hpos) := by
  have hfull := mt (unpackExponent_eq_iff x (n := 2047) (by decide)).mp
    (by unfold infinityBits at h; omega)
  rw [unpack_eq, UnpackedFloat.unpack, ofBitVec_unpackSign]
  by_cases hsub : magnitude x / 2 ^ 52 = 0
  · have hexponent := (unpackExponent_eq_iff x (n := 0) (by decide)).mpr hsub
    have hmantissa := mt (unpackMantissa_eq_zero_iff x).mp (by omega)
    refine (if_neg hfull).trans ((if_pos hexponent).trans ((dif_neg hmantissa).trans ?_))
    congr 1
    · rw [toNat_unpackMantissa, significand, fractionWeight, if_pos (by omega)]
      omega
    · rw [toNat_unpackExponent, exponentBias_binary64, scale, fractionWeight]
      push_cast
      omega
  · have hexponent := mt (unpackExponent_eq_iff x (n := 0) (by decide)).mp hsub
    refine (if_neg hfull).trans ((if_neg hexponent).trans ?_)
    congr 1
    · rw [toNat_implicit, toNat_unpackMantissa, significand, fractionWeight, if_neg (by omega)]
    · rw [toNat_unpackExponent, exponentBias_binary64, scale, fractionWeight]
      push_cast
      omega

theorem unpack_of_infinity (h : magnitude x = infinityBits) :
    x.toModel.unpack = .infinity (sign x) := by
  have hfull := (unpackExponent_eq_iff x (n := 2047) (by decide)).mpr
    (by unfold infinityBits at h; omega)
  have hmantissa := (unpackMantissa_eq_zero_iff x).mpr (by unfold infinityBits at h; omega)
  rw [unpack_eq, UnpackedFloat.unpack, ofBitVec_unpackSign]
  exact (if_pos hfull).trans (if_pos hmantissa)

theorem unpack_of_undefined (h : infinityBits < magnitude x) :
    x.toModel.unpack = .notANumber := by
  have hlt : magnitude x < 2 ^ 63 := Nat.mod_lt _ (by decide)
  have hfull := (unpackExponent_eq_iff x (n := 2047) (by decide)).mpr
    (by unfold infinityBits at h; omega)
  have hmantissa := mt (unpackMantissa_eq_zero_iff x).mp (by unfold infinityBits at h; omega)
  rw [unpack_eq, UnpackedFloat.unpack]
  exact (if_pos hfull).trans (if_neg hmantissa)

/-- The kinds of numbers that are defined, and what each of them is unpacked to. -/
inductive IsDefined (x : Float) : Prop
  | zero (h : magnitude x = 0) (hunpack : x.toModel.unpack = .zero (sign x))
  | finite (hpos : 0 < magnitude x) (hlt : magnitude x < infinityBits)
      (hunpack : x.toModel.unpack = .finite (sign x) (significand (magnitude x))
        (scale (magnitude x) - 1074) (significand_pos hpos))
  | infinity (h : magnitude x = infinityBits) (hunpack : x.toModel.unpack = .infinity (sign x))

theorem isDefined_of_le (h : magnitude x ≤ infinityBits) : IsDefined x := by
  rcases Nat.eq_zero_or_pos (magnitude x) with hzero | hpos
  · exact .zero hzero (unpack_of_zero hzero)
  · rcases Nat.lt_or_eq_of_le h with hlt | heq
    · exact .finite hpos hlt (unpack_of_finite hpos hlt)
    · exact .infinity heq (unpack_of_infinity heq)

theorem isNaN_eq_false_iff : x.isNaN = false ↔ magnitude x ≤ infinityBits := by
  change x.toModel.unpack.isNaN = false ↔ _
  by_cases h : magnitude x ≤ infinityBits
  · cases isDefined_of_le h with
    | zero _ hunpack => simp [hunpack, UnpackedFloat.isNaN, h]
    | finite _ _ hunpack => simp [hunpack, UnpackedFloat.isNaN, h]
    | infinity _ hunpack => simp [hunpack, UnpackedFloat.isNaN, h]
  · have hunpack := unpack_of_undefined (Nat.lt_of_not_le h)
    simp [hunpack, UnpackedFloat.isNaN, h]

theorem isInf_iff : x.isInf = true ↔ magnitude x = infinityBits := by
  change x.toModel.unpack.isInf = true ↔ _
  by_cases h : magnitude x ≤ infinityBits
  · cases isDefined_of_le h with
    | zero hzero hunpack =>
      have hpos : 0 < infinityBits := by decide
      have hne : magnitude x ≠ infinityBits := by omega
      simp [hunpack, UnpackedFloat.isInf, hne]
    | finite _ hlt hunpack => simp [hunpack, UnpackedFloat.isInf, Nat.ne_of_lt hlt]
    | infinity heq hunpack => simp [hunpack, UnpackedFloat.isInf, heq]
  · have hlt := Nat.lt_of_not_le h
    simp [unpack_of_undefined hlt, UnpackedFloat.isInf, Nat.ne_of_gt hlt]

theorem isFinite_iff : x.isFinite = true ↔ magnitude x < infinityBits := by
  change x.toModel.unpack.isFinite = true ↔ _
  by_cases h : magnitude x ≤ infinityBits
  · cases isDefined_of_le h with
    | zero hzero hunpack =>
      have hpos : 0 < infinityBits := by decide
      simp [hunpack, UnpackedFloat.isFinite, hzero, hpos]
    | finite _ hlt hunpack => simp [hunpack, UnpackedFloat.isFinite, hlt]
    | infinity heq hunpack => simp [hunpack, UnpackedFloat.isFinite, heq]
  · have hlt := Nat.lt_of_not_le h
    simp [unpack_of_undefined hlt, UnpackedFloat.isFinite, Nat.le_of_lt hlt]

theorem magnitude_lt (hnan : x.isNaN = false) (hinf : x.isInf = false) :
    magnitude x < infinityBits := by
  have hle := isNaN_eq_false_iff.mp hnan
  have hne := mt isInf_iff.mpr (by rw [hinf]; exact Bool.false_ne_true)
  omega

end Unpack

/-! ### Packing -/

/-- The bit of a sign in its place. -/
def signBit : Sign → Nat
  | .negative => signWeight
  | .positive => 0

theorem toNat_packComponents (s : Sign) (exponent : BitVec 11) (mantissa : BitVec 52) :
    (packComponents Format.binary64 s exponent mantissa).toNat =
      signBit s + exponent.toNat * 2 ^ 52 + mantissa.toNat := by
  have hexponent := exponent.isLt
  have hmantissa := mantissa.isLt
  unfold packComponents
  rw [BitVec.toNat_append, ← Nat.shiftLeft_add_eq_or_of_lt hmantissa, BitVec.toNat_append,
    ← Nat.shiftLeft_add_eq_or_of_lt hexponent, Nat.shiftLeft_eq, Nat.shiftLeft_eq]
  cases s with
  | negative =>
    simp only [Sign.toBitVec, signBit, signWeight]
    change (1 * 2 ^ 11 + _) * _ + _ = _
    omega
  | positive =>
    simp only [Sign.toBitVec, signBit]
    change (0 * 2 ^ 11 + _) * _ + _ = _
    omega

theorem toNat_packedInfinity (s : Sign) :
    (packedInfinity Format.binary64 s).toNat = signBit s + infinityBits := by
  rw [packedInfinity, toNat_packComponents]
  rfl

theorem toNat_packedZero (s : Sign) : (packedZero Format.binary64 s).toNat = signBit s := by
  rw [packedZero, toNat_packComponents]
  rfl

/-- A significand that fills its place, or one of the least scale, is packed as the magnitude that
it is the significand of. -/
theorem toNat_pack_finite (s : Sign) {m step : Nat} (hpos : 0 < m) (hlt : m < 2 ^ 53)
    (hcanonical : fractionWeight ≤ m ∨ step = 0) :
    (UnpackedFloat.pack Format.binary64 (.finite s m (step - 1074) hpos)).toNat =
      signBit s + min (step * fractionWeight + m) infinityBits := by
  have hbiased : ((step : Int) - 1074 + Format.binary64.exponentBias +
      (52 : Nat)).toNat = step + 1 := by
    rw [exponentBias_binary64]
    push_cast
    omega
  have hlog : m.log2 + 1 = Format.binary64.mantissaBits ↔ fractionWeight ≤ m := by
    have hle : 52 ≤ m.log2 ↔ 2 ^ 52 ≤ m := Nat.le_log2 (by omega)
    have hlt : m.log2 < 53 := (Nat.log2_lt (by omega)).mpr hlt
    unfold fractionWeight
    change m.log2 + 1 = 53 ↔ _
    omega
  unfold fractionWeight infinityBits at *
  unfold UnpackedFloat.pack
  simp only [hbiased, hlog]
  by_cases hlarge : 2 ^ 11 ≤ step + 1 + 1
  · rw [if_pos hlarge, toNat_packedInfinity, Nat.min_eq_right (by omega)]
    rfl
  · rw [if_neg hlarge, Nat.min_eq_left (by omega)]
    by_cases hnormal : 2 ^ 52 ≤ m
    · rw [if_pos hnormal, toNat_packComponents, BitVec.toNat_ofNat, BitVec.toNat_ofNat]
      omega
    · rw [if_neg hnormal, toNat_packComponents, BitVec.toNat_ofNat, BitVec.toNat_ofNat]
      omega

/-! ### Order -/

/-- The magnitude with its sign. Numbers that are defined are ordered by it. -/
def rank (x : Float) : Int := (sign x).apply (magnitude x)

/-- The number that is packed from what the core library computes. -/
def ofUnpacked (u : UnpackedFloat) : Float := .ofModel (Float.Model.pack u)

theorem magnitude_ofUnpacked {u : UnpackedFloat} {s : Sign} {bits : Nat} (hbits : bits < signWeight)
    (h : (UnpackedFloat.pack Format.binary64 u).toNat = signBit s + bits) :
    magnitude (ofUnpacked u) = bits ∧ sign (ofUnpacked u) = s := by
  have hnat : (ofUnpacked u).toBits.toNat = signBit s + bits := h
  unfold sign magnitude isNegative
  rw [hnat]
  cases s with
  | negative =>
    refine ⟨(Nat.add_mod_left _ _).trans (Nat.mod_eq_of_lt hbits), if_pos ?_⟩
    exact decide_eq_true (Nat.le_add_right _ _)
  | positive =>
    rw [signBit, Nat.zero_add]
    refine ⟨Nat.mod_eq_of_lt hbits, if_neg ?_⟩
    simpa using hbits

theorem natAbs_rank (x : Float) : (rank x).natAbs = magnitude x := by
  unfold rank
  cases sign x with
  | negative => exact Int.natAbs_neg _
  | positive => rfl

theorem sign_of_rank_pos {x : Float} (h : 0 < rank x) : sign x = .positive := by
  unfold rank at h
  cases hsign : sign x with
  | negative =>
    rw [hsign, Sign.apply] at h
    omega
  | positive => rfl

theorem rank_infinity : rank Scalar.infinity = infinityBits := by decide +kernel

theorem rank_neg_infinity : rank (-Scalar.infinity) = -infinityBits := by decide +kernel

theorem isNaN_infinity : Float.isNaN Scalar.infinity = false := by decide +kernel

theorem isNaN_neg_infinity : Float.isNaN (-Scalar.infinity) = false := by decide +kernel

theorem swap_compare (a b : Int) : (compare a b).swap = compare (-a) (-b) := by
  rcases Int.lt_trichotomy a b with hlt | heq | hgt
  · rw [Int.compare_eq_lt.mpr hlt, Int.compare_eq_gt.mpr (by omega)]
    rfl
  · rw [Int.compare_eq_eq.mpr heq, Int.compare_eq_eq.mpr (by omega)]
    rfl
  · rw [Int.compare_eq_gt.mpr hgt, Int.compare_eq_lt.mpr (by omega)]
    rfl

/-- A larger scale is that of a larger magnitude, and so is a larger significand of the same scale.
-/
theorem compare_scale_then (a b : Nat) :
    (compare ((scale a : Int) - 1074) (scale b - 1074)).then
      (compare (significand a) (significand b)) = compare (a : Int) b := by
  have ha := scale_mul_add_significand a
  have hb := scale_mul_add_significand b
  have halt := significand_lt a
  have hblt := significand_lt b
  have hacanonical := le_significand_or_scale_eq_zero a
  have hbcanonical := le_significand_or_scale_eq_zero b
  unfold fractionWeight at *
  rcases Nat.lt_trichotomy (scale a) (scale b) with hlt | heq | hgt
  · have hscale : compare ((scale a : Int) - 1074) (scale b - 1074) = .lt :=
      Int.compare_eq_lt.mpr (by omega)
    have hbits : compare (a : Int) b = .lt := Int.compare_eq_lt.mpr (by omega)
    rw [hscale, hbits]
    rfl
  · have hscale : compare ((scale a : Int) - 1074) (scale b - 1074) = .eq :=
      Int.compare_eq_eq.mpr (by omega)
    rw [hscale]
    rcases Nat.lt_trichotomy (significand a) (significand b) with hlt | hsame | hgt
    · rw [show compare (significand a) (significand b) = .lt from Nat.compare_eq_lt.mpr hlt]
      exact (Int.compare_eq_lt.mpr (by omega)).symm
    · rw [show compare (significand a) (significand b) = .eq from Nat.compare_eq_eq.mpr hsame]
      exact (Int.compare_eq_eq.mpr (by omega)).symm
    · rw [show compare (significand a) (significand b) = .gt from Nat.compare_eq_gt.mpr hgt]
      exact (Int.compare_eq_gt.mpr (by omega)).symm
  · have hscale : compare ((scale a : Int) - 1074) (scale b - 1074) = .gt :=
      Int.compare_eq_gt.mpr (by omega)
    have hbits : compare (a : Int) b = .gt := Int.compare_eq_gt.mpr (by omega)
    rw [hscale, hbits]
    rfl

/-- Numbers that are defined are compared by their ranks. -/
theorem compare_unpack {x y : Float} (hx : magnitude x ≤ infinityBits)
    (hy : magnitude y ≤ infinityBits) :
    x.toModel.unpack.compare y.toModel.unpack = some (compare (rank x) (rank y)) := by
  have hlt : ∀ {a b : Int}, a < b → some Ordering.lt = some (compare a b) :=
    fun h => congrArg some (Int.compare_eq_lt.mpr h).symm
  have hgt : ∀ {a b : Int}, b < a → some Ordering.gt = some (compare a b) :=
    fun h => congrArg some (Int.compare_eq_gt.mpr h).symm
  have heq : ∀ {a b : Int}, a = b → some Ordering.eq = some (compare a b) :=
    fun h => congrArg some (Int.compare_eq_eq.mpr h).symm
  have hsame := compare_scale_then (magnitude x) (magnitude y)
  have hinf : 0 < infinityBits := by decide
  unfold rank
  rcases isDefined_of_le hx with ⟨hx, hunpack⟩ | ⟨hxpos, hx, hunpack⟩ | ⟨hx, hunpack⟩ <;>
    rcases isDefined_of_le hy with ⟨hy, hunpack'⟩ | ⟨hypos, hy, hunpack'⟩ | ⟨hy, hunpack'⟩ <;>
    rw [hunpack, hunpack'] <;> cases sign x <;> cases sign y
  -- Only two finite numbers of the same sign are compared by their scales and significands.
  all_goals first
    | exact hlt (by simp only [Sign.apply]; omega)
    | exact hgt (by simp only [Sign.apply]; omega)
    | exact heq (by simp only [Sign.apply]; omega)
    | exact congrArg some hsame
    | exact congrArg some ((congrArg Ordering.swap hsame).trans (swap_compare _ _))

theorem compare_unpack_eq_none {x y : Float} (h : x.isNaN = true ∨ y.isNaN = true) :
    x.toModel.unpack.compare y.toModel.unpack = none := by
  have hunpack : ∀ z : Float, z.isNaN = true → z.toModel.unpack = .notANumber := by
    intro z hz
    refine unpack_of_undefined (Nat.lt_of_not_le fun hle => ?_)
    rw [isNaN_eq_false_iff.mpr hle] at hz
    cases hz
  obtain h | h := h
  · rw [hunpack x h]
    rfl
  · rw [hunpack y h]
    cases x.toModel.unpack <;> rfl

section Compare

variable {x y : Float}

theorem lt_iff (hx : x.isNaN = false) (hy : y.isNaN = false) :
    Scalar.lt x y = true ↔ rank x < rank y := by
  have hcompare := compare_unpack (isNaN_eq_false_iff.mp hx) (isNaN_eq_false_iff.mp hy)
  change decide (decide (x.toModel.unpack.lt y.toModel.unpack = true) = true) = true ↔ _
  rw [decide_eq_true_iff, decide_eq_true_iff, UnpackedFloat.lt, hcompare]
  simp [Int.compare_eq_lt]

theorem le_iff (hx : x.isNaN = false) (hy : y.isNaN = false) :
    Scalar.le x y = true ↔ rank x ≤ rank y := by
  have hcompare := compare_unpack (isNaN_eq_false_iff.mp hx) (isNaN_eq_false_iff.mp hy)
  change decide (decide (x.toModel.unpack.le y.toModel.unpack = true) = true) = true ↔ _
  rw [decide_eq_true_iff, decide_eq_true_iff, UnpackedFloat.le, hcompare]
  simp [Int.isLE_compare]

theorem eq_iff (hx : x.isNaN = false) (hy : y.isNaN = false) :
    Scalar.eq x y = true ↔ rank x = rank y := by
  have hcompare := compare_unpack (isNaN_eq_false_iff.mp hx) (isNaN_eq_false_iff.mp hy)
  change x.toModel.unpack.beq y.toModel.unpack = true ↔ _
  rw [UnpackedFloat.beq, hcompare]
  simp

/-- Undefined values are not ordered. -/
theorem isNaN_of_le (h : Scalar.le x y = true) : x.isNaN = false ∧ y.isNaN = false := by
  have hdefined : ¬(x.isNaN = true ∨ y.isNaN = true) := by
    intro hundefined
    change decide (decide (x.toModel.unpack.le y.toModel.unpack = true) = true) = true at h
    rw [decide_eq_true_iff, decide_eq_true_iff, UnpackedFloat.le,
      compare_unpack_eq_none hundefined] at h
    cases h
  simpa [not_or] using hdefined

end Compare

end FuzzyInference.Binary64
