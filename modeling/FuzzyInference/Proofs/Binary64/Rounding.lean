import FuzzyInference.Proofs.Binary64.Unpacked

/-!
Rounding in the core library. A mantissa is shifted right together with two bits that tell what has
been cut off, and these are enough to round to the nearest mantissa, the even one of two. Packed,
the result is the magnitude nearest to the quotient that the mantissa started from.
-/
namespace FuzzyInference.Binary64

attribute [local instance (2000)] instPowNat

open Float.Model Float.Model.UnpackedFloat

/-! ### Mantissas with two further bits -/

/-- The mantissa is the whole part of a quotient, and its two bits tell how the rest compares with a
half. -/
structure Represents (em : ExtendedMantissa) (n d : Nat) : Prop where
  mantissa : em.mantissa = n / d
  roundBit : em.roundBit = true ↔ d ≤ 2 * (n % d)
  stickyBit : em.stickyBit = true ↔ 2 * (n % d) ≠ 0 ∧ 2 * (n % d) ≠ d

theorem represents_ofMantissaAndAccuracy {d : Nat} (hd : 0 < d) (n : Nat) :
    Represents (.ofMantissaAndAccuracy (n / d) (accuracyOfFraction (n % d) d)) n d := by
  unfold accuracyOfFraction
  by_cases hzero : n % d = 0
  · rw [if_pos hzero]
    constructor <;> simp [ExtendedMantissa.ofMantissaAndAccuracy] <;> omega
  · rw [if_neg hzero]
    rcases Nat.lt_trichotomy (2 * (n % d)) d with hlt | heq | hgt
    · rw [Nat.compare_eq_lt.mpr hlt]
      constructor <;> simp [ExtendedMantissa.ofMantissaAndAccuracy] <;> omega
    · rw [Nat.compare_eq_eq.mpr heq]
      constructor <;> simp [ExtendedMantissa.ofMantissaAndAccuracy] <;> omega
    · rw [Nat.compare_eq_gt.mpr hgt]
      constructor <;> simp [ExtendedMantissa.ofMantissaAndAccuracy] <;> omega

namespace Represents

variable {em : ExtendedMantissa} {n d : Nat}

theorem shiftRightOne (h : Represents em n d) (hd : 0 < d) :
    Represents em.shiftRightOne n (d * 2) := by
  obtain ⟨hmantissa, hround, hsticky⟩ := h
  have hmod : n % (d * 2) = n % d + d * (n / d % 2) := Nat.mod_mul
  have hlt := Nat.mod_lt n hd
  have hbit : n / d % 2 = 0 ∨ n / d % 2 = 1 := Nat.mod_two_eq_zero_or_one _
  refine ⟨?_, ?_, ?_⟩
  · rw [ExtendedMantissa.shiftRightOne, hmantissa, Nat.div_div_eq_div_mul]
  · simp only [ExtendedMantissa.shiftRightOne, hmantissa, bne_iff_ne, hmod]
    rcases hbit with hbit | hbit <;> rw [hbit] <;> omega
  · simp only [ExtendedMantissa.shiftRightOne, Bool.or_eq_true, hround, hsticky, hmod]
    rcases hbit with hbit | hbit <;> rw [hbit] <;> omega

theorem shiftRight (h : Represents em n d) (hd : 0 < d) (k : Nat) :
    Represents (em >>> k) n (d * 2 ^ k) := by
  change Represents (k.repeat ExtendedMantissa.shiftRightOne em) n (d * 2 ^ k)
  induction k with
  | zero =>
    rw [Nat.pow_zero, Nat.mul_one]
    exact h
  | succ k ih =>
    have hpos : 0 < d * 2 ^ k := Nat.mul_pos hd (Nat.two_pow_pos k)
    rw [Nat.pow_succ, ← Nat.mul_assoc]
    exact ih.shiftRightOne hpos

theorem roundedMantissa (h : Represents em n d) : em.roundedMantissa = roundDiv n d := by
  obtain ⟨mantissa, roundBit, stickyBit⟩ := em
  obtain ⟨hmantissa, hround, hsticky⟩ := h
  have hparity : n / d % 2 = 0 ∨ n / d % 2 = 1 := Nat.mod_two_eq_zero_or_one _
  simp only at hmantissa hround hsticky
  subst hmantissa
  simp only [roundDiv, ExtendedMantissa.roundedMantissa]
  generalize n / d = q at *
  generalize n % d = r at *
  split
  · cases roundBit <;> cases stickyBit <;>
      simp [ExtendedMantissa.accuracy, Accuracy.roundToNearestEven] at hround hsticky ⊢ <;> omega
  · cases roundBit <;> cases stickyBit <;>
      simp [ExtendedMantissa.accuracy, Accuracy.roundToNearestEven] at hround hsticky ⊢ <;> omega

end Represents

/-! ### Rounding in units of the least magnitude -/

/-- How many binary digits of a whole number have no place in a significand. -/
def excess (q : Nat) : Nat := Nat.log2 q + 1 - 53

/-- The magnitude nearest to `n / d` times the least one. -/
def roundUnits (n d : Nat) : Nat :=
  min (excess (n / d) * fractionWeight + roundDiv n (d * 2 ^ excess (n / d))) infinityBits

theorem nearest_eq_roundUnits (n d : Nat) : nearest n d = roundUnits (n * 2 ^ (1074 : Nat)) d := rfl

theorem le_roundDiv (n d : Nat) : n / d ≤ roundDiv n d := by
  unfold roundDiv
  dsimp only
  split <;> omega

theorem roundDiv_le (n d : Nat) : roundDiv n d ≤ n / d + 1 := by
  unfold roundDiv
  dsimp only
  split <;> omega

theorem div_two_pow_lt {q k : Nat} (h : Nat.log2 q ≤ 52 + k) : q / 2 ^ k < 2 ^ 53 := by
  rw [Nat.div_lt_iff_lt_mul (Nat.two_pow_pos k), ← Nat.pow_add]
  have hlt : q < 2 ^ (Nat.log2 q + 1) := Nat.lt_log2_self
  exact lt_of_lt_of_le hlt (Nat.pow_le_pow_right (by decide) (by omega))

theorem le_div_two_pow {q k : Nat} (h : Nat.log2 q = 52 + k) : 2 ^ 52 ≤ q / 2 ^ k := by
  have hne : q ≠ 0 := by
    rintro rfl
    rw [Nat.log2_zero] at h
    omega
  rw [Nat.le_div_iff_mul_le (Nat.two_pow_pos k), ← Nat.pow_add, ← h]
  exact Nat.log2_self_le hne

/-- Where a quotient is shifted right to its significand, the rounded one may need one more digit,
and it fills its place unless nothing had to be shifted. -/
theorem roundDiv_shifted {n d k : Nat} (h : Nat.log2 (n / d) ≤ 52 + k) :
    roundDiv n (d * 2 ^ k) ≤ 2 ^ 53 ∧
      (Nat.log2 (n / d) = 52 + k → 2 ^ 52 ≤ roundDiv n (d * 2 ^ k)) := by
  have hquotient : n / (d * 2 ^ k) = n / d / 2 ^ k := (Nat.div_div_eq_div_mul n d (2 ^ k)).symm
  constructor
  · have hlt := div_two_pow_lt h
    rw [← hquotient] at hlt
    exact (roundDiv_le n _).trans hlt
  · intro heq
    have hle := le_div_two_pow heq
    rw [← hquotient] at hle
    exact hle.trans (le_roundDiv n _)

/-! ### Rounding in the core library -/

theorem targetExponent_eq (t : Int) : Format.binary64.targetExponent t = max (t - 53) (-1074) := by
  simp only [Format.targetExponent, Format.mantissaBits, Format.minExponent]
  norm_num

theorem targetExponent_binary64 (m : Nat) (e : Int) :
    Format.binary64.targetExponent (totalExponent m e) = max ((m.log2 : Int) + e - 52) (-1074) := by
  rw [targetExponent_eq, totalExponent]
  omega

theorem shiftToTargetExponent_of_lt {m : Nat} {e : Int} (hm : m < 2 ^ 53) (he : -1074 ≤ e) :
    shiftToTargetExponent Format.binary64 m e .exact = (⟨m, false, false⟩, e) := by
  have hlog : m.log2 ≤ 52 := by
    by_cases hzero : m = 0
    · simp [hzero]
    · have hlt := (Nat.log2_lt hzero).mpr hm
      omega
  have hshift : (max ((m.log2 : Int) + e - 52) (-1074) - e).toNat = 0 := by omega
  simp [shiftToTargetExponent, shiftToExponent, targetExponent_binary64, hshift,
    HShiftRight.hShiftRight, Nat.repeat, ExtendedMantissa.ofMantissaAndAccuracy]

theorem shiftToTargetExponent_two_pow {e : Int} (he : -1074 ≤ e) :
    shiftToTargetExponent Format.binary64 (2 ^ 53) e .exact =
      (⟨2 ^ 52, false, false⟩, e + 1) := by
  have hshift : (max ((53 : Int) + e - 52) (-1074) - e).toNat = 1 := by omega
  have hlog : Nat.log2 (2 ^ 53) = 53 := Nat.log2_two_pow
  simp only [shiftToTargetExponent, shiftToExponent, targetExponent_binary64, hlog, Nat.cast_ofNat,
    hshift]
  rfl

theorem roundWithAccuracy_eq (s : Sign) {n d k : Nat} (hd : 0 < d) {e t : Int}
    (ht : Format.binary64.targetExponent (totalExponent (n / d) e) = t) (hk : t = e + k) :
    roundWithAccuracy Format.binary64 s (n / d) e (accuracyOfFraction (n % d) d) =
      if h : roundDiv n (d * 2 ^ k) = 0 then .zero s
      else if roundDiv n (d * 2 ^ k) < 2 ^ 53 then
        .finite s (roundDiv n (d * 2 ^ k)) t (Nat.pos_of_ne_zero h)
      else .finite s (2 ^ 52) (t + 1) (by decide) := by
  have hround := ((represents_ofMantissaAndAccuracy hd n).shiftRight hd k).roundedMantissa
  have hshift : (t - e).toNat = k := by omega
  have hmin : -1074 ≤ t := by
    rw [← ht, targetExponent_binary64]
    omega
  have hfirst : shiftToTargetExponent Format.binary64 (n / d) e (accuracyOfFraction (n % d) d) =
      (ExtendedMantissa.ofMantissaAndAccuracy (n / d) (accuracyOfFraction (n % d) d) >>> k, t) := by
    simp only [shiftToTargetExponent, shiftToExponent, ht, hshift, ← hk]
  have hbounds : roundDiv n (d * 2 ^ k) ≤ 2 ^ 53 := by
    refine (roundDiv_shifted ?_).1
    rw [targetExponent_binary64] at ht
    omega
  simp only [roundWithAccuracy, hfirst, hround]
  by_cases hlt : roundDiv n (d * 2 ^ k) < 2 ^ 53
  · simp only [shiftToTargetExponent_of_lt hlt hmin, hlt, if_true]
  · have heq : roundDiv n (d * 2 ^ k) = 2 ^ 53 := by omega
    simp only [heq, shiftToTargetExponent_two_pow hmin]
    rfl

/-- Packed, a rounded quotient is a number of steps of its scale and a rounded significand. -/
theorem toNat_pack_roundWithAccuracy (s : Sign) {n d k step : Nat} (hd : 0 < d) {e : Int}
    (ht : Format.binary64.targetExponent (totalExponent (n / d) e) = step - 1074)
    (hk : (step : Int) - 1074 = e + k) :
    (UnpackedFloat.pack Format.binary64 (roundWithAccuracy Format.binary64 s (n / d) e
        (accuracyOfFraction (n % d) d))).toNat =
      signBit s + min (step * fractionWeight + roundDiv n (d * 2 ^ k)) infinityBits := by
  have hlog := ht
  rw [targetExponent_binary64] at hlog
  obtain ⟨hle, hfull⟩ := roundDiv_shifted (n := n) (d := d) (k := k) (by omega)
  have hcanonical : fractionWeight ≤ roundDiv n (d * 2 ^ k) ∨ step = 0 := by
    by_cases hstep : step = 0
    · exact .inr hstep
    · exact .inl (hfull (by omega))
  rw [roundWithAccuracy_eq s hd ht hk]
  by_cases hzero : roundDiv n (d * 2 ^ k) = 0
  · have hstep : step = 0 := by
      unfold fractionWeight at hcanonical
      omega
    rw [dif_pos hzero, hzero, hstep]
    exact toNat_packedZero s
  · rw [dif_neg hzero]
    by_cases hlt : roundDiv n (d * 2 ^ k) < 2 ^ 53
    · rw [if_pos hlt]
      exact toNat_pack_finite s (Nat.pos_of_ne_zero hzero) hlt hcanonical
    · have heq : roundDiv n (d * 2 ^ k) = 2 ^ 53 := by omega
      have hnext : (step : Int) - 1074 + 1 = ((step + 1 : Nat) : Int) - 1074 := by omega
      have hcarry : (step + 1) * fractionWeight + 2 ^ 52 = step * fractionWeight + 2 ^ 53 := by
        unfold fractionWeight
        omega
      have hfill : fractionWeight ≤ 2 ^ 52 := le_refl _
      rw [if_neg hlt, heq, hnext, toNat_pack_finite s (by decide) (by decide) (.inl hfill), hcarry]

/-! ### Scales -/

theorem log2_div_two (q : Nat) : Nat.log2 (q / 2) = Nat.log2 q - 1 := by
  by_cases h : 2 ≤ q
  · have hdef := Nat.log2_def q
    rw [if_pos h] at hdef
    omega
  · have hdef := Nat.log2_def q
    rw [if_neg h] at hdef
    rw [hdef, show q / 2 = 0 by omega, Nat.log2_zero]

theorem log2_div_two_pow (q j : Nat) : Nat.log2 (q / 2 ^ j) = Nat.log2 q - j := by
  induction j with
  | zero => simp
  | succ j ih =>
    rw [Nat.pow_succ, ← Nat.div_div_eq_div_mul, log2_div_two, ih]
    omega

theorem log2_mul_two_pow_div {n d : Nat} (h : n / d ≠ 0) (i : Nat) :
    Nat.log2 (n * 2 ^ i / d) = Nat.log2 (n / d) + i := by
  induction i with
  | zero => simp
  | succ i ih =>
    have hhalf : n * 2 ^ (i + 1) / d / 2 = n * 2 ^ i / d := by
      rw [Nat.div_div_eq_div_mul, Nat.pow_succ, ← Nat.mul_assoc]
      exact Nat.mul_div_mul_right _ _ (by decide)
    have hle : n / d ≤ n * 2 ^ i / d :=
      Nat.div_le_div_right (Nat.le_mul_of_pos_right n (Nat.two_pow_pos i))
    have hpos : 0 < n / d := Nat.pos_of_ne_zero h
    have hlarge : 2 ≤ n * 2 ^ (i + 1) / d := by omega
    have hdef := Nat.log2_def (n * 2 ^ (i + 1) / d)
    rw [if_pos hlarge, hhalf, ih] at hdef
    omega

/-- The exponent that the core library rounds to is that of the excess digits, counted from the
least one. -/
theorem targetExponent_eq_excess {n d i j : Nat} {e : Int} (hij : e + 1074 = (i : Int) - j)
    (hzero : i = 0 ∨ j = 0)
    (h : e ≤ Format.binary64.targetExponent (totalExponent (n / d) e)) :
    Format.binary64.targetExponent (totalExponent (n / d) e) =
      (excess (n * 2 ^ i / (d * 2 ^ j)) : Int) - 1074 := by
  rw [targetExponent_binary64] at h ⊢
  unfold excess
  rcases hzero with rfl | rfl
  · rw [Nat.pow_zero, Nat.mul_one, ← Nat.div_div_eq_div_mul, log2_div_two_pow]
    omega
  · rw [Nat.pow_zero, Nat.mul_one]
    by_cases hi : i = 0
    · rw [hi, Nat.pow_zero, Nat.mul_one]
      omega
    · have hne : n / d ≠ 0 := by
        intro heq
        rw [heq, Nat.log2_zero] at h
        omega
      rw [log2_mul_two_pow_div hne]
      omega

/-- The core library rounds to the nearest magnitude. -/
theorem toNat_pack_round (s : Sign) {n d i j : Nat} (hd : 0 < d) {e : Int}
    (hij : e + 1074 = (i : Int) - j) (hzero : i = 0 ∨ j = 0)
    (h : e ≤ Format.binary64.targetExponent (totalExponent (n / d) e)) :
    (UnpackedFloat.pack Format.binary64 (roundWithAccuracy Format.binary64 s (n / d) e
        (accuracyOfFraction (n % d) d))).toNat =
      signBit s + roundUnits (n * 2 ^ i) (d * 2 ^ j) := by
  have ht := targetExponent_eq_excess hij hzero h
  rw [ht] at h
  have hk : (excess (n * 2 ^ i / (d * 2 ^ j)) : Int) - 1074 =
      e + (excess (n * 2 ^ i / (d * 2 ^ j)) + j - i : Nat) := by omega
  have hround : roundDiv (n * 2 ^ i) (d * 2 ^ j * 2 ^ excess (n * 2 ^ i / (d * 2 ^ j))) =
      roundDiv n (d * 2 ^ (excess (n * 2 ^ i / (d * 2 ^ j)) + j - i)) := by
    have hfactor := roundDiv_mul_left (Nat.two_pow_pos i) n
      (d * 2 ^ (excess (n * 2 ^ i / (d * 2 ^ j)) + j - i))
    rw [← hfactor, Nat.mul_comm (2 ^ i) n, Nat.mul_left_comm, ← Nat.pow_add, Nat.mul_assoc,
      ← Nat.pow_add]
    congr 3
    omega
  rw [toNat_pack_roundWithAccuracy s hd ht hk, roundUnits, hround]

end FuzzyInference.Binary64
