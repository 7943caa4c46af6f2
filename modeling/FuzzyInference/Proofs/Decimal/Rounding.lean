import Mathlib.Tactic.Ring
import FuzzyInference.Binary64.Basic

/-!
Rounding a quotient to a magnitude. The result depends on the value of the quotient alone, and a
magnitude is its own rounding.
-/
namespace FuzzyInference.Binary64

attribute [local instance (2000)] instPowNat

theorem roundDiv_mul_left {c : Nat} (hc : 0 < c) (n d : Nat) :
    roundDiv (c * n) (c * d) = roundDiv n d := by
  have hdouble : 2 * (c * (n % d)) = c * (2 * (n % d)) := by ring
  have hlt : c * d < c * (2 * (n % d)) ↔ d < 2 * (n % d) := Nat.mul_lt_mul_left hc
  have heq : c * (2 * (n % d)) = c * d ↔ 2 * (n % d) = d := Nat.mul_right_inj (by omega)
  simp only [roundDiv, Nat.mul_div_mul_left _ _ hc, Nat.mul_mod_mul_left, hdouble, hlt, heq]

theorem roundDiv_of_mul {d : Nat} (hd : 0 < d) (q : Nat) : roundDiv (q * d) d = q := by
  have hdiv : q * d / d = q := Nat.mul_div_cancel q hd
  have hmod : q * d % d = 0 := Nat.mul_mod_left q d
  simp only [roundDiv, hdiv, hmod]
  apply if_neg
  omega

/-- A factor of both sides of a quotient does not matter. -/
theorem nearest_mul_left {c : Nat} (hc : 0 < c) (n d : Nat) :
    nearest (c * n) (c * d) = nearest n d := by
  simp only [nearest, Nat.mul_assoc, Nat.mul_div_mul_left _ _ hc, roundDiv_mul_left hc]

/-! ### The value of a magnitude -/

theorem significand_lt (bits : Nat) : significand bits < 2 ^ (53 : Nat) := by
  unfold significand fractionWeight
  split <;> omega

/-- Below `fractionWeight` the step is the least one. -/
theorem le_significand_or_scale_eq_zero (bits : Nat) :
    fractionWeight ≤ significand bits ∨ scale bits = 0 := by
  unfold significand scale fractionWeight
  split <;> omega

theorem scale_mul_add_significand (bits : Nat) :
    scale bits * fractionWeight + significand bits = bits := by
  unfold significand scale fractionWeight
  split <;> omega

theorem significand_pos {bits : Nat} (h : 0 < bits) : 0 < significand bits := by
  unfold significand fractionWeight
  split <;> omega

theorem scale_le {bits : Nat} (h : bits < infinityBits) : scale bits ≤ 2045 := by
  unfold scale fractionWeight
  unfold infinityBits at h
  omega

theorem denominator_pos (bits : Nat) : 0 < denominator bits := Nat.two_pow_pos _

theorem two_pow_sub_mul (m n : Nat) : 2 ^ (m - n) * 2 ^ n = 2 ^ m * 2 ^ (n - m) := by
  rw [← Nat.pow_add, ← Nat.pow_add, show m - n + n = m + (n - m) by omega]

/-- In units of the least step the value of a magnitude is whole. -/
theorem numerator_mul (bits : Nat) : numerator bits * 2 ^ (1074 : Nat) =
    significand bits * 2 ^ scale bits * denominator bits := by
  rw [numerator, denominator, Nat.mul_assoc, two_pow_sub_mul (scale bits) 1074,
    Nat.mul_assoc]

/-- The step that is taken for the value of a magnitude is its own one. -/
theorem log2_significand_mul (bits : Nat) :
    Nat.log2 (significand bits * 2 ^ scale bits) + 1 - 53 = scale bits := by
  have hlt := significand_lt bits
  rcases le_significand_or_scale_eq_zero bits with hle | hscale
  · unfold fractionWeight at hle
    have hlog : Nat.log2 (significand bits * 2 ^ scale bits) = 52 + scale bits := by
      have hpos : 0 < 2 ^ scale bits := Nat.two_pow_pos _
      apply (Nat.log2_eq_iff (Nat.mul_ne_zero (by omega) (by omega))).mpr
      constructor
      · rw [Nat.pow_add]
        exact Nat.mul_le_mul_right _ hle
      · rw [show 52 + scale bits + 1 = 53 + scale bits by omega, Nat.pow_add]
        exact Nat.mul_lt_mul_of_pos_right hlt hpos
    omega
  · rw [hscale, Nat.pow_zero, Nat.mul_one]
    by_cases hzero : significand bits = 0
    · rw [hzero, Nat.log2_zero]
    · have hlog := (Nat.log2_lt hzero).mpr hlt
      omega

/-- A magnitude is the nearest one to its value. -/
theorem nearest_numerator {bits : Nat} (h : bits ≤ infinityBits) :
    nearest (numerator bits) (denominator bits) = bits := by
  have hpos : 0 < denominator bits * 2 ^ scale bits :=
    Nat.mul_pos (denominator_pos bits) (Nat.two_pow_pos _)
  have hquotient : significand bits * 2 ^ scale bits * denominator bits / denominator bits =
      significand bits * 2 ^ scale bits := Nat.mul_div_cancel _ (denominator_pos bits)
  have hround : roundDiv (significand bits * 2 ^ scale bits * denominator bits)
      (denominator bits * 2 ^ scale bits) = significand bits := by
    rw [Nat.mul_assoc, Nat.mul_comm (2 ^ scale bits)]
    exact roundDiv_of_mul hpos _
  simp only [nearest, numerator_mul, hquotient, log2_significand_mul, hround,
    scale_mul_add_significand]
  exact Nat.min_eq_left h

end FuzzyInference.Binary64
