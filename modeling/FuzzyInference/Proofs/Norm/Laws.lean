import FuzzyInference.Proofs.Norm.Value
import Mathlib.Algebra.Order.Group.MinMax

/-!
The laws of norms, which hold up to a tolerance, and two ways from norms to norms. A T-norm may be
cut off to zero below a boundary that is commutative and monotone, if less than the tolerance is lost
against one; and complements turn a T-norm into an S-norm. The built-in T-norms are five norms that
obey the laws exactly, and cuts of two of them.
-/
namespace FuzzyInference

variable {K : Type} [Field K] [LinearOrder K] [IsStrictOrderedRing K] {ε : K}

/-- On the unit interval the function is commutative, at most the smaller operand and monotone, and
it has one as its neutral element up to the tolerance. -/
structure IsTNorm (ε : K) (f : K → K → K) : Prop where
  comm : ∀ a ∈ Set.Icc (0 : K) 1, ∀ b ∈ Set.Icc (0 : K) 1, f a b = f b a
  nonneg : ∀ a ∈ Set.Icc (0 : K) 1, ∀ b ∈ Set.Icc (0 : K) 1, 0 ≤ f a b
  le_min : ∀ a ∈ Set.Icc (0 : K) 1, ∀ b ∈ Set.Icc (0 : K) 1, f a b ≤ min a b
  mono : ∀ a ∈ Set.Icc (0 : K) 1, ∀ a' ∈ Set.Icc (0 : K) 1, ∀ b ∈ Set.Icc (0 : K) 1,
    a ≤ a' → f a b ≤ f a' b
  one : ∀ a ∈ Set.Icc (0 : K) 1, |f a 1 - a| < ε

/-- On the unit interval the function is commutative, at least the greater operand and monotone, and
it has zero as its neutral element up to the tolerance. -/
structure IsSNorm (ε : K) (f : K → K → K) : Prop where
  comm : ∀ a ∈ Set.Icc (0 : K) 1, ∀ b ∈ Set.Icc (0 : K) 1, f a b = f b a
  max_le : ∀ a ∈ Set.Icc (0 : K) 1, ∀ b ∈ Set.Icc (0 : K) 1, max a b ≤ f a b
  mono : ∀ a ∈ Set.Icc (0 : K) 1, ∀ a' ∈ Set.Icc (0 : K) 1, ∀ b ∈ Set.Icc (0 : K) 1,
    a ≤ a' → f a b ≤ f a' b
  zero : ∀ a ∈ Set.Icc (0 : K) 1, |f a 0 - a| < ε

/-- The function does not exceed one on the unit interval. -/
def IsBounded (f : K → K → K) : Prop :=
  ∀ a ∈ Set.Icc (0 : K) 1, ∀ b ∈ Set.Icc (0 : K) 1, f a b ≤ 1

/-- The complement of the function of the complements. -/
def complemented (f : K → K → K) (a b : K) : K := 1 - f (1 - a) (1 - b)

/-! ### Norms from norms -/

theorem one_sub_mem {a : K} (ha : a ∈ Set.Icc (0 : K) 1) : 1 - a ∈ Set.Icc (0 : K) 1 :=
  ⟨sub_nonneg.mpr ha.2, sub_le_self 1 ha.1⟩

/-- A T-norm may be cut off below a boundary that has each operand next to one above it, but for
those less than the tolerance. -/
theorem isTNorm_cutOff {f : K → K → K} (h : IsTNorm ε f) {keeps : K → K → Prop}
    [DecidableRel keeps] (hcomm : ∀ a b, keeps a b ↔ keeps b a)
    (hmono : ∀ a ∈ Set.Icc (0 : K) 1, ∀ a' ∈ Set.Icc (0 : K) 1, ∀ b ∈ Set.Icc (0 : K) 1,
      a ≤ a' → keeps a b → keeps a' b)
    (hone : ∀ a ∈ Set.Icc (0 : K) 1, ¬ keeps a 1 → a < ε) : IsTNorm ε (cutOff keeps f) where
  comm a ha b hb := by
    simp only [cutOff, hcomm a b, h.comm a ha b hb]
  nonneg a ha b hb := by
    unfold cutOff
    split
    · exact h.nonneg a ha b hb
    · exact le_rfl
  le_min a ha b hb := by
    unfold cutOff
    split
    · exact h.le_min a ha b hb
    · exact le_min ha.1 hb.1
  mono a ha a' ha' b hb hle := by
    unfold cutOff
    by_cases hkeeps : keeps a b
    · rw [if_pos hkeeps, if_pos (hmono a ha a' ha' b hb hle hkeeps)]
      exact h.mono a ha a' ha' b hb hle
    · rw [if_neg hkeeps]
      split
      · exact h.nonneg a' ha' b hb
      · exact le_rfl
  one a ha := by
    unfold cutOff
    split
    · exact h.one a ha
    · next hkeeps =>
      rw [zero_sub, abs_neg, abs_of_nonneg ha.1]
      exact hone a ha hkeeps

/-- Complements turn a T-norm into an S-norm. -/
theorem isSNorm_complemented {f : K → K → K} (h : IsTNorm ε f) : IsSNorm ε (complemented f) where
  comm a ha b hb := by
    rw [complemented, complemented, h.comm _ (one_sub_mem ha) _ (one_sub_mem hb)]
  max_le a ha b hb := by
    have hmin := h.le_min _ (one_sub_mem ha) _ (one_sub_mem hb)
    rw [min_sub_sub_left] at hmin
    exact le_sub_comm.mp hmin
  mono a ha a' ha' b hb hle := by
    have hcomplements : 1 - a' ≤ 1 - a := sub_le_sub_left hle 1
    exact sub_le_sub_left
      (h.mono _ (one_sub_mem ha') _ (one_sub_mem ha) _ (one_sub_mem hb) hcomplements) 1
  zero a ha := by
    rw [complemented, sub_zero, sub_right_comm, abs_sub_comm]
    exact h.one _ (one_sub_mem ha)

theorem isBounded_complemented {f : K → K → K} (h : IsTNorm ε f) : IsBounded (complemented f) :=
  fun _ ha _ hb => sub_le_self 1 (h.nonneg _ (one_sub_mem ha) _ (one_sub_mem hb))

/-! ### T-norms -/

/-- A commutative function that is at most the left operand and has one as its neutral element is a
T-norm if it is monotone. -/
theorem isTNorm_of_exact (hε : 0 < ε) {f : K → K → K} (hcomm : ∀ a b, f a b = f b a)
    (hnonneg : ∀ a ∈ Set.Icc (0 : K) 1, ∀ b ∈ Set.Icc (0 : K) 1, 0 ≤ f a b)
    (hle : ∀ a ∈ Set.Icc (0 : K) 1, ∀ b ∈ Set.Icc (0 : K) 1, f a b ≤ a)
    (hmono : ∀ a ∈ Set.Icc (0 : K) 1, ∀ a' ∈ Set.Icc (0 : K) 1, ∀ b ∈ Set.Icc (0 : K) 1,
      a ≤ a' → f a b ≤ f a' b)
    (hone : ∀ a ∈ Set.Icc (0 : K) 1, f a 1 = a) : IsTNorm ε f where
  comm a _ b _ := hcomm a b
  nonneg := hnonneg
  le_min a ha b hb := le_min (hle a ha b hb) ((hcomm a b).trans_le (hle b hb a ha))
  mono := hmono
  one a ha := by rwa [hone a ha, sub_self, abs_zero]

theorem isTNorm_product (hε : 0 < ε) : IsTNorm ε fun a b : K => a * b :=
  isTNorm_of_exact hε mul_comm (fun _ ha _ hb => mul_nonneg ha.1 hb.1)
    (fun _ ha _ hb => mul_le_of_le_one_right ha.1 hb.2)
    (fun _ _ _ _ _ hb hle => mul_le_mul_of_nonneg_right hle hb.1) fun a _ => mul_one a

theorem isTNorm_boundedDifference (hε : 0 < ε) : IsTNorm ε fun a b : K => max 0 (a + b - 1) := by
  refine isTNorm_of_exact hε (fun a b => by rw [add_comm]) (fun a _ b _ => le_max_left 0 _)
    (fun a ha b hb => max_le ha.1 (by linarith [hb.2]))
    (fun a _ a' _ b _ hle => max_le_max_left 0 (by linarith)) fun a ha => ?_
  rw [add_sub_cancel_right, max_eq_right ha.1]

theorem isTNorm_min (hε : 0 < ε) : IsTNorm ε (min : K → K → K) :=
  isTNorm_of_exact hε min_comm (fun _ ha _ hb => le_min ha.1 hb.1)
    (fun a _ b _ => min_le_left a b) (fun _ _ _ _ b _ hle => min_le_min_right b hle)
    fun _ ha => min_eq_left ha.2

/-- The numerator grows with an operand, and the divisor, which is at least one, falls. -/
theorem isTNorm_einstein (hε : 0 < ε) :
    IsTNorm ε fun a b : K => a * b / (1 + (1 - a) * (1 - b)) := by
  have hdivisor : ∀ a ∈ Set.Icc (0 : K) 1, ∀ b ∈ Set.Icc (0 : K) 1,
      1 ≤ 1 + (1 - a) * (1 - b) := fun a ha b hb =>
    le_add_of_nonneg_right (mul_nonneg (sub_nonneg.mpr ha.2) (sub_nonneg.mpr hb.2))
  refine isTNorm_of_exact hε (fun a b => by rw [mul_comm, mul_comm (1 - a)]) (fun a ha b hb => ?_)
    (fun a ha b hb => ?_) (fun a ha a' ha' b hb hle => ?_) fun a _ => ?_
  · exact div_nonneg (mul_nonneg ha.1 hb.1) (zero_le_one.trans (hdivisor a ha b hb))
  · have hd := hdivisor a ha b hb
    refine div_le_of_le_mul₀ (zero_le_one.trans hd) ha.1 ?_
    exact mul_le_mul_of_nonneg_left (hb.2.trans hd) ha.1
  · have hcomplements : (1 - a') * (1 - b) ≤ (1 - a) * (1 - b) :=
      mul_le_mul_of_nonneg_right (sub_le_sub_left hle 1) (sub_nonneg.mpr hb.2)
    exact div_le_div₀ (mul_nonneg ha'.1 hb.1) (mul_le_mul_of_nonneg_right hle hb.1)
      (zero_lt_one.trans_le (hdivisor a' ha' b hb)) (add_le_add_right hcomplements 1)
  · rw [mul_one, sub_self, mul_zero, add_zero, div_one]

/-- With a common divisor the quotients of two operands differ by the square of the other operand. -/
theorem isTNorm_hamacher (hε : 0 < ε) : IsTNorm ε (hamacher : K → K → K) := by
  have hmul : ∀ a ∈ Set.Icc (0 : K) 1, ∀ b ∈ Set.Icc (0 : K) 1, 0 ≤ a * b :=
    fun a ha b hb => mul_nonneg ha.1 hb.1
  have hdivisor : ∀ a ∈ Set.Icc (0 : K) 1, ∀ b ∈ Set.Icc (0 : K) 1, b ≤ a + b - a * b := by
    intro a ha b hb
    nlinarith [mul_nonneg ha.1 (sub_nonneg.mpr hb.2)]
  refine isTNorm_of_exact hε (fun a b => by rw [hamacher, hamacher, mul_comm, add_comm])
    (fun a ha b hb => ?_) (fun a ha b hb => ?_) (fun a ha a' ha' b hb hle => ?_) fun a _ => ?_
  · exact div_nonneg (hmul a ha b hb) (hb.1.trans (hdivisor a ha b hb))
  · refine div_le_of_le_mul₀ (hb.1.trans (hdivisor a ha b hb)) ha.1 ?_
    exact mul_le_mul_of_nonneg_left (hdivisor a ha b hb) ha.1
  · unfold hamacher
    obtain hb₀ | hb₀ := hb.1.eq_or_lt
    · simp only [← hb₀, mul_zero, zero_div, le_refl]
    · rw [div_le_div_iff₀ (hb₀.trans_le (hdivisor a ha b hb))
        (hb₀.trans_le (hdivisor a' ha' b hb))]
      nlinarith [mul_nonneg (sub_nonneg.mpr hle) (mul_nonneg hb.1 hb.1)]
  · rw [hamacher, mul_one, add_sub_cancel_left, div_one]

theorem TNorm.isTNorm_value (hε : 0 < ε) (hε' : ε < 1) {norm : TNorm (Exact K)}
    (h : norm ∈ builtins) : IsTNorm ε (norm.value ε) := by
  cases norm with
  | algebraicProduct => exact isTNorm_product hε
  | boundedDifference => exact isTNorm_boundedDifference hε
  | drasticProduct =>
    refine isTNorm_cutOff (isTNorm_min hε) (fun a b => by rw [max_comm])
      (fun a _ a' _ b _ hle hkeeps => hkeeps.trans_le (max_le_max_right b hle)) fun a ha hcut => ?_
    rw [max_eq_right ha.2] at hcut
    exact absurd (sub_lt_self 1 hε) hcut
  | einsteinProduct => exact isTNorm_einstein hε
  | hamacherProduct =>
    refine isTNorm_cutOff (isTNorm_hamacher hε) (fun a b => by rw [add_comm])
      (fun a _ a' _ b _ hle hkeeps => hkeeps.trans (by linarith)) fun a ha hcut => ?_
    exact absurd (hε'.le.trans (le_add_of_nonneg_left ha.1)) hcut
  | minimum => exact isTNorm_min hε
  | nilpotentMinimum =>
    refine isTNorm_cutOff (isTNorm_min hε) (fun a b => by rw [add_comm])
      (fun a _ a' _ b _ hle hkeeps => hkeeps.trans (by linarith)) fun a _ hcut => ?_
    rwa [add_sub_cancel_right, not_le] at hcut
  | formula norm => simp [builtins] at h
  | custom name combine => simp [builtins] at h

end FuzzyInference
