import FuzzyInference.Proofs.Exact.Unit
import Mathlib.Data.Rat.Sqrt
import Mathlib.Tactic.Ring

/-!
The values of the built-in norms over exact numbers. With a positive tolerance two numbers are equal
if they are closer than it, and ordered otherwise, so each guard of a norm is an inequality with the
tolerance in it; and for degrees every quotient that a guard admits has a divisor other than zero.
-/
namespace FuzzyInference

/-- The quotient of the roots of numerator and denominator, which are whole numbers. -/
instance : SquareRoot ℚ := ⟨Rat.sqrt⟩

variable {K : Type} [Field K] [LinearOrder K] [IsStrictOrderedRing K] [SquareRoot K] {ε : K}

namespace Exact

/-! ### Comparisons -/

theorem tolerance_eq_number (hε : 0 < ε) (x y : K) :
    Tolerance.eq (number ε) (number x) (number y) = decide (|x - y| < ε) := by
  have habs : Scalar.abs (number x - number y) = number |x - y| := by
    rw [number_sub]
    rfl
  rw [Tolerance.eq, habs, eq_number, lt_number, isNaN_number, Bool.false_and, Bool.or_false,
    ← Bool.decide_or, decide_eq_decide, or_iff_right_iff_imp]
  rintro rfl
  rwa [sub_self, abs_zero]

theorem tolerance_gt_number (hε : 0 < ε) (x y : K) :
    Tolerance.gt (number ε) (number x) (number y) = decide (ε ≤ x - y) := by
  rw [Tolerance.gt, tolerance_eq_number hε, lt_number, ← decide_not, ← Bool.decide_and,
    decide_eq_decide, not_lt]
  constructor
  · rintro ⟨hfar, hlt⟩
    rwa [abs_of_pos (sub_pos.mpr hlt)] at hfar
  · intro hfar
    have hlt : 0 < x - y := hε.trans_le hfar
    exact ⟨hfar.trans_eq (abs_of_pos hlt).symm, sub_pos.mp hlt⟩

theorem tolerance_lt_number (hε : 0 < ε) (x y : K) :
    Tolerance.lt (number ε) (number x) (number y) = decide (ε ≤ y - x) := by
  rw [← tolerance_gt_number hε, Tolerance.lt, Tolerance.gt, tolerance_eq_number hε,
    tolerance_eq_number hε, abs_sub_comm]

end Exact

open Exact

/-! ### Values -/

/-- The function where it is kept, and zero elsewhere. -/
def cutOff (keeps : K → K → Prop) [DecidableRel keeps] (f : K → K → K) (a b : K) : K :=
  if keeps a b then f a b else 0

/-- The quotient in the Hamacher norms. -/
def hamacher (a b : K) : K := a * b / (a + b - a * b)

/-- The value of a built-in T-norm for two degrees. -/
def TNorm.value (ε : K) : TNorm (Exact K) → K → K → K
  | algebraicProduct => fun a b => a * b
  | boundedDifference => fun a b => max 0 (a + b - 1)
  | drasticProduct => cutOff (fun a b => 1 - ε < max a b) min
  | einsteinProduct => fun a b => a * b / (1 + (1 - a) * (1 - b))
  | hamacherProduct => cutOff (fun a b => ε ≤ a + b) hamacher
  | minimum => min
  | nilpotentMinimum => cutOff (fun a b => ε ≤ a + b - 1) min
  | formula _ => fun _ _ => 0
  | custom .. => fun _ _ => 0

/-- The value of a built-in S-norm for two degrees. -/
def SNorm.value (ε : K) : SNorm (Exact K) → K → K → K
  | algebraicSum => fun a b => a + b - a * b
  | boundedSum => fun a b => min 1 (a + b)
  | drasticSum => fun a b => if min a b < ε then max a b else 1
  | einsteinSum => fun a b => (a + b) / (1 + a * b)
  | hamacherSum => fun a b =>
    if ε ≤ 1 - a * b then (a + b - a * b - a * b) / (1 - a * b) else 1
  | maximum => max
  | nilpotentMaximum => fun a b => if ε ≤ 1 - (a + b) then max a b else 1
  | normalizedSum => fun a b => (a + b) / max 1 (a + b)
  | unboundedSum => fun a b => a + b
  | formula _ => fun _ _ => 0
  | custom .. => fun _ _ => 0

/-- For two degrees the norm gives what the function gives, and every divisor on the way is
positive. -/
def TNorm.Computes (norm : TNorm (Exact K)) (ε : K) (f : K → K → K) : Prop :=
  ∀ a ∈ Set.Icc (0 : K) 1, ∀ b ∈ Set.Icc (0 : K) 1,
    norm.compute (number ε) (number a) (number b) = number (f a b) ∧
      ∀ d ∈ (norm.traced (number ε) (number a) (number b)).divisors,
        Scalar.lt Scalar.zero d = true

/-- For two degrees the norm gives what the function gives, and every divisor on the way is
positive. -/
def SNorm.Computes (norm : SNorm (Exact K)) (ε : K) (f : K → K → K) : Prop :=
  ∀ a ∈ Set.Icc (0 : K) 1, ∀ b ∈ Set.Icc (0 : K) 1,
    norm.compute (number ε) (number a) (number b) = number (f a b) ∧
      ∀ d ∈ (norm.traced (number ε) (number a) (number b)).divisors,
        Scalar.lt Scalar.zero d = true

theorem TNorm.compute_number (hε : 0 < ε) {norm : TNorm (Exact K)} (h : norm ∈ builtins) {a b : K}
    (ha : a ∈ Set.Icc (0 : K) 1) (hb : b ∈ Set.Icc (0 : K) 1) :
    norm.compute (number ε) (number a) (number b) = number (norm.value ε a b) := by
  cases norm with
  | algebraicProduct => rfl
  | boundedDifference =>
    simp only [compute, zero_eq, one_eq, number_add, number_sub, max_number, value]
  | drasticProduct =>
    have hguard : |max a b - 1| < ε ↔ 1 - ε < max a b := by
      rw [abs_sub_comm, abs_of_nonneg (sub_nonneg.mpr (max_le ha.2 hb.2)), sub_lt_comm]
    simp only [compute, zero_eq, one_eq, max_number, min_number, tolerance_eq_number hε,
      decide_eq_true_eq, hguard, value, cutOff]
    split <;> rfl
  | einsteinProduct =>
    have hcomplements : 0 ≤ (1 - a) * (1 - b) :=
      mul_nonneg (sub_nonneg.mpr ha.2) (sub_nonneg.mpr hb.2)
    have hdivisor : 2 - (a + b - a * b) = 1 + (1 - a) * (1 - b) := by ring
    have hne : 1 + (1 - a) * (1 - b) ≠ 0 := by linarith
    simp only [compute, two_eq, number_add, number_sub, number_mul, hdivisor,
      number_div _ hne, value]
  | hamacherProduct =>
    have hguard : |a + b - 0| < ε ↔ ¬ ε ≤ a + b := by
      rw [sub_zero, abs_of_nonneg (add_nonneg ha.1 hb.1), not_le]
    simp only [compute, zero_eq, number_add, number_sub, number_mul, tolerance_eq_number hε,
      decide_eq_true_eq, hguard, value, cutOff, ite_not]
    split
    · next hsum => exact number_div _ (hamacher_divisor_pos ha hb (hε.trans_le hsum)).ne'
    · rfl
  | minimum => simp only [compute, min_number, value]
  | nilpotentMinimum =>
    simp only [compute, zero_eq, one_eq, number_add, min_number, tolerance_gt_number hε,
      decide_eq_true_eq, value, cutOff]
    split <;> rfl
  | formula norm => simp [builtins] at h
  | custom name combine => simp [builtins] at h

theorem TNorm.computes_value (hε : 0 < ε) {norm : TNorm (Exact K)} (h : norm ∈ builtins) :
    norm.Computes ε (norm.value ε) := fun _ ha _ hb =>
  ⟨compute_number hε h ha hb, (hasDegree_traced h (isDegree_number ha.1 ha.2)
    (isDegree_number hb.1 hb.2) (number ε)).divisors⟩

theorem SNorm.compute_number (hε : 0 < ε) {norm : SNorm (Exact K)} (h : norm ∈ builtins) {a b : K}
    (ha : a ∈ Set.Icc (0 : K) 1) (hb : b ∈ Set.Icc (0 : K) 1) :
    norm.compute (number ε) (number a) (number b) = number (norm.value ε a b) := by
  have hmul₀ : 0 ≤ a * b := mul_nonneg ha.1 hb.1
  have hmul₁ : a * b ≤ 1 := mul_le_one₀ ha.2 hb.1 hb.2
  cases norm with
  | algebraicSum => simp only [compute, number_add, number_sub, number_mul, value]
  | boundedSum => simp only [compute, one_eq, number_add, min_number, value]
  | drasticSum =>
    have hguard : |min a b - 0| < ε ↔ min a b < ε := by
      rw [sub_zero, abs_of_nonneg (le_min ha.1 hb.1)]
    simp only [compute, zero_eq, one_eq, max_number, min_number, tolerance_eq_number hε,
      decide_eq_true_eq, hguard, value]
    split <;> rfl
  | einsteinSum =>
    have hdivisor : 1 + a * b ≠ 0 := by linarith
    simp only [compute, one_eq, number_add, number_mul, number_div _ hdivisor, value]
  | hamacherSum =>
    have hguard : |a * b - 1| < ε ↔ ¬ ε ≤ 1 - a * b := by
      rw [abs_sub_comm, abs_of_nonneg (sub_nonneg.mpr hmul₁), not_le]
    have htwice : a + b - 2 * a * b = a + b - a * b - a * b := by ring
    simp only [compute, one_eq, two_eq, number_add, number_sub, number_mul, htwice,
      tolerance_eq_number hε, decide_eq_true_eq, hguard, value, ite_not]
    split
    · next hfar => exact number_div _ (hε.trans_le hfar).ne'
    · rfl
  | maximum => simp only [compute, max_number, value]
  | nilpotentMaximum =>
    simp only [compute, one_eq, number_add, max_number, tolerance_lt_number hε,
      decide_eq_true_eq, value]
    split <;> rfl
  | normalizedSum =>
    have hdivisor : max 1 (a + b) ≠ 0 := (lt_max_of_lt_left zero_lt_one).ne'
    simp only [compute, one_eq, number_add, max_number, number_div _ hdivisor, value]
  | unboundedSum => rfl
  | formula norm => simp [builtins] at h
  | custom name combine => simp [builtins] at h

/-- The sum that has no bound has no divisor either. -/
theorem SNorm.computes_value (hε : 0 < ε) {norm : SNorm (Exact K)} (h : norm ∈ builtins) :
    norm.Computes ε (norm.value ε) := by
  intro a ha b hb
  refine ⟨compute_number hε h ha hb, ?_⟩
  by_cases hbounded : norm = .unboundedSum
  · subst hbounded
    exact List.forall_mem_nil _
  · exact (hasDegree_traced h hbounded (isDegree_number ha.1 ha.2)
      (isDegree_number hb.1 hb.2) (number ε)).divisors

end FuzzyInference
