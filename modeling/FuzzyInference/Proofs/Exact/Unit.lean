import FuzzyInference.Proofs.Exact.Number
import FuzzyInference.Proofs.Exact.Traced
import Mathlib.Order.Interval.Set.Defs
import Mathlib.Tactic.Linarith

/-!
Operations on degrees that give degrees. Over exact numbers every built-in operator keeps the unit
interval, except for the sum that has no bound, and so do the memberships of finite shapes, in
whatever order their parameters are. Every divisor is positive, whatever the tolerance is.
-/
namespace FuzzyInference

variable {K : Type} [Field K] [LinearOrder K] [IsStrictOrderedRing K] [SquareRoot K]

namespace Exact

/-- A number from zero to one. -/
def IsDegree (x : Exact K) : Prop := ∃ y : K, x = number y ∧ 0 ≤ y ∧ y ≤ 1

omit [IsStrictOrderedRing K] [SquareRoot K] in
theorem isDegree_number {x : K} (h : 0 ≤ x) (h' : x ≤ 1) : IsDegree (number x) := ⟨x, rfl, h, h'⟩

theorem isDegree_zero : IsDegree (Scalar.zero : Exact K) := isDegree_number le_rfl zero_le_one

theorem isDegree_one : IsDegree (Scalar.one : Exact K) := isDegree_number zero_le_one le_rfl

end Exact

namespace Traced

open Exact

/-- The value is a degree, and every divisor is positive. -/
structure HasDegree (a : Traced (Exact K)) : Prop where
  value : a.value.IsDegree
  divisors : ∀ d ∈ a.divisors, Scalar.lt Scalar.zero d = true

omit [IsStrictOrderedRing K] in
theorem hasDegree_plain {x : Exact K} (h : x.IsDegree) : (plain x).HasDegree :=
  ⟨h, List.forall_mem_nil _⟩

omit [IsStrictOrderedRing K] in
theorem HasDegree.ite {P : Prop} [Decidable P] {a b : Traced (Exact K)} (h : P → a.HasDegree)
    (h' : ¬ P → b.HasDegree) : (if P then a else b).HasDegree := by
  split
  · next hP => exact h hP
  · next hP => exact h' hP

omit [IsStrictOrderedRing K] in
theorem HasDegree.keeping {a : Traced (Exact K)} (h : a.HasDegree) {divisors : List (Exact K)}
    (hdivisors : ∀ d ∈ divisors, Scalar.lt Scalar.zero d = true) :
    (a.keeping divisors).HasDegree :=
  ⟨h.value, List.forall_mem_append.mpr ⟨hdivisors, h.divisors⟩⟩

/-- A quotient of a number by a greater one. -/
theorem hasDegree_quotient {x y : K} (hx : 0 ≤ x) (hxy : x ≤ y) (hy : 0 < y) :
    (plain (number x) / plain (number y)).HasDegree where
  value := by
    change (number x / number y).IsDegree
    rw [number_div x hy.ne']
    exact isDegree_number (div_nonneg hx hy.le) ((div_le_one hy).mpr hxy)
  divisors := List.forall_mem_singleton.mpr (decide_eq_true hy)

end Traced

open Exact Traced

/-! ### Memberships -/

/-- The shape has finite parameters, or a degree as its constant value. -/
inductive Shape.IsProper : Shape (Exact K) → Prop where
  | triangle (a b c : K) : IsProper (.triangle (number a) (number b) (number c))
  | trapezoid (a b c d : K) : IsProper (.trapezoid (number a) (number b) (number c) (number d))
  | rectangle (first last : K) : IsProper (.rectangle (number first) (number last))
  | constant {value : Exact K} (h : value.IsDegree) : IsProper (.constant value)

/-- Beside the peak on a side the value lies between it and the foot. -/
theorem Shape.IsProper.hasDegree {shape : Shape (Exact K)} (h : shape.IsProper) (x : K) :
    (shape.traced (number x)).HasDegree := by
  cases h with
  | triangle a b c =>
    simp only [traced_triangle, isNaN_number, lt_number, eq_number, eq_infinity, eq_neg_infinity,
      number_sub, Bool.or_eq_true, decide_eq_true_eq, Bool.false_eq_true, if_false]
    refine .ite (fun _ => hasDegree_plain isDegree_zero) fun hrange => ?_
    obtain ⟨ha, hc⟩ := not_or.mp hrange
    refine .ite (fun _ => hasDegree_plain isDegree_one) fun hpeak => ?_
    refine .ite (fun hleft => ?_) fun hright => ?_
    · exact hasDegree_quotient (by linarith) (by linarith) (by linarith)
    · have hbx : b < x := lt_of_le_of_ne (not_lt.mp hright) (Ne.symm hpeak)
      exact hasDegree_quotient (by linarith) (by linarith) (by linarith)
  | trapezoid a b c d =>
    simp only [traced_trapezoid, isNaN_number, lt_number, le_number, eq_infinity, eq_neg_infinity,
      number_sub, Bool.or_eq_true, decide_eq_true_eq, Bool.false_eq_true, if_false]
    refine .ite (fun _ => hasDegree_plain isDegree_zero) fun hrange => ?_
    obtain ⟨ha, hd⟩ := not_or.mp hrange
    refine .ite (fun hleft => ?_) fun _ => ?_
    · exact hasDegree_quotient (by linarith) (by linarith) (by linarith)
    refine .ite (fun _ => hasDegree_plain isDegree_one) fun hplateau => ?_
    refine .ite (fun hright => ?_) fun _ => hasDegree_plain isDegree_zero
    exact hasDegree_quotient (by linarith) (by linarith) (by linarith)
  | rectangle first last =>
    exact .ite (fun _ => hasDegree_plain isDegree_one) fun _ => hasDegree_plain isDegree_zero
  | constant h => exact hasDegree_plain h

/-! ### Norms -/

section Norms

omit [SquareRoot K] in
/-- The divisor of the Hamacher quotient is zero for two zeros only. -/
theorem hamacher_divisor_pos {a b : K} (ha : a ∈ Set.Icc (0 : K) 1) (hb : b ∈ Set.Icc (0 : K) 1)
    (h : 0 < a + b) : 0 < a + b - a * b := by
  have hmula : a * b ≤ a := mul_le_of_le_one_right ha.1 hb.2
  have hmulb : a * b ≤ b := mul_le_of_le_one_left hb.1 ha.2
  by_contra hdivisor
  linarith

variable {a b : Exact K}

theorem TNorm.hasDegree_traced {norm : TNorm (Exact K)} (h : norm ∈ TNorm.builtins)
    (ha : a.IsDegree) (hb : b.IsDegree) (ε : Exact K) : (norm.traced ε a b).HasDegree := by
  obtain ⟨a, rfl, ha₀, ha₁⟩ := ha
  obtain ⟨b, rfl, hb₀, hb₁⟩ := hb
  have hmul₀ : 0 ≤ a * b := mul_nonneg ha₀ hb₀
  have hmula : a * b ≤ a := mul_le_of_le_one_right ha₀ hb₁
  have hmulb : a * b ≤ b := mul_le_of_le_one_left hb₀ ha₁
  have hmin : IsDegree (Scalar.min (number a) (number b)) := by
    rw [min_number]
    exact isDegree_number (le_min ha₀ hb₀) (min_le_of_left_le ha₁)
  rw [traced_eq]
  cases norm with
  | algebraicProduct => exact hasDegree_plain (isDegree_number hmul₀ (hmula.trans ha₁))
  | boundedDifference =>
    simp only [compute, zero_eq, one_eq, number_add, number_sub, max_number]
    exact hasDegree_plain (isDegree_number (le_max_left 0 _) (max_le zero_le_one (by linarith)))
  | drasticProduct =>
    simp only [compute]
    split
    · exact hasDegree_plain hmin
    · exact hasDegree_plain isDegree_zero
  | einsteinProduct =>
    simp only [two_eq, number_add, number_sub, number_mul]
    -- The divisor is 1 + (1 - a) (1 - b).
    have hdivisor : 1 ≤ 2 - (a + b - a * b) := by
      nlinarith [mul_nonneg (sub_nonneg.mpr ha₁) (sub_nonneg.mpr hb₁)]
    exact hasDegree_quotient hmul₀ (by linarith) (by linarith)
  | hamacherProduct =>
    simp only [zero_eq, number_add, number_sub, number_mul]
    refine .ite (fun _ => hasDegree_plain isDegree_zero) fun hne => ?_
    have hsum : a + b ≠ 0 := ne_of_tolerance (Bool.eq_false_iff.mpr hne)
    have hpos : 0 < a + b := lt_of_le_of_ne (by linarith) hsum.symm
    exact hasDegree_quotient hmul₀ (by linarith)
      (hamacher_divisor_pos ⟨ha₀, ha₁⟩ ⟨hb₀, hb₁⟩ hpos)
  | minimum => exact hasDegree_plain hmin
  | nilpotentMinimum =>
    simp only [compute]
    split
    · exact hasDegree_plain hmin
    · exact hasDegree_plain isDegree_zero
  | formula norm => simp [builtins] at h
  | custom name combine => simp [builtins] at h

theorem SNorm.hasDegree_traced {norm : SNorm (Exact K)} (h : norm ∈ SNorm.builtins)
    (hbounded : norm ≠ .unboundedSum) (ha : a.IsDegree) (hb : b.IsDegree) (ε : Exact K) :
    (norm.traced ε a b).HasDegree := by
  obtain ⟨a, rfl, ha₀, ha₁⟩ := ha
  obtain ⟨b, rfl, hb₀, hb₁⟩ := hb
  have hmul₀ : 0 ≤ a * b := mul_nonneg ha₀ hb₀
  have hmula : a * b ≤ a := mul_le_of_le_one_right ha₀ hb₁
  have hmulb : a * b ≤ b := mul_le_of_le_one_left hb₀ ha₁
  -- The product of the complements is not negative.
  have hsum : a + b ≤ 1 + a * b := by
    nlinarith [mul_nonneg (sub_nonneg.mpr ha₁) (sub_nonneg.mpr hb₁)]
  have hmax : IsDegree (Scalar.max (number a) (number b)) := by
    rw [max_number]
    exact isDegree_number (le_max_of_le_left ha₀) (max_le ha₁ hb₁)
  rw [traced_eq]
  cases norm with
  | algebraicSum =>
    simp only [compute, number_add, number_sub, number_mul]
    exact hasDegree_plain (isDegree_number (by linarith) (by linarith))
  | boundedSum =>
    simp only [compute, one_eq, number_add, min_number]
    exact hasDegree_plain (isDegree_number (le_min zero_le_one (by linarith)) (min_le_left 1 _))
  | drasticSum =>
    simp only [compute]
    split
    · exact hasDegree_plain hmax
    · exact hasDegree_plain isDegree_one
  | einsteinSum =>
    simp only [one_eq, number_add, number_mul]
    exact hasDegree_quotient (by linarith) hsum (by linarith)
  | hamacherSum =>
    simp only [one_eq, two_eq, number_add, number_sub, number_mul]
    refine .ite (fun _ => hasDegree_plain isDegree_one) fun hne => ?_
    have hne : a * b ≠ 1 := ne_of_tolerance (Bool.eq_false_iff.mpr hne)
    have hlt : a * b < 1 := lt_of_le_of_ne (hmula.trans ha₁) hne
    exact hasDegree_quotient (by linarith) (by linarith) (by linarith)
  | maximum => exact hasDegree_plain hmax
  | nilpotentMaximum =>
    simp only [compute]
    split
    · exact hasDegree_plain hmax
    · exact hasDegree_plain isDegree_one
  | normalizedSum =>
    simp only [one_eq, number_add, max_number]
    exact hasDegree_quotient (by linarith) (le_max_right 1 _) (lt_max_of_lt_left zero_lt_one)
  | unboundedSum => exact absurd rfl hbounded
  | formula norm => simp [builtins] at h
  | custom name combine => simp [builtins] at h

end Norms

/-! ### Hedges -/

/-- The function in the place of the square root keeps the unit interval. -/
def SquareRoot.KeepsUnit (K : Type) [Field K] [LinearOrder K] [SquareRoot K] : Prop :=
  ∀ x : K, 0 ≤ x → x ≤ 1 → 0 ≤ root x ∧ root x ≤ 1

omit [IsStrictOrderedRing K] in
theorem Exact.isDegree_sqrt (hroot : SquareRoot.KeepsUnit K) {x : K} (h₀ : 0 ≤ x) (h₁ : x ≤ 1) :
    IsDegree (Scalar.sqrt (number x)) := by
  obtain ⟨hroot₀, hroot₁⟩ := hroot x h₀ h₁
  rw [sqrt_number h₀]
  exact isDegree_number hroot₀ hroot₁

namespace Hedge

omit [SquareRoot K] in
theorem twice_square_mem_unit {x : K} (h₀ : 0 ≤ x) (h : x ≤ 1 / 2) :
    0 ≤ 2 * x * x ∧ 2 * x * x ≤ 1 := by
  have htwo : 0 ≤ 2 * x := by linarith
  have hone : 2 * x ≤ 1 := by linarith
  exact ⟨mul_nonneg htwo h₀, mul_le_one₀ hone h₀ (by linarith)⟩

theorem isDegree_apply (hroot : SquareRoot.KeepsUnit K) {hedge : Hedge (Exact K)}
    (h : hedge ∈ Hedge.builtins) {x : Exact K} (hx : x.IsDegree) (ε : Exact K) :
    (hedge.apply ε x).IsDegree := by
  obtain ⟨x, rfl, hx₀, hx₁⟩ := hx
  cases hedge with
  | any => exact isDegree_one
  | extremely =>
    simp only [Hedge.apply, half_eq, one_eq, two_eq, le_number, decide_eq_true_eq, number_sub,
      number_mul]
    split
    · next hhalf =>
      obtain ⟨h₀, h₁⟩ := twice_square_mem_unit hx₀ hhalf
      exact isDegree_number h₀ h₁
    · next hhalf =>
      obtain ⟨h₀, h₁⟩ := twice_square_mem_unit (x := 1 - x) (by linarith) (by linarith)
      exact isDegree_number (by linarith) (by linarith)
  | not =>
    simp only [Hedge.apply, one_eq, number_sub]
    exact isDegree_number (by linarith) (by linarith)
  | seldom =>
    simp only [Hedge.apply, half_eq, one_eq, le_number, decide_eq_true_eq, number_sub, number_mul]
    split
    · exact isDegree_sqrt hroot (by linarith) (by linarith)
    · obtain ⟨y, hy, hy₀, hy₁⟩ :=
        isDegree_sqrt (x := 1 / 2 * (1 - x)) hroot (by linarith) (by linarith)
      rw [hy, number_sub]
      exact isDegree_number (by linarith) (by linarith)
  | somewhat => exact isDegree_sqrt hroot hx₀ hx₁
  | very => exact isDegree_number (mul_nonneg hx₀ hx₀) (mul_le_one₀ hx₁ hx₀ hx₁)
  | formula name formula => simp [builtins] at h
  | custom name modify => simp [builtins] at h

theorem hasDegree_traced (hroot : SquareRoot.KeepsUnit K) {hedge : Hedge (Exact K)}
    (h : hedge ∈ Hedge.builtins) {x : Exact K} (hx : x.IsDegree) (ε : Exact K) :
    (hedge.traced ε x).HasDegree := by
  rw [traced_eq]
  cases hedge with
  | formula name formula => simp [builtins] at h
  | custom name modify => simp [builtins] at h
  | _ => exact hasDegree_plain (isDegree_apply hroot h hx ε)

end Hedge

/-! ### Operators that keep divisors -/

section Watched

variable {a b : Traced (Exact K)}

theorem TNorm.hasDegree_watched {norm : TNorm (Exact K)} (h : norm ∈ TNorm.builtins)
    (ha : a.HasDegree) (hb : b.HasDegree) (ε : Exact K) :
    (norm.watched.compute (plain ε) a b).HasDegree :=
  (TNorm.hasDegree_traced h ha.value hb.value ε).keeping
    (List.forall_mem_append.mpr ⟨ha.divisors, hb.divisors⟩)

theorem SNorm.hasDegree_watched {norm : SNorm (Exact K)} (h : norm ∈ SNorm.builtins)
    (hbounded : norm ≠ .unboundedSum) (ha : a.HasDegree) (hb : b.HasDegree) (ε : Exact K) :
    (norm.watched.compute (plain ε) a b).HasDegree :=
  (SNorm.hasDegree_traced h hbounded ha.value hb.value ε).keeping
    (List.forall_mem_append.mpr ⟨ha.divisors, hb.divisors⟩)

theorem Hedge.hasDegree_watched (hroot : SquareRoot.KeepsUnit K) {hedge : Hedge (Exact K)}
    (h : hedge ∈ Hedge.builtins) (ha : a.HasDegree) (ε : Exact K) :
    (hedge.watched.apply (plain ε) a).HasDegree :=
  (Hedge.hasDegree_traced hroot h ha.value ε).keeping ha.divisors

end Watched

end FuzzyInference
