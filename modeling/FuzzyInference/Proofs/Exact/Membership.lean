import FuzzyInference.Proofs.Norm.Value
import FuzzyInference.Proofs.Term.Shoulder

/-!
Memberships over exact numbers. The vertices of a triangle or a trapezoid need not be in order, and
the early cases of a membership still keep it in the unit interval. Its divisors are found by running
the same membership on numbers that carry them; none is zero or negative. Where the vertices are in
order the membership rises up to the first vertex of the peak and falls from the last one.
-/
namespace FuzzyInference

open Exact Traced

variable {K : Type} [Field K] [LinearOrder K] [IsStrictOrderedRing K]

/-! ### Slopes -/

/-- The height of a side that rises from zero at the foot to one at the peak. -/
def rise (foot peak x : K) : K := if x < peak then (x - foot) / (peak - foot) else 1

theorem rise_mono {foot peak x y : K} (hfoot : foot ≤ x) (hle : x ≤ y) :
    rise foot peak x ≤ rise foot peak y := by
  unfold rise
  by_cases hy : y < peak
  · rw [if_pos (hle.trans_lt hy), if_pos hy]
    have hpos : 0 ≤ peak - foot := sub_nonneg.mpr (hfoot.trans (hle.trans hy.le))
    exact div_le_div_of_nonneg_right (sub_le_sub_right hle foot) hpos
  · rw [if_neg hy]
    split
    · next hx =>
      have hpos : 0 < peak - foot := sub_pos.mpr (hfoot.trans_lt hx)
      exact (div_le_one hpos).mpr (sub_le_sub_right hx.le foot)
    · exact le_rfl

namespace Shape

variable [SquareRoot K] {shape : Shape (Exact K)} {left first last right : K}

namespace HasVertices

section Finite

variable (h : shape.HasVertices (number left) (number first) (number last) (number right))

include h

omit [IsStrictOrderedRing K] [SquareRoot K] in
theorem isProper : shape.IsProper := by
  cases h with
  | triangle => exact .triangle left first right
  | trapezoid => exact .trapezoid left first last right

omit [IsStrictOrderedRing K] in
theorem traced_infinite (s : Bool) : shape.traced (infinite s) = plain Scalar.zero := by
  cases h <;> cases s <;> rfl

theorem hasDegree {x : Exact K} (hx : Scalar.isNaN x = false) : (shape.traced x).HasDegree := by
  cases x with
  | number x => exact h.isProper.hasDegree x
  | infinite s =>
    rw [h.traced_infinite s]
    exact hasDegree_plain isDegree_zero
  | undefined => cases hx

theorem isDegree_membership {x : Exact K} (hx : Scalar.isNaN x = false) :
    (shape.membership x).IsDegree := by
  rw [← value_traced]
  exact (h.hasDegree hx).value

/-- None of the divisors is zero or negative, whether the value is defined or not. -/
theorem divisors_traced (x : Exact K) :
    ∀ d ∈ (shape.traced x).divisors, Scalar.lt Scalar.zero d = true := by
  cases hx : Scalar.isNaN x with
  | false => exact (h.hasDegree hx).divisors
  | true =>
    rw [traced, membership, show Scalar.isNaN (plain x) = true from hx]
    exact List.forall_mem_nil _

/-! ### Sides -/

theorem membership_of_rising {x : K} (hpeak : first ≤ last) (hright : last ≤ right)
    (hfoot : left ≤ x) (hx : x ≤ first) :
    shape.membership (number x) = number (rise left first x) := by
  have hupper : x ≤ right := hx.trans (hpeak.trans hright)
  have hrange : ¬(x < left ∨ right < x) := not_or.mpr ⟨not_lt.mpr hfoot, not_lt.mpr hupper⟩
  have hne : x < first → first - left ≠ 0 := fun hlt => (sub_pos.mpr (hfoot.trans_lt hlt)).ne'
  unfold rise
  cases h with
  | triangle =>
    simp only [membership, degree, isNaN_number, lt_number, eq_number, eq_neg_infinity, number_sub,
      Bool.or_eq_true, decide_eq_true_eq, Bool.false_eq_true, if_false, if_neg hrange]
    rcases hx.eq_or_lt with rfl | hlt
    · rw [if_pos rfl, if_neg (lt_irrefl x), one_eq]
    · rw [if_neg hlt.ne, if_pos hlt, if_pos hlt, number_div _ (hne hlt)]
  | trapezoid =>
    simp only [membership, degree, isNaN_number, lt_number, le_number, eq_neg_infinity, number_sub,
      Bool.or_eq_true, decide_eq_true_eq, Bool.false_eq_true, if_false, if_neg hrange]
    by_cases hlt : x < first
    · rw [if_pos hlt, if_pos hlt, number_div _ (hne hlt)]
    · rw [if_neg hlt, if_neg hlt, if_pos (hx.trans hpeak), one_eq]

/-- A side that falls is one that rises, seen from the other end. -/
theorem membership_of_falling {x : K} (hleft : left ≤ first) (hpeak : first ≤ last)
    (hx : last ≤ x) (hfoot : x ≤ right) :
    shape.membership (number x) = number (rise (-right) (-last) (-x)) := by
  have hlower : left ≤ x := hleft.trans (hpeak.trans hx)
  have hrange : ¬(x < left ∨ right < x) := not_or.mpr ⟨not_lt.mpr hlower, not_lt.mpr hfoot⟩
  have hrise : ¬x < first := not_lt.mpr (hpeak.trans hx)
  have hne : last < x → right - last ≠ 0 := fun hlt => (sub_pos.mpr (hlt.trans_le hfoot)).ne'
  simp only [rise, neg_lt_neg_iff, neg_sub_neg]
  cases h with
  | triangle =>
    simp only [membership, degree, isNaN_number, lt_number, eq_number, eq_infinity, number_sub,
      Bool.or_eq_true, decide_eq_true_eq, Bool.false_eq_true, if_false, if_neg hrange, if_neg hrise]
    rcases hx.eq_or_lt with rfl | hlt
    · rw [if_pos rfl, if_neg (lt_irrefl _), one_eq]
    · rw [if_neg hlt.ne', if_pos hlt, number_div _ (hne hlt)]
  | trapezoid =>
    simp only [membership, degree, isNaN_number, lt_number, le_number, eq_infinity, number_sub,
      Bool.or_eq_true, decide_eq_true_eq, Bool.false_eq_true, if_false, if_neg hrange, if_neg hrise]
    rcases hx.eq_or_lt with rfl | hlt
    · rw [if_pos le_rfl, if_neg (lt_irrefl _), one_eq]
    rw [if_neg hlt.not_ge, if_pos hlt]
    rcases hfoot.eq_or_lt with rfl | hfall
    · rw [if_neg (lt_irrefl _), sub_self, zero_div, zero_eq]
    · rw [if_pos hfall, number_div _ (hne hlt)]

omit [IsStrictOrderedRing K] in
/-- Out of the feet the membership is zero, in whatever order the vertices are. -/
theorem membership_of_out {x : Exact K}
    (hout : Scalar.lt x (number left) = true ∨ Scalar.lt (number right) x = true) :
    shape.membership x = Scalar.zero := by
  have hdefined : Scalar.isNaN x = false := by
    rcases hout with hlt | hlt
    · exact (isNaN_of_lt hlt).1
    · exact (isNaN_of_lt hlt).2
  rw [membership, hdefined, if_neg Bool.false_ne_true]
  cases h with
  | triangle => exact if_pos (Bool.or_eq_true_iff.mpr hout)
  | trapezoid => exact if_pos (Bool.or_eq_true_iff.mpr hout)

theorem le_membership_of_out {x y : Exact K} (hy : Scalar.isNaN y = false)
    (hout : Scalar.lt x (number left) = true ∨ Scalar.lt (number right) x = true) :
    Scalar.le (shape.membership x) (shape.membership y) = true := by
  obtain ⟨μ, hμ, hnonneg, -⟩ := h.isDegree_membership hy
  rw [h.membership_of_out hout, hμ, zero_eq, le_number]
  exact decide_eq_true hnonneg

theorem membership_mono {x y : Exact K} (hpeak : first ≤ last) (hright : last ≤ right)
    (hle : Scalar.le x y = true) (hy : Scalar.le y (number first) = true) :
    Scalar.le (shape.membership x) (shape.membership y) = true := by
  obtain ⟨hx, hdefined⟩ := isNaN_of_le hle
  rcases Exact.lt_or_le (b := number left) hx rfl with hout | hfoot
  · exact h.le_membership_of_out hdefined (.inl hout)
  obtain ⟨x, rfl, hleft, hxpeak⟩ := exists_number hfoot (Exact.le_trans hle hy)
  obtain ⟨y, rfl, hxy, hypeak⟩ := exists_number hle hy
  rw [h.membership_of_rising hpeak hright hleft hxpeak,
    h.membership_of_rising hpeak hright (hleft.trans hxy) hypeak, le_number]
  exact decide_eq_true (rise_mono hleft hxy)

theorem membership_anti {x y : Exact K} (hleft : left ≤ first) (hpeak : first ≤ last)
    (hx : Scalar.le (number last) x = true) (hle : Scalar.le x y = true) :
    Scalar.le (shape.membership y) (shape.membership x) = true := by
  obtain ⟨hdefined, hy⟩ := isNaN_of_le hle
  rcases Exact.lt_or_le (a := number right) rfl hy with hout | hfoot
  · exact h.le_membership_of_out hdefined (.inr hout)
  obtain ⟨y, rfl, hypeak, hright⟩ := exists_number (Exact.le_trans hx hle) hfoot
  obtain ⟨x, rfl, hxpeak, hxy⟩ := exists_number hx hle
  rw [h.membership_of_falling hleft hpeak hypeak hright,
    h.membership_of_falling hleft hpeak hxpeak (hxy.trans hright), le_number]
  exact decide_eq_true (rise_mono (neg_le_neg hright) (neg_le_neg hxy))

end Finite

/-- With vertices in any order the membership of a defined value is a degree and is computed without
a divisor that is zero or negative. With vertices in order it rises up to the first vertex of the
peak and falls from the last one. -/
theorem membership_exact
    (h : shape.HasVertices (number left) (number first) (number last) (number right)) :
    (∀ x, Scalar.isNaN x = false → (shape.membership x).IsDegree) ∧
      (∀ x, (shape.traced x).value = shape.membership x ∧
        ∀ d ∈ (shape.traced x).divisors, Scalar.lt Scalar.zero d = true) ∧
      (left ≤ first → first ≤ last → last ≤ right →
        (∀ x y, Scalar.le x y = true → Scalar.le y (number first) = true →
          Scalar.le (shape.membership x) (shape.membership y) = true) ∧
        (∀ x y, Scalar.le (number last) x = true → Scalar.le x y = true →
          Scalar.le (shape.membership y) (shape.membership x) = true)) := by
  refine ⟨fun _ => h.isDegree_membership, fun x => ⟨value_traced shape x, h.divisors_traced x⟩,
    fun hleft hpeak hright => ⟨?_, ?_⟩⟩
  · exact fun _ _ hle hy => h.membership_mono hpeak hright hle hy
  · exact fun _ _ hx hle => h.membership_anti hleft hpeak hx hle

end HasVertices

/-- A triangle with its peak beyond its right foot. -/
def overhang : Shape (Exact ℚ) := .triangle (number 0) (number 3) (number 2)

/-- A trapezoid with a peak of one vertex. -/
def ridge : Shape (Exact ℚ) := .trapezoid (number 0) (number 1) (number 1) (number 3)

theorem membership_exact_overhang_ridge :
    overhang.HasVertices (number 0) (number 3) (number 3) (number 2) ∧
      ridge.HasVertices (number 0) (number 1) (number 1) (number 3) ∧
      (overhang.membership (number 2)).IsDegree ∧ (overhang.traced (number 2)).divisors ≠ [] ∧
      (∀ d ∈ (overhang.traced (number 2)).divisors, Scalar.lt Scalar.zero d = true) ∧
      Scalar.le (ridge.membership (number (1 / 3))) (ridge.membership (number (1 / 2))) = true ∧
      Scalar.le (ridge.membership Scalar.infinity) (ridge.membership (number 2)) = true := by
  have hoverhang : overhang.HasVertices (number 0) (number 3) (number 3) (number 2) :=
    .triangle _ _ _
  have hridge : ridge.HasVertices (number 0) (number 1) (number 1) (number 3) := .trapezoid _ _ _ _
  obtain ⟨hdegree, hdivisors, -⟩ := hoverhang.membership_exact
  obtain ⟨-, -, hordered⟩ := hridge.membership_exact
  obtain ⟨hrises, hfalls⟩ := hordered (by decide +kernel) le_rfl (by decide +kernel)
  refine ⟨hoverhang, hridge, hdegree _ rfl, by decide +kernel, (hdivisors _).2, ?_, ?_⟩
  · exact hrises _ _ (by decide +kernel) (by decide +kernel)
  · exact hfalls _ _ (by decide +kernel) rfl

end Shape

end FuzzyInference
