import FuzzyInference.Term
import FuzzyInference.Proofs.Binary64.Arithmetic

/-!
Open shoulders. A triangle and a trapezoid rise from the left foot to the first vertex of the peak
and fall from the last one to the right foot. An infinite foot keeps the triangle at one on its
side, and the trapezoid on its left side only: on its right one, infinity is divided by infinity.
The same happens where the distance from a finite foot is too large for a finite number. Everywhere
else the membership is in the unit interval.
-/
namespace FuzzyInference

open Scalar Binary64

namespace Shape

/-! ### Vertices -/

section Vertices

variable {α : Type}

/-- The feet of a shape and the first and the last vertex of its peak. -/
inductive HasVertices : Shape α → α → α → α → α → Prop
  | triangle (a b c : α) : HasVertices (.triangle a b c) a b b c
  | trapezoid (a b c d : α) : HasVertices (.trapezoid a b c d) a b c d

variable [Scalar α]

/-- The vertices are in order, and those of the peak are finite. -/
structure IsOrdered (left first last right : α) : Prop where
  left_le : le left first = true
  first_le : le first last = true
  le_right : le last right = true
  isFinite_first : isFinite first = true
  isFinite_last : isFinite last = true

/-- On the side that rises from a finite foot, the distance from the foot is too large. -/
structure RisesTooFar (left first x : α) : Prop where
  isFinite_left : isFinite left = true
  le_left : le left x = true
  lt_first : lt x first = true
  overflow : eq (x - left) infinity = true

/-- On the side that falls to a finite foot, the distance from the foot is too large. -/
structure FallsTooFar (last right x : α) : Prop where
  isFinite_right : isFinite right = true
  last_lt : lt last x = true
  le_right : le x right = true
  overflow : eq (right - x) infinity = true

/-- The membership is a quotient of infinities. -/
def IsLost (x : α) : Shape α → Prop
  | triangle a b c => RisesTooFar a b x ∨ FallsTooFar b c x
  | trapezoid a b c d => RisesTooFar a b x ∨ FallsTooFar c d x ∨
      eq d infinity = true ∧ lt c x = true ∧ lt x d = true
  | _ => False

end Vertices

/-! ### Sides -/

/-- The number is undefined if it is lost, and otherwise it is in the unit interval. -/
structure IsUnitUnless (lost : Prop) (μ : Float) : Prop where
  isNaN (h : lost) : μ.isNaN = true
  unit (h : ¬lost) : le zero μ = true ∧ le μ one = true

namespace IsUnitUnless

variable {lost : Prop} {μ : Float}

theorem of_rank (h : ¬lost) (hdefined : μ.isNaN = false) (hnonneg : 0 ≤ rank μ)
    (hle : rank μ ≤ rank 1) : IsUnitUnless lost μ where
  isNaN hlost := absurd hlost h
  unit _ := ⟨(le_iff (by decide +kernel) hdefined).mpr hnonneg,
    (le_iff hdefined (by decide +kernel)).mpr hle⟩

theorem zero (h : ¬lost) : IsUnitUnless lost zero where
  isNaN hlost := absurd hlost h
  unit _ := ⟨by decide +kernel, by decide +kernel⟩

theorem one (h : ¬lost) : IsUnitUnless lost one where
  isNaN hlost := absurd hlost h
  unit _ := ⟨by decide +kernel, by decide +kernel⟩

end IsUnitUnless

section Sides

variable {left first last right x : Float}

/-- The slope of a side at a value between the foot and the peak. -/
theorem isUnitUnless_slope {y u v : Float} (hx : magnitude x < infinityBits)
    (hy : magnitude y < infinityBits) (hu : magnitude u < infinityBits)
    (hv : magnitude v < infinityBits) (h : rank y ≤ rank x) (hupper : rank x ≤ rank u)
    (hlower : rank v ≤ rank y) (hlt : rank v < rank u) :
    IsUnitUnless (eq (x - y) infinity = true) ((x - y) / (u - v)) := by
  have hdefined := (isNearest_sub hx hy).isNaN
  have hdefined' := (isNearest_sub hu hv).isNaN
  obtain ⟨hnonneg, hle⟩ := rank_sub_le hx hy hu hv h hupper hlower
  have hpos := rank_sub_pos hu hv hlt
  have habs := natAbs_rank (x - y)
  have habs' := natAbs_rank (u - v)
  have hbound := isNaN_eq_false_iff.mp hdefined
  have hbound' := isNaN_eq_false_iff.mp hdefined'
  have hinfinite := eq_iff hdefined isNaN_infinity
  rw [rank_infinity] at hinfinite
  by_cases hlost : eq (x - y) infinity = true
  · have hrank := hinfinite.mp hlost
    have hnumerator : (x - y).isInf = true := isInf_iff.mpr (by omega)
    have hdenominator : (u - v).isInf = true := isInf_iff.mpr (by omega)
    exact ⟨fun _ => isNaN_div_of_isInf hnumerator hdenominator, fun hkept => absurd hlost hkept⟩
  · have hrank := mt hinfinite.mpr hlost
    obtain ⟨hquotient, hquotient₀, hquotient₁⟩ :=
      rank_div_le_one (by omega) hdefined' hnonneg hle hpos
    exact .of_rank hlost hquotient hquotient₀ hquotient₁

/-- What the order of the vertices says about their ranks. -/
structure IsRanked (left first last right : Float) : Prop where
  left_defined : left.isNaN = false
  first_defined : first.isNaN = false
  last_defined : last.isNaN = false
  right_defined : right.isNaN = false
  left_le : rank left ≤ rank first
  first_le : rank first ≤ rank last
  le_right : rank last ≤ rank right
  first_lt : magnitude first < infinityBits
  last_lt : magnitude last < infinityBits

theorem IsOrdered.isRanked (h : IsOrdered left first last right) :
    IsRanked left first last right := by
  obtain ⟨hleft, hfirst⟩ := isNaN_of_le h.left_le
  obtain ⟨hlast, hright⟩ := isNaN_of_le h.le_right
  exact {
    left_defined := hleft
    first_defined := hfirst
    last_defined := hlast
    right_defined := hright
    left_le := (le_iff hleft hfirst).mp h.left_le
    first_le := (le_iff hfirst hlast).mp h.first_le
    le_right := (le_iff hlast hright).mp h.le_right
    first_lt := isFinite_iff.mp h.isFinite_first
    last_lt := isFinite_iff.mp h.isFinite_last
  }

theorem isUnitUnless_rising (h : IsRanked left first last right) (hx : x.isNaN = false)
    (hle : rank left ≤ rank x) (hlt : rank x < rank first) :
    IsUnitUnless (RisesTooFar left first x)
      (if rank left = -infinityBits then one else (x - left) / (first - left)) := by
  have hleft := natAbs_rank left
  have hfirst := natAbs_rank first
  have hvalue := natAbs_rank x
  have hbound := isNaN_eq_false_iff.mp h.left_defined
  have hpeak := h.first_lt
  by_cases hinfinite : rank left = -infinityBits
  · rw [if_pos hinfinite]
    refine .one fun hlost => ?_
    have hfoot := isFinite_iff.mp hlost.isFinite_left
    omega
  · have hfoot : magnitude left < infinityBits := by omega
    have hslope := isUnitUnless_slope (x := x) (y := left) (u := first) (v := left)
      (by omega) hfoot hpeak hfoot hle (by omega) (by omega) (by omega)
    have hlost : RisesTooFar left first x ↔ eq (x - left) infinity = true :=
      ⟨fun hlost => hlost.overflow, fun hoverflow => ⟨isFinite_iff.mpr hfoot,
        (le_iff h.left_defined hx).mpr hle, (lt_iff hx h.first_defined).mpr hlt, hoverflow⟩⟩
    rw [if_neg hinfinite]
    rwa [hlost]

theorem isUnitUnless_falling (h : IsRanked left first last right) (hx : x.isNaN = false)
    (hfoot : rank right < infinityBits) (hlt : rank last < rank x) (hle : rank x ≤ rank right) :
    IsUnitUnless (FallsTooFar last right x) ((right - x) / (right - last)) := by
  have hright := natAbs_rank right
  have hlast := natAbs_rank last
  have hvalue := natAbs_rank x
  have hpeak := h.last_lt
  have hfinite : magnitude right < infinityBits := by omega
  have hslope := isUnitUnless_slope (x := right) (y := x) (u := right) (v := last)
    hfinite (by omega) hfinite hpeak hle (by omega) (by omega) (by omega)
  have hlost : FallsTooFar last right x ↔ eq (right - x) infinity = true :=
    ⟨fun hlost => hlost.overflow, fun hoverflow => ⟨isFinite_iff.mpr hfinite,
      (lt_iff h.last_defined hx).mpr hlt, (le_iff hx h.right_defined).mpr hle, hoverflow⟩⟩
  rwa [hlost]

/-- Nothing is lost on the left side before the foot and from the peak on. -/
theorem IsRanked.not_risesTooFar (h : IsRanked left first last right) (hx : x.isNaN = false)
    (hout : rank x < rank left ∨ rank first ≤ rank x) : ¬RisesTooFar left first x := by
  intro hlost
  have hle := (le_iff h.left_defined hx).mp hlost.le_left
  have hlt := (lt_iff hx h.first_defined).mp hlost.lt_first
  omega

theorem IsRanked.not_fallsTooFar (h : IsRanked left first last right) (hx : x.isNaN = false)
    (hout : rank x ≤ rank last ∨ rank right ≤ rank x) : ¬FallsTooFar last right x := by
  intro hlost
  have hlt := (lt_iff h.last_defined hx).mp hlost.last_lt
  have hle := (le_iff hx h.right_defined).mp hlost.le_right
  have hfoot := isFinite_iff.mp hlost.isFinite_right
  have habs := natAbs_rank right
  have habs' := natAbs_rank x
  have hfinite : magnitude x < infinityBits := by omega
  have hzero := rank_sub_eq_zero hfoot hfinite (by omega)
  have hoverflow := (eq_iff (isNearest_sub hfoot hfinite).isNaN isNaN_infinity).mp hlost.overflow
  rw [hzero, rank_infinity] at hoverflow
  exact absurd hoverflow (by decide)

end Sides

/-! ### Memberships -/

section Membership

variable {shape : Shape Float} {left first last right x : Float}

theorem degree_triangle {a b c : Float} (h : IsRanked a b b c) (hx : x.isNaN = false) :
    (triangle a b c).degree x =
      if rank x < rank a ∨ rank c < rank x then zero
      else if rank x = rank b then one
      else if rank x < rank b then
        if rank a = -infinityBits then one else (x - a) / (b - a)
      else if rank c = infinityBits then one
      else (c - x) / (c - b) := by
  simp only [degree, Bool.or_eq_true, lt_iff hx h.left_defined, lt_iff h.right_defined hx,
    eq_iff hx h.first_defined, lt_iff hx h.first_defined, eq_iff h.left_defined isNaN_neg_infinity,
    eq_iff h.right_defined isNaN_infinity, rank_neg_infinity, rank_infinity]

theorem degree_trapezoid {a b c d : Float} (h : IsRanked a b c d) (hx : x.isNaN = false) :
    (trapezoid a b c d).degree x =
      if rank x < rank a ∨ rank d < rank x then zero
      else if rank x < rank b then
        if rank a = -infinityBits then one else (x - a) / (b - a)
      else if rank x ≤ rank c then one
      else if rank x < rank d then (d - x) / (d - c)
      else if rank d = infinityBits then one
      else zero := by
  simp only [degree, Bool.or_eq_true, lt_iff hx h.left_defined, lt_iff h.right_defined hx,
    lt_iff hx h.first_defined, le_iff hx h.last_defined, lt_iff hx h.right_defined,
    eq_iff h.left_defined isNaN_neg_infinity, eq_iff h.right_defined isNaN_infinity,
    rank_neg_infinity, rank_infinity]

theorem isUnitUnless_triangle {a b c : Float} (h : IsRanked a b b c) (hx : x.isNaN = false) :
    IsUnitUnless ((triangle a b c).IsLost x) ((triangle a b c).degree x) := by
  have hab := h.left_le
  have hbc := h.le_right
  have hfoot := natAbs_rank c
  have hbound := isNaN_eq_false_iff.mp h.right_defined
  rw [degree_triangle h hx, IsLost]
  by_cases hrange : rank x < rank a ∨ rank c < rank x
  · have hrising := h.not_risesTooFar hx (by omega)
    have hfalling := h.not_fallsTooFar hx (by omega)
    rw [if_pos hrange]
    exact .zero (not_or.mpr ⟨hrising, hfalling⟩)
  rw [if_neg hrange]
  by_cases hpeak : rank x = rank b
  · have hrising := h.not_risesTooFar hx (by omega)
    have hfalling := h.not_fallsTooFar hx (by omega)
    rw [if_pos hpeak]
    exact .one (not_or.mpr ⟨hrising, hfalling⟩)
  rw [if_neg hpeak]
  by_cases hrise : rank x < rank b
  · have hfalling := h.not_fallsTooFar hx (by omega)
    rw [if_pos hrise, or_iff_left hfalling]
    exact isUnitUnless_rising h hx (by omega) hrise
  have hrising := h.not_risesTooFar hx (by omega)
  rw [if_neg hrise, or_iff_right hrising]
  by_cases hinfinite : rank c = infinityBits
  · rw [if_pos hinfinite]
    refine .one fun hlost => ?_
    have hfinite := isFinite_iff.mp hlost.isFinite_right
    omega
  · rw [if_neg hinfinite]
    exact isUnitUnless_falling h hx (by omega) (by omega) (by omega)

theorem isUnitUnless_trapezoid {a b c d : Float} (h : IsRanked a b c d) (hx : x.isNaN = false) :
    IsUnitUnless ((trapezoid a b c d).IsLost x) ((trapezoid a b c d).degree x) := by
  have hab := h.left_le
  have hbc := h.first_le
  have hcd := h.le_right
  have hfoot := natAbs_rank d
  have hbound := isNaN_eq_false_iff.mp h.right_defined
  rw [degree_trapezoid h hx, IsLost, eq_iff h.right_defined isNaN_infinity, rank_infinity,
    lt_iff h.last_defined hx, lt_iff hx h.right_defined]
  by_cases hrange : rank x < rank a ∨ rank d < rank x
  · have hrising := h.not_risesTooFar hx (by omega)
    have hfalling := h.not_fallsTooFar hx (by omega)
    rw [if_pos hrange]
    exact .zero (not_or.mpr ⟨hrising, not_or.mpr ⟨hfalling, by omega⟩⟩)
  rw [if_neg hrange]
  by_cases hrise : rank x < rank b
  · have hfalling := h.not_fallsTooFar hx (by omega)
    rw [if_pos hrise, or_iff_left (not_or.mpr ⟨hfalling, by omega⟩)]
    exact isUnitUnless_rising h hx (by omega) hrise
  have hrising := h.not_risesTooFar hx (by omega)
  rw [if_neg hrise, or_iff_right hrising]
  by_cases hpeak : rank x ≤ rank c
  · have hfalling := h.not_fallsTooFar hx (by omega)
    rw [if_pos hpeak]
    exact .one (not_or.mpr ⟨hfalling, by omega⟩)
  rw [if_neg hpeak]
  by_cases hfall : rank x < rank d
  · rw [if_pos hfall]
    by_cases hinfinite : rank d = infinityBits
    · -- The distances of the value and of the peak from the foot are both infinite.
      have hvalue := natAbs_rank x
      have hlast := natAbs_rank c
      have hfinite := h.last_lt
      have hopen : d.isInf = true := isInf_iff.mpr (by omega)
      have hnumerator := isInf_sub_of_isInf (y := x) hopen (by omega)
      have hdenominator := isInf_sub_of_isInf (y := c) hopen hfinite
      refine ⟨fun _ => isNaN_div_of_isInf hnumerator hdenominator, fun hkept => ?_⟩
      exact absurd (.inr ⟨hinfinite, by omega, hfall⟩) hkept
    · rw [or_iff_left (by omega)]
      exact isUnitUnless_falling h hx (by omega) (by omega) (by omega)
  · have hfalling := h.not_fallsTooFar hx (by omega)
    have hkept : ¬(FallsTooFar c d x ∨ rank d = infinityBits ∧ rank c < rank x ∧ rank x < rank d) :=
      not_or.mpr ⟨hfalling, by omega⟩
    rw [if_neg hfall]
    split
    · exact .one hkept
    · exact .zero hkept

theorem membership_of_defined (shape : Shape Float) (hx : x.isNaN = false) :
    shape.membership x = shape.degree x := by
  have hdefined : isNaN x = false := hx
  rw [membership, hdefined]
  exact if_neg Bool.false_ne_true

theorem HasVertices.isUnitUnless (hvertices : shape.HasVertices left first last right)
    (h : IsOrdered left first last right) (hx : x.isNaN = false) :
    IsUnitUnless (shape.IsLost x) (shape.membership x) := by
  rw [membership_of_defined shape hx]
  cases hvertices with
  | triangle => exact isUnitUnless_triangle h.isRanked hx
  | trapezoid => exact isUnitUnless_trapezoid h.isRanked hx

/-- No value is left of an infinite left foot, and none between it and the peak has a quotient. -/
theorem HasVertices.membership_left (hvertices : shape.HasVertices left first last right)
    (h : IsOrdered left first last right) (hx : x.isNaN = false) (hleft : left = -infinity)
    (hle : le x last = true) : shape.membership x = one := by
  have hranked := h.isRanked
  have hupper := (le_iff hx hranked.last_defined).mp hle
  have hright := hranked.le_right
  have hfoot : rank left = -infinityBits := by
    rw [hleft]
    exact rank_neg_infinity
  have hvalue := natAbs_rank x
  have hbound := isNaN_eq_false_iff.mp hx
  rw [membership_of_defined shape hx]
  cases hvertices with
  | triangle =>
    rw [degree_triangle hranked hx, if_neg (by omega)]
    by_cases hpeak : rank x = rank first
    · rw [if_pos hpeak]
    · rw [if_neg hpeak, if_pos (by omega), if_pos hfoot]
  | trapezoid =>
    rw [degree_trapezoid hranked hx, if_neg (by omega)]
    by_cases hrise : rank x < rank first
    · rw [if_pos hrise, if_pos hfoot]
    · rw [if_neg hrise, if_pos hupper]

/-- A trapezoid looks for an infinite right foot only at the foot itself. -/
theorem HasVertices.membership_right (hvertices : shape.HasVertices left first last right)
    (h : IsOrdered left first last right) (hx : x.isNaN = false) (hright : right = infinity)
    (hle : le first x = true) (hlost : ¬shape.IsLost x) : shape.membership x = one := by
  have hranked := h.isRanked
  have hlower := (le_iff hranked.first_defined hx).mp hle
  have hleft := hranked.left_le
  have hfoot : rank right = infinityBits := by
    rw [hright]
    exact rank_infinity
  have hvalue := natAbs_rank x
  have hbound := isNaN_eq_false_iff.mp hx
  rw [membership_of_defined shape hx]
  cases hvertices with
  | triangle =>
    rw [degree_triangle hranked hx, if_neg (by omega)]
    by_cases hpeak : rank x = rank first
    · rw [if_pos hpeak]
    · rw [if_neg hpeak, if_neg (by omega), if_pos hfoot]
  | trapezoid =>
    rw [IsLost, eq_iff hranked.right_defined isNaN_infinity, rank_infinity,
      lt_iff hranked.last_defined hx, lt_iff hx hranked.right_defined, not_or, not_or] at hlost
    rw [degree_trapezoid hranked hx, if_neg (by omega), if_neg (by omega)]
    by_cases hpeak : rank x ≤ rank last
    · rw [if_pos hpeak]
    · rw [if_neg hpeak, if_neg (by omega), if_pos hfoot]

/-- The membership of a triangle or a trapezoid is undefined only where it is lost, elsewhere it is
in the unit interval, and an infinite foot keeps it at one on its side of the peak. -/
theorem HasVertices.membership_of_isOrdered (hvertices : shape.HasVertices left first last right)
    (h : IsOrdered left first last right) (hx : isNaN x = false) :
    (isNaN (shape.membership x) = true ↔ shape.IsLost x) ∧
      (¬shape.IsLost x → le zero (shape.membership x) = true ∧ le (shape.membership x) one = true) ∧
      (left = -infinity → le x last = true → shape.membership x = one) ∧
      (right = infinity → le first x = true → ¬shape.IsLost x → shape.membership x = one) := by
  have hunit := hvertices.isUnitUnless h hx
  refine ⟨⟨fun hundefined => ?_, hunit.isNaN⟩, hunit.unit, ?_, ?_⟩
  · by_contra hlost
    obtain ⟨hnonneg, -⟩ := hunit.unit hlost
    have hdefined : isNaN (shape.membership x) = false := (isNaN_of_le hnonneg).2
    exact absurd hundefined (Bool.eq_false_iff.mp hdefined)
  · exact hvertices.membership_left h hx
  · exact hvertices.membership_right h hx

end Membership

/-- A trapezoid that is meant to stay at one. -/
def openRight : Shape Float := .trapezoid 0 0.25 0.75 infinity

theorem isOrdered_openRight : IsOrdered (0 : Float) 0.25 0.75 infinity where
  left_le := by decide +kernel
  first_le := by decide +kernel
  le_right := by decide +kernel
  isFinite_first := by decide +kernel
  isFinite_last := by decide +kernel

theorem isLost_openRight : openRight.IsLost 0.875 :=
  .inr (.inr ⟨by decide +kernel, by decide +kernel, by decide +kernel⟩)

theorem isNaN_membership_openRight :
    openRight.HasVertices 0 0.25 0.75 infinity ∧ IsOrdered (0 : Float) 0.25 0.75 infinity ∧
      isNaN (0.875 : Float) = false ∧ isNaN (openRight.membership 0.875) = true := by
  have hvertices : openRight.HasVertices 0 0.25 0.75 infinity := .trapezoid _ _ _ _
  have hdefined : isNaN (0.875 : Float) = false := by decide +kernel
  have hmembership := hvertices.membership_of_isOrdered isOrdered_openRight hdefined
  exact ⟨hvertices, isOrdered_openRight, hdefined, hmembership.1.mpr isLost_openRight⟩

/-- Not every membership is a number. -/
theorem not_defined_openRight :
    ¬∀ (shape : Shape Float) (left first last right x : Float),
      shape.HasVertices left first last right → IsOrdered left first last right →
        isNaN x = false → isNaN (shape.membership x) = false := by
  intro h
  have hdefined := h openRight 0 0.25 0.75 infinity 0.875 (.trapezoid _ _ _ _) isOrdered_openRight
    (by decide +kernel)
  have hlost : isNaN (openRight.membership 0.875) = true := by decide +kernel
  exact absurd hlost (Bool.eq_false_iff.mp hdefined)

end Shape

end FuzzyInference
