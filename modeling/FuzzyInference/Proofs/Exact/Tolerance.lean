import FuzzyInference.Proofs.Norm.Value

/-!
Comparison up to a tolerance as a system of relations. Equality up to a tolerance is not transitive,
and an infinity has no distance from itself, so the laws of an order are not there from the start.
They hold nevertheless, whatever the tolerance is: values that are the same are equal, the distance
of two numbers grows with the greater one, and nothing is close to an infinity.
-/
namespace FuzzyInference

namespace Tolerance

variable {α : Type} [Scalar α] {ε a b : α}

/-- The laws that tie the comparisons under a tolerance to each other. -/
structure IsConsistent (ε : α) : Prop where
  eq_comm (a b : α) : eq ε a b = eq ε b a
  ne_eq (a b : α) : ne ε a b = !eq ε a b
  gt_eq (a b : α) : gt ε a b = lt ε b a
  ge_eq (a b : α) : ge ε a b = le ε b a
  /-- Two defined values are equal or ordered one way. -/
  existsUnique (a b : α) (ha : Scalar.isNaN a = false) (hb : Scalar.isNaN b = false) :
    ∃! c : Comparison, c ∈ [.equal, .greater, .less] ∧ c.holds ε a b = true
  ge_eq_not (a b : α) (ha : Scalar.isNaN a = false) (hb : Scalar.isNaN b = false) :
    ge ε a b = !lt ε a b
  le_eq_not (a b : α) (ha : Scalar.isNaN a = false) (hb : Scalar.isNaN b = false) :
    le ε a b = !gt ε a b
  /-- An undefined value and a defined one differ, and no more can be said. -/
  holds_of_isNaN_ne (a b : α) (h : Scalar.isNaN a ≠ Scalar.isNaN b) (c : Comparison) :
    c.holds ε a b = true ↔ c = .different
  /-- Two undefined values are equal. -/
  holds_of_isNaN (a b : α) (ha : Scalar.isNaN a = true) (hb : Scalar.isNaN b = true)
    (c : Comparison) : c.holds ε a b = true ↔ c ∈ [.equal, .greaterOrEqual, .lessOrEqual]
  /-- A value that is greater stays so when it grows. -/
  gt_of_le (a b c : α) (hab : gt ε a b = true) (hac : Scalar.le a c = true) : gt ε c b = true
  gt_trans (a b c : α) (hab : gt ε a b = true) (hbc : gt ε b c = true) : gt ε a c = true

theorem eq_eq_true_iff : eq ε a b = true ↔ Scalar.eq a b = true ∨
    Scalar.lt (Scalar.abs (a - b)) ε = true ∨ Scalar.isNaN a = true ∧ Scalar.isNaN b = true := by
  rw [eq, Bool.or_eq_true, Bool.or_eq_true, Bool.and_eq_true, or_assoc]

theorem gt_eq_true_iff : gt ε a b = true ↔ eq ε a b = false ∧ Scalar.lt b a = true := by
  rw [gt, Bool.and_eq_true, Bool.not_eq_true']

end Tolerance

namespace Exact

variable {K : Type} [Field K] [LinearOrder K] [SquareRoot K] {ε a b c : Exact K}

/-! ### Closeness -/

/-- Only numbers are close: the distance from an infinity is infinite or undefined. -/
theorem exists_of_close (h : Scalar.lt (Scalar.abs (a - b)) ε = true) :
    ∃ x y, a = number x ∧ b = number y := by
  cases a with
  | number x =>
    cases b with
    | number y => exact ⟨x, y, rfl, rfl⟩
    | _ => cases ε <;> cases h
  | infinite s =>
    cases b with
    | infinite t => cases s <;> cases t <;> cases ε <;> cases h
    | _ => cases ε <;> cases h
  | undefined => cases b <;> cases ε <;> cases h

theorem abs_sub_swap (a b : Exact K) : Scalar.abs (a - b) = Scalar.abs (b - a) := by
  cases a with
  | number x =>
    cases b with
    | number y => rw [number_sub, number_sub, abs_number, abs_number, abs_sub_comm]
    | _ => rfl
  | infinite s =>
    cases b with
    | infinite t => cases s <;> cases t <;> rfl
    | _ => rfl
  | undefined => cases b <;> rfl

/-! ### Comparisons -/

theorem tolerance_eq_swap (ε a b : Exact K) : Tolerance.eq ε a b = Tolerance.eq ε b a := by
  rw [Tolerance.eq, Tolerance.eq, eq_swap, abs_sub_swap, Bool.and_comm]

theorem tolerance_gt_eq (ε a b : Exact K) : Tolerance.gt ε a b = Tolerance.lt ε b a := by
  rw [Tolerance.gt, Tolerance.lt, tolerance_eq_swap]

theorem tolerance_ge_eq (ε a b : Exact K) : Tolerance.ge ε a b = Tolerance.le ε b a := by
  rw [Tolerance.ge, Tolerance.le, tolerance_eq_swap]

/-- Of two defined values that are not equal one is less. -/
theorem lt_of_tolerance_ne (h : Tolerance.eq ε a b = false) (ha : Scalar.isNaN a = false)
    (hb : Scalar.isNaN b = false) : Scalar.lt b a = !Scalar.lt a b := by
  have hne : Scalar.eq a b ≠ true := fun heq =>
    Bool.eq_false_iff.mp h (Tolerance.eq_eq_true_iff.mpr (.inl heq))
  rcases (eq_or_lt ha hb).resolve_left hne with hlt | hlt
  · rw [Exact.lt_asymm hlt, hlt, Bool.not_true]
  · rw [Exact.lt_asymm hlt, hlt, Bool.not_false]

theorem tolerance_ge_eq_not (ha : Scalar.isNaN a = false) (hb : Scalar.isNaN b = false) :
    Tolerance.ge ε a b = !Tolerance.lt ε a b := by
  rw [Tolerance.ge, Tolerance.lt]
  cases h : Tolerance.eq ε a b with
  | true => rfl
  | false => rw [lt_of_tolerance_ne h ha hb, Bool.false_or, Bool.not_false, Bool.true_and]

theorem existsUnique_holds (ha : Scalar.isNaN a = false) (hb : Scalar.isNaN b = false) :
    ∃! c : Comparison, c ∈ [.equal, .greater, .less] ∧ c.holds ε a b = true := by
  cases h : Tolerance.eq ε a b with
  | true =>
    refine ⟨.equal, ⟨by simp, h⟩, ?_⟩
    rintro c ⟨hc, hholds⟩
    cases c <;> simp_all [Comparison.holds, Tolerance.gt, Tolerance.lt]
  | false =>
    have hgt := lt_of_tolerance_ne h ha hb
    cases hlt : Scalar.lt a b with
    | true =>
      refine ⟨.less, ⟨by simp, by simp [Comparison.holds, Tolerance.lt, h, hlt]⟩, ?_⟩
      rintro c ⟨hc, hholds⟩
      cases c <;> simp_all [Comparison.holds, Tolerance.gt]
    | false =>
      refine ⟨.greater, ⟨by simp, by simp [Comparison.holds, Tolerance.gt, h, hgt, hlt]⟩, ?_⟩
      rintro c ⟨hc, hholds⟩
      cases c <;> simp_all [Comparison.holds, Tolerance.lt]

/-- One value is undefined and the other is not, so they are not the same, not close and not
ordered. -/
theorem holds_iff_different (h : Scalar.isNaN a ≠ Scalar.isNaN b) (c : Comparison) :
    c.holds ε a b = true ↔ c = .different := by
  have heq : Tolerance.eq ε a b = false := by
    rw [Bool.eq_false_iff, Ne, Tolerance.eq_eq_true_iff]
    rintro (heq | hclose | ⟨ha, hb⟩)
    · exact h (congrArg Scalar.isNaN (eq_of_eq heq))
    · obtain ⟨x, y, rfl, rfl⟩ := exists_of_close hclose
      exact h rfl
    · exact h (ha.trans hb.symm)
  have hundefined : Scalar.isNaN a = true ∨ Scalar.isNaN b = true := by
    cases ha : Scalar.isNaN a with
    | true => exact .inl rfl
    | false => exact .inr (Bool.not_eq_false _ ▸ fun hb => h (ha.trans hb.symm))
  have hlt := lt_of_isNaN hundefined
  have hgt := lt_of_isNaN hundefined.symm
  cases c <;> simp [Comparison.holds, Tolerance.lt, Tolerance.le, Tolerance.ne, Tolerance.ge,
    Tolerance.gt, heq, hlt, hgt]

theorem holds_iff_of_isNaN (ha : Scalar.isNaN a = true) (hb : Scalar.isNaN b = true)
    (c : Comparison) :
    c.holds ε a b = true ↔ c ∈ [.equal, .greaterOrEqual, .lessOrEqual] := by
  have heq : Tolerance.eq ε a b = true := Tolerance.eq_eq_true_iff.mpr (.inr (.inr ⟨ha, hb⟩))
  cases c <;> simp [Comparison.holds, Tolerance.lt, Tolerance.le, Tolerance.ne, Tolerance.ge,
    Tolerance.gt, heq]

variable [IsStrictOrderedRing K]

/-- A smaller distance is below the tolerance as well. -/
theorem close_of_le (h : Scalar.lt (Scalar.abs (c - b)) ε = true) (hba : Scalar.lt b a = true)
    (hac : Scalar.le a c = true) : Scalar.lt (Scalar.abs (a - b)) ε = true := by
  obtain ⟨z, y, rfl, rfl⟩ := exists_of_close h
  cases a with
  | number x =>
    have hyx : y < x := of_decide_eq_true hba
    have hxz : x ≤ z := by simpa using hac
    have hle : |x - y| ≤ |z - y| := by
      rw [abs_of_pos (sub_pos.mpr hyx), abs_of_pos (sub_pos.mpr (hyx.trans_le hxz))]
      exact sub_le_sub_right hxz y
    rw [number_sub, abs_number] at h ⊢
    cases ε with
    | number e => exact decide_eq_true (hle.trans_lt (of_decide_eq_true h))
    | _ => exact h
  | infinite s => cases s <;> simp_all [Scalar.lt, Scalar.le, lt, le, eq]
  | undefined => cases hba

theorem tolerance_eq_of_le (h : Tolerance.eq ε c b = true) (hba : Scalar.lt b a = true)
    (hac : Scalar.le a c = true) : Tolerance.eq ε a b = true := by
  rw [Tolerance.eq_eq_true_iff] at h ⊢
  rcases h with heq | hclose | ⟨-, hb⟩
  · have hlt := Exact.lt_of_lt_of_le hba hac
    rw [eq_of_eq heq, Exact.lt_irrefl] at hlt
    cases hlt
  · exact .inr (.inl (close_of_le hclose hba hac))
  · rw [(isNaN_of_lt hba).1] at hb
    cases hb

theorem tolerance_gt_of_le (hab : Tolerance.gt ε a b = true) (hac : Scalar.le a c = true) :
    Tolerance.gt ε c b = true := by
  rw [Tolerance.gt_eq_true_iff] at hab ⊢
  obtain ⟨hne, hlt⟩ := hab
  refine ⟨Bool.eq_false_iff.mpr fun heq => ?_, Exact.lt_of_lt_of_le hlt hac⟩
  exact Bool.eq_false_iff.mp hne (tolerance_eq_of_le heq hlt hac)

/-- The comparisons of exact numbers, infinities and the undefined value are consistent under every
tolerance. -/
theorem isConsistent (ε : Exact K) : Tolerance.IsConsistent ε where
  eq_comm := tolerance_eq_swap ε
  ne_eq _ _ := rfl
  gt_eq := tolerance_gt_eq ε
  ge_eq := tolerance_ge_eq ε
  existsUnique _ _ := existsUnique_holds
  ge_eq_not _ _ := tolerance_ge_eq_not
  le_eq_not a b ha hb := by
    rw [← tolerance_ge_eq, tolerance_gt_eq]
    exact tolerance_ge_eq_not hb ha
  holds_of_isNaN_ne _ _ := holds_iff_different
  holds_of_isNaN _ _ := holds_iff_of_isNaN
  gt_of_le _ _ _ := tolerance_gt_of_le
  gt_trans a b c hab hbc := by
    have hba := (Tolerance.gt_eq_true_iff.mp hab).2
    exact tolerance_gt_of_le hbc (Exact.le_of_lt hba)

/-- Up to one, zero is equal to two thirds and these are equal to four thirds, which are greater than
zero, as infinity is. -/
theorem isConsistent_one :
    Tolerance.IsConsistent (number (1 : ℚ)) ∧
      Tolerance.eq (number (1 : ℚ)) (number 0) (number (2 / 3)) = true ∧
      Tolerance.eq (number (1 : ℚ)) (number (2 / 3)) (number (4 / 3)) = true ∧
      Tolerance.gt (number (1 : ℚ)) (number (4 / 3)) (number 0) = true ∧
      Tolerance.gt (number (1 : ℚ)) Scalar.infinity (number 0) = true := by
  have hconsistent := isConsistent (number (1 : ℚ))
  have hgt : Tolerance.gt (number (1 : ℚ)) (number (4 / 3)) (number 0) = true := by decide +kernel
  refine ⟨hconsistent, by decide +kernel, by decide +kernel, hgt, ?_⟩
  exact hconsistent.gt_of_le _ _ Scalar.infinity hgt rfl

end Exact

end FuzzyInference
