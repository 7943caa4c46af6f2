import FuzzyInference.Proofs.Norm.Laws
import Mathlib.Tactic.FieldSimp

/-!
The seven pairs of a T-norm and an S-norm. The S-norm of a pair is the complement of the T-norm of
the complements. The guards of a pair are the same at complements, except for the Hamacher norms:
there the sum is cut off earlier than the product, but so near to the corner that the product is
less than the tolerance.
-/
namespace FuzzyInference

/-- The seven pairs of a T-norm and the S-norm that is its dual. -/
inductive Dual {α : Type} : TNorm α → SNorm α → Prop where
  | algebraic : Dual .algebraicProduct .algebraicSum
  | bounded : Dual .boundedDifference .boundedSum
  | drastic : Dual .drasticProduct .drasticSum
  | einstein : Dual .einsteinProduct .einsteinSum
  | hamacher : Dual .hamacherProduct .hamacherSum
  | extremal : Dual .minimum .maximum
  | nilpotent : Dual .nilpotentMinimum .nilpotentMaximum

theorem Dual.mem_builtins {α : Type} {t : TNorm α} {s : SNorm α} (h : Dual t s) :
    t ∈ TNorm.builtins ∧ s ∈ SNorm.builtins := by
  cases h <;> simp [TNorm.builtins, SNorm.builtins]

variable {K : Type} [Field K] [LinearOrder K] [IsStrictOrderedRing K] {ε : K}
variable {t : TNorm (Exact K)} {s : SNorm (Exact K)}

/-! ### Exact duals -/

/-- But for the Hamacher norms, both norms of a pair are guarded at the same places. -/
theorem Dual.value_eq (h : Dual t s) (hne : t ≠ .hamacherProduct) {a b : K}
    (ha : a ∈ Set.Icc (0 : K) 1) (hb : b ∈ Set.Icc (0 : K) 1) :
    s.value ε a b = complemented (t.value ε) a b := by
  unfold complemented
  cases h with
  | algebraic =>
    simp only [SNorm.value, TNorm.value]
    ring
  | bounded =>
    have hcomplements : 1 - a + (1 - b) - 1 = 1 - (a + b) := by ring
    simp only [SNorm.value, TNorm.value, hcomplements]
    rw [← min_sub_sub_left, sub_zero, sub_sub_cancel]
  | drastic =>
    simp only [SNorm.value, TNorm.value, cutOff, max_sub_sub_left, min_sub_sub_left,
      sub_lt_sub_iff_left]
    split
    · rw [sub_sub_cancel]
    · rw [sub_zero]
  | einstein =>
    have hdivisor : 1 + a * b ≠ 0 := by linarith [mul_nonneg ha.1 hb.1]
    simp only [SNorm.value, TNorm.value, sub_sub_cancel]
    field_simp
    ring
  | hamacher => exact absurd rfl hne
  | extremal => simp only [SNorm.value, TNorm.value, min_sub_sub_left, sub_sub_cancel]
  | nilpotent =>
    have hguard : 1 - a + (1 - b) - 1 = 1 - (a + b) := by ring
    simp only [SNorm.value, TNorm.value, cutOff, hguard, min_sub_sub_left]
    split
    · rw [sub_sub_cancel]
    · rw [sub_zero]

/-! ### Hamacher norms -/

omit [IsStrictOrderedRing K] in
/-- The Hamacher sum is the dual of the product that is cut off where its divisor is less than the
tolerance. -/
theorem value_hamacherSum (hε : 0 < ε) (a b : K) :
    SNorm.hamacherSum.value ε a b =
      complemented (cutOff (fun a b => ε ≤ a + b - a * b) hamacher) a b := by
  have hdivisor : 1 - a + (1 - b) - (1 - a) * (1 - b) = 1 - a * b := by ring
  simp only [SNorm.value, complemented, cutOff, hamacher, hdivisor]
  split
  · next hfar =>
    have hne : 1 - a * b ≠ 0 := (hε.trans_le hfar).ne'
    field_simp
    ring
  · rw [sub_zero]

/-- Where only one of the boundaries cuts the Hamacher product off, it is less than the divisor, and
so less than the tolerance. -/
theorem abs_hamacher_cutOff_sub_lt (hε : 0 < ε) {a b : K} (ha : a ∈ Set.Icc (0 : K) 1)
    (hb : b ∈ Set.Icc (0 : K) 1) :
    |cutOff (fun a b => ε ≤ a + b) hamacher a b -
      cutOff (fun a b => ε ≤ a + b - a * b) hamacher a b| < ε := by
  have hmul : 0 ≤ a * b := mul_nonneg ha.1 hb.1
  unfold cutOff
  by_cases hdivisor : ε ≤ a + b - a * b
  · rwa [if_pos hdivisor, if_pos (by linarith), sub_self, abs_zero]
  · rw [if_neg hdivisor, sub_zero]
    split
    · have hnorm := isTNorm_hamacher hε
      rw [abs_of_nonneg (hnorm.nonneg a ha b hb)]
      calc hamacher a b ≤ min a b := hnorm.le_min a ha b hb
        _ ≤ a := min_le_left a b
        _ ≤ a + b - a * b := by linarith [mul_le_of_le_one_left hb.1 ha.2]
        _ < ε := not_le.mp hdivisor
    · rwa [abs_zero]

/-! ### All pairs -/

theorem Dual.abs_value_sub_lt (hε : 0 < ε) (h : Dual t s) {a b : K} (ha : a ∈ Set.Icc (0 : K) 1)
    (hb : b ∈ Set.Icc (0 : K) 1) : |s.value ε a b - complemented (t.value ε) a b| < ε := by
  by_cases hne : t = .hamacherProduct
  · subst hne
    cases h
    rw [value_hamacherSum hε, complemented, complemented, sub_sub_sub_cancel_left]
    exact abs_hamacher_cutOff_sub_lt hε (one_sub_mem ha) (one_sub_mem hb)
  · rwa [h.value_eq hne ha hb, sub_self, abs_zero]

/-- For two degrees the S-norm of a pair is closer than the tolerance to the complement of what the
T-norm gives for their complements. -/
theorem Dual.deviation_lt [SquareRoot K] (hε : 0 < ε) (h : Dual t s) :
    ∃ f g, t.Computes ε f ∧ s.Computes ε g ∧
      ∀ a ∈ Set.Icc (0 : K) 1, ∀ b ∈ Set.Icc (0 : K) 1, |g a b - (1 - f (1 - a) (1 - b))| < ε := by
  obtain ⟨ht, hs⟩ := h.mem_builtins
  exact ⟨t.value ε, s.value ε, TNorm.computes_value hε ht, SNorm.computes_value hε hs,
    fun a ha b hb => h.abs_value_sub_lt hε ha hb⟩

/-- With one half as the tolerance three quarters are summed up to one, but one quarter is multiplied
with itself, so that the Hamacher norms are a seventh apart. -/
theorem deviation_lt_threeQuarters :
    (0 : ℚ) < 1 / 2 ∧ Dual (α := Exact ℚ) .hamacherProduct .hamacherSum ∧
      ∃ f g, TNorm.hamacherProduct.Computes (1 / 2 : ℚ) f ∧
        SNorm.hamacherSum.Computes (1 / 2 : ℚ) g ∧ g (3 / 4) (3 / 4) = 1 ∧
        f (1 / 4) (1 / 4) = 1 / 7 ∧ |g (3 / 4) (3 / 4) - (1 - f (1 - 3 / 4) (1 - 3 / 4))| < 1 / 2 := by
  have hε : (0 : ℚ) < 1 / 2 := by norm_num
  have hquarters : (3 / 4 : ℚ) ∈ Set.Icc (0 : ℚ) 1 := by constructor <;> norm_num
  have hquarter : (1 / 4 : ℚ) ∈ Set.Icc (0 : ℚ) 1 := by constructor <;> norm_num
  have hsum : SNorm.hamacherSum.compute (Exact.number (1 / 2 : ℚ)) (.number (3 / 4))
      (.number (3 / 4)) = .number 1 := by
    decide +kernel
  have hproduct : TNorm.hamacherProduct.compute (Exact.number (1 / 2 : ℚ)) (.number (1 / 4))
      (.number (1 / 4)) = .number (1 / 7) := by
    decide +kernel
  obtain ⟨f, g, hf, hg, hdeviation⟩ := Dual.deviation_lt (K := ℚ) hε .hamacher
  refine ⟨hε, .hamacher, f, g, hf, hg, ?_, ?_, hdeviation _ hquarters _ hquarters⟩
  · exact Exact.number.inj ((hg _ hquarters _ hquarters).1.symm.trans hsum)
  · exact Exact.number.inj ((hf _ hquarter _ hquarter).1.symm.trans hproduct)

end FuzzyInference
