import FuzzyInference.Proofs.Norm.Duality

/-!
The laws of the built-in norms over exact numbers. With a tolerance below one every registered
T-norm is a norm up to that tolerance, and so is every registered S-norm. The S-norms are bounded by
one, as duals of T-norms, except for the sum that has no bound.
-/
namespace FuzzyInference

variable {K : Type} [Field K] [LinearOrder K] [IsStrictOrderedRing K] {ε : K}

/-! ### S-norms -/

theorem IsSNorm.congr {f g : K → K → K} (h : IsSNorm ε f)
    (heq : ∀ a ∈ Set.Icc (0 : K) 1, ∀ b ∈ Set.Icc (0 : K) 1, g a b = f a b) : IsSNorm ε g where
  comm a ha b hb := by
    rw [heq a ha b hb, heq b hb a ha]
    exact h.comm a ha b hb
  max_le a ha b hb := by
    rw [heq a ha b hb]
    exact h.max_le a ha b hb
  mono a ha a' ha' b hb hle := by
    rw [heq a ha b hb, heq a' ha' b hb]
    exact h.mono a ha a' ha' b hb hle
  zero a ha := by
    rw [heq a ha 0 ⟨le_rfl, zero_le_one⟩]
    exact h.zero a ha

theorem isTNorm_hamacher_cutOff (hε : 0 < ε) (hε' : ε < 1) :
    IsTNorm ε (cutOff (fun a b : K => ε ≤ a + b - a * b) hamacher) := by
  refine isTNorm_cutOff (isTNorm_hamacher hε) (fun a b => by rw [add_comm, mul_comm])
    (fun a _ a' _ b hb hle hkeeps => hkeeps.trans ?_) fun a _ hcut => ?_
  · nlinarith [mul_nonneg (sub_nonneg.mpr hle) (sub_nonneg.mpr hb.2)]
  · rw [mul_one, add_sub_cancel_left] at hcut
    exact absurd hε'.le hcut

/-- Over exact numbers a sum that is divided by its excess over one is a sum with the bound one. -/
theorem value_normalizedSum {a b : K} (ha : a ∈ Set.Icc (0 : K) 1) (hb : b ∈ Set.Icc (0 : K) 1) :
    SNorm.normalizedSum.value ε a b = complemented (TNorm.boundedDifference.value ε) a b := by
  rw [← Dual.bounded.value_eq (by simp) ha hb]
  simp only [SNorm.value]
  obtain hle | hle := le_total (a + b) 1
  · rw [max_eq_left hle, min_eq_right hle, div_one]
  · rw [max_eq_right hle, min_eq_left hle, div_self (zero_lt_one.trans_le hle).ne']

/-- Every built-in S-norm with a bound is the dual of a T-norm. -/
theorem SNorm.exists_dual (hε : 0 < ε) (hε' : ε < 1) {norm : SNorm (Exact K)}
    (h : norm ∈ builtins) (hne : norm ≠ .unboundedSum) :
    ∃ f, IsTNorm ε f ∧ ∀ a ∈ Set.Icc (0 : K) 1, ∀ b ∈ Set.Icc (0 : K) 1,
      norm.value ε a b = complemented f a b := by
  have of_pair : ∀ {t : TNorm (Exact K)}, Dual t norm → t ≠ .hamacherProduct →
      ∃ f, IsTNorm ε f ∧ ∀ a ∈ Set.Icc (0 : K) 1, ∀ b ∈ Set.Icc (0 : K) 1,
        norm.value ε a b = complemented f a b :=
    fun hdual hne => ⟨_, TNorm.isTNorm_value hε hε' hdual.mem_builtins.1,
      fun _ ha _ hb => hdual.value_eq hne ha hb⟩
  cases norm with
  | algebraicSum => exact of_pair .algebraic (by simp)
  | boundedSum => exact of_pair .bounded (by simp)
  | drasticSum => exact of_pair .drastic (by simp)
  | einsteinSum => exact of_pair .einstein (by simp)
  | hamacherSum =>
    exact ⟨_, isTNorm_hamacher_cutOff hε hε', fun a _ b _ => value_hamacherSum hε a b⟩
  | maximum => exact of_pair .extremal (by simp)
  | nilpotentMaximum => exact of_pair .nilpotent (by simp)
  | normalizedSum =>
    exact ⟨_, isTNorm_boundedDifference hε, fun _ ha _ hb => value_normalizedSum ha hb⟩
  | unboundedSum => exact absurd rfl hne
  | formula norm => simp [builtins] at h
  | custom name combine => simp [builtins] at h

theorem isSNorm_add (hε : 0 < ε) : IsSNorm ε fun a b : K => a + b where
  comm a _ b _ := add_comm a b
  max_le a ha b hb := max_le (le_add_of_nonneg_right hb.1) (le_add_of_nonneg_left ha.1)
  mono a _ a' _ b _ hle := by linarith
  zero a _ := by rwa [add_zero, sub_self, abs_zero]

theorem SNorm.isSNorm_value (hε : 0 < ε) (hε' : ε < 1) {norm : SNorm (Exact K)}
    (h : norm ∈ builtins) :
    IsSNorm ε (norm.value ε) ∧ (norm ≠ .unboundedSum → IsBounded (norm.value ε)) := by
  by_cases hne : norm = .unboundedSum
  · subst hne
    exact ⟨isSNorm_add hε, fun hbounded => absurd rfl hbounded⟩
  · obtain ⟨f, hf, heq⟩ := exists_dual hε hε' h hne
    refine ⟨(isSNorm_complemented hf).congr heq, fun _ a ha b hb => ?_⟩
    rw [heq a ha b hb]
    exact isBounded_complemented hf a ha b hb

/-! ### Registered norms -/

/-- With a tolerance between zero and one every registered T-norm and every registered S-norm gives
for two degrees, without a division by zero, the value of a function that obeys the laws of a norm
up to the tolerance; only the unbounded sum may exceed one. -/
theorem laws_of_find [SquareRoot K] (hε : 0 < ε) (hε' : ε < 1) :
    (∀ {key : String} {norm : TNorm (Exact K)}, TNorm.registry.find key = .ok norm →
      ∃ f, norm.Computes ε f ∧ IsTNorm ε f) ∧
    (∀ {key : String} {norm : SNorm (Exact K)}, SNorm.registry.find key = .ok norm →
      ∃ f, norm.Computes ε f ∧ IsSNorm ε f ∧ (norm ≠ .unboundedSum → IsBounded f)) := by
  constructor
  · intro key norm hfind
    have hmem := (Registry.name_of_find TNorm.name hfind).1
    exact ⟨norm.value ε, TNorm.computes_value hε hmem, TNorm.isTNorm_value hε hε' hmem⟩
  · intro key norm hfind
    have hmem := (Registry.name_of_find SNorm.name hfind).1
    exact ⟨norm.value ε, SNorm.computes_value hε hmem, SNorm.isSNorm_value hε hε' hmem⟩

/-- With a millionth as the tolerance half of it is lost against one by the nilpotent minimum. -/
theorem laws_of_find_millionth :
    (0 : ℚ) < 1 / 1000000 ∧ (1 / 1000000 : ℚ) < 1 ∧
      TNorm.registry.find "NilpotentMinimum" = .ok (.nilpotentMinimum : TNorm (Exact ℚ)) ∧
      SNorm.registry.find "NormalizedSum" = .ok (.normalizedSum : SNorm (Exact ℚ)) ∧
      (∃ f, TNorm.nilpotentMinimum.Computes (1 / 1000000 : ℚ) f ∧ IsTNorm (1 / 1000000) f ∧
        f (1 / 2000000) 1 = 0) ∧
      ∃ f, SNorm.normalizedSum.Computes (1 / 1000000 : ℚ) f ∧ IsSNorm (1 / 1000000) f ∧
        IsBounded f := by
  have hε : (0 : ℚ) < 1 / 1000000 := by norm_num
  have hε' : (1 / 1000000 : ℚ) < 1 := by norm_num
  have hfind : TNorm.registry.find "NilpotentMinimum" =
      .ok (.nilpotentMinimum : TNorm (Exact ℚ)) := rfl
  have hfind' : SNorm.registry.find "NormalizedSum" =
      .ok (.normalizedSum : SNorm (Exact ℚ)) := rfl
  have hcut : TNorm.nilpotentMinimum.compute (Exact.number (1 / 1000000 : ℚ))
      (.number (1 / 2000000)) (.number 1) = .number 0 := by
    decide +kernel
  have hlaws := laws_of_find hε hε'
  obtain ⟨f, hf, hnorm⟩ := hlaws.1 hfind
  obtain ⟨g, hg, hnorm', hbounded⟩ := hlaws.2 hfind'
  refine ⟨hε, hε', hfind, hfind', ⟨f, hf, hnorm, ?_⟩, g, hg, hnorm', hbounded (by simp)⟩
  have hvalue := (hf (1 / 2000000) ⟨by norm_num, by norm_num⟩ 1 ⟨by norm_num, le_rfl⟩).1
  exact Exact.number.inj (hvalue.symm.trans hcut)

end FuzzyInference
