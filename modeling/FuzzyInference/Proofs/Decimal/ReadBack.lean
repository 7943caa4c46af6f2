import FuzzyInference.Decimal.Shortest
import FuzzyInference.Proofs.Decimal.Literal
import FuzzyInference.Proofs.Decimal.Rounding

/-!
Every finite magnitude is read back from its shortest text. The magnitude of a decimal number
depends on its value alone, so zeros may go at the end of the digits. A grid is taken only where it
has a number that reads back, and the exact expansion that stands in otherwise is rounded to the
magnitude it expands.
-/
namespace FuzzyInference.Decimal

attribute [local instance (2000)] instPowNat

/-! ### Magnitudes of decimal numbers -/

theorem width_ten_mul {n : Nat} (h : 0 < n) : width (10 * n) = width n + 1 := by
  have happend := Nat.toDigits_append_toDigits (b := 10) (n := n) (d := 0) (by decide) h (by decide)
  rw [width, width, ← Nat.add_zero (10 * n), ← happend, List.length_append]
  rfl

/-- A zero after the digits may be counted in the exponent. -/
theorem magnitude_ten_mul (n : Nat) (e : Int) :
    magnitude ⟨10 * n, e⟩ = magnitude ⟨n, e + 1⟩ := by
  by_cases hzero : n = 0
  · simp [magnitude, hzero]
  · have horder : (width (10 * n) : Int) + e = width n + (e + 1) := by
      rw [width_ten_mul (by omega)]
      omega
    have hnearest : Binary64.nearest (numerator ⟨10 * n, e⟩) (denominator ⟨10 * n, e⟩) =
        Binary64.nearest (numerator ⟨n, e + 1⟩) (denominator ⟨n, e + 1⟩) := by
      by_cases he : 0 ≤ e
      · have hup : (e + 1).toNat = e.toNat + 1 := by omega
        have hdown : (-(e + 1)).toNat = (-e).toNat := by omega
        simp only [numerator, denominator, hup, hdown, Nat.pow_succ]
        rw [Nat.mul_comm 10 n, Nat.mul_assoc, Nat.mul_comm 10]
      · have hup : (e + 1).toNat = e.toNat := by omega
        have hdown : (-e).toNat = (-(e + 1)).toNat + 1 := by omega
        simp only [numerator, denominator, hup, hdown, Nat.pow_succ]
        rw [Nat.mul_assoc, Nat.mul_comm _ 10, Binary64.nearest_mul_left (by decide)]
    simp only [magnitude, horder, hnearest, hzero, show 10 * n ≠ 0 by omega]

theorem magnitude_normalize (d : Decimal) : d.normalize.magnitude = d.magnitude := by
  fun_induction normalize d with
  | case1 d h ih =>
    have hten : 10 * (d.digits / 10) = d.digits := by omega
    rw [ih, ← magnitude_ten_mul, hten]
  | case2 d h => rfl

theorem magnitude_mul_pow (n k : Nat) : magnitude ⟨n * 10 ^ k, 0⟩ = magnitude ⟨n, k⟩ := by
  induction k generalizing n with
  | zero => rw [Nat.pow_zero, Nat.mul_one]; rfl
  | succ k ih =>
    have hpow : n * 10 ^ (k + 1) = 10 * n * 10 ^ k := by
      rw [Nat.pow_succ, Nat.mul_comm (10 ^ k), ← Nat.mul_assoc, Nat.mul_comm n]
    rw [hpow, ih, magnitude_ten_mul]
    rfl

/-! ### Shortest and exact numbers -/

theorem numerator_pos {bits : Nat} (hpos : 0 < bits) : 0 < Binary64.numerator bits :=
  Nat.mul_pos (Binary64.significand_pos hpos) (Nat.two_pow_pos _)

theorem numerator_lt {bits : Nat} (hfinite : bits < Binary64.infinityBits) :
    Binary64.numerator bits < 10 ^ 310 := by
  have hscale := Binary64.scale_le hfinite
  have hsignificand := Binary64.significand_lt bits
  have hbound := Nat.pow_le_pow_right (show 0 < 2 by decide)
    (show Binary64.scale bits - 1074 ≤ 971 by omega)
  calc Binary64.numerator bits
      ≤ 2 ^ 53 * 2 ^ 971 := Nat.mul_le_mul hsignificand.le hbound
    _ < 10 ^ 310 := by decide +kernel

theorem ten_pow (n : Nat) : 10 ^ n = 5 ^ n * 2 ^ n := by rw [← Nat.mul_pow]

/-- A product with a power of five has nearly as many digits as the power of ten has. -/
theorem lt_width_add {n places k : Nat} (hn : 0 < n) (hpow : 2 ^ places < 10 ^ k) :
    places < width (n * 5 ^ places) + k := by
  by_contra hshort
  have hwidth : 0 < width (n * 5 ^ places) := List.length_pos_iff.mpr Nat.toDigits_ne_nil
  have hle : width (n * 5 ^ places) ≤ places - k := by omega
  have hdigits : n * 5 ^ places < 10 ^ (places - k) :=
    (Nat.length_toDigits_le_iff (by decide) (by omega)).mp hle
  have hlow : 5 ^ places ≤ n * 5 ^ places := Nat.le_mul_of_pos_left _ hn
  have hless : 5 ^ places * 10 ^ k < 5 ^ places * 2 ^ places := by
    calc 5 ^ places * 10 ^ k
        < 10 ^ (places - k) * 10 ^ k :=
          Nat.mul_lt_mul_of_pos_right (by omega) (Nat.pow_pos (by decide))
      _ = 10 ^ places := Nat.pow_sub_mul_pow 10 (by omega)
      _ = 5 ^ places * 2 ^ places := ten_pow places
  have hpow' : 10 ^ k < 2 ^ places := Nat.lt_of_mul_lt_mul_left hless
  omega

theorem width_le_add {n places k : Nat} (hn : n < 10 ^ k) (hk : 0 < k) :
    width (n * 5 ^ places) ≤ k + places := by
  apply (Nat.length_toDigits_le_iff (by decide) (by omega)).mpr
  calc n * 5 ^ places
      < 10 ^ k * 10 ^ places := Nat.mul_lt_mul_of_lt_of_le hn
        (Nat.pow_le_pow_left (by decide) _) (Nat.pow_pos (by decide))
    _ = 10 ^ (k + places) := (Nat.pow_add 10 k places).symm

/-- The exact expansion is never so small or so large that only its order counts. -/
theorem order_exact {bits : Nat} (hpos : 0 < bits) (hfinite : bits < Binary64.infinityBits) :
    -330 ≤ (width (exact bits).digits : Int) + (exact bits).exponent ∧
      (width (exact bits).digits : Int) + (exact bits).exponent ≤ 310 := by
  generalize hplaces : 1074 - Binary64.scale bits = places
  have hdigits : (exact bits).digits = Binary64.numerator bits * 5 ^ places := by
    simp only [exact, hplaces]
  have hexponent : (exact bits).exponent = -(places : Int) := by simp only [exact, hplaces]
  have hpow : 2 ^ places < 10 ^ 331 :=
    Nat.lt_of_le_of_lt (Nat.pow_le_pow_right (by decide) (show places ≤ 1074 by omega))
      (by decide +kernel)
  have hlow := lt_width_add (numerator_pos hpos) hpow
  have hhigh : width (Binary64.numerator bits * 5 ^ places) ≤ 310 + places :=
    width_le_add (k := 310) (numerator_lt hfinite) (by decide)
  rw [hdigits, hexponent]
  constructor <;> omega

theorem magnitude_exact {bits : Nat} (hpos : 0 < bits) (hfinite : bits < Binary64.infinityBits) :
    (exact bits).magnitude = bits := by
  obtain ⟨hlow, hhigh⟩ := order_exact hpos hfinite
  have hdigits : (exact bits).digits ≠ 0 :=
    Nat.mul_ne_zero (numerator_pos hpos).ne' (Nat.pow_pos (by decide)).ne'
  have hvalue : Binary64.nearest (exact bits).numerator (exact bits).denominator = bits := by
    generalize hplaces : 1074 - Binary64.scale bits = places
    have hup : (-(places : Int)).toNat = 0 := by omega
    have hdown : (- -(places : Int)).toNat = places := by omega
    have hdenominator : Binary64.denominator bits = 2 ^ places := by
      rw [Binary64.denominator, hplaces]
    simp only [numerator, denominator, exact, hplaces, hup, hdown, Nat.pow_zero, Nat.mul_one]
    rw [Nat.mul_comm, ten_pow, ← hdenominator, Binary64.nearest_mul_left (Nat.pow_pos (by decide))]
    exact Binary64.nearest_numerator hfinite.le
  rw [magnitude]
  simp only [hvalue]
  rw [if_neg (by omega), if_neg (by omega)]

theorem magnitude_of_onGrid {bits : Nat} {exponent : Int} {d : Decimal}
    (h : onGrid bits exponent = some d) : d.magnitude = bits := by
  simp only [onGrid] at h
  split at h
  · next hlower =>
    obtain rfl := Option.some.inj h
    exact hlower.1
  · split at h
    · next hupper =>
      obtain rfl := Option.some.inj h
      exact hupper
    · cases h

theorem magnitude_shortest {bits : Nat} (hpos : 0 < bits) (hfinite : bits < Binary64.infinityBits) :
    (shortest bits).magnitude = bits := by
  simp only [shortest]
  split
  · next d hd =>
    obtain ⟨count, -, hcount⟩ := List.exists_of_findSome?_eq_some hd
    rw [magnitude_normalize, magnitude_of_onGrid hcount]
  · exact magnitude_exact hpos hfinite

/-! ### Positional texts -/

/-- The digits with as many zeros before them as the places need. -/
def padded (n places : Nat) : List Char :=
  List.replicate (places + 1 - (Nat.toDigits 10 n).length) '0' ++ Nat.toDigits 10 n

theorem isDigit_of_mem_padded {n places : Nat} {c : Char} (h : c ∈ padded n places) :
    c.isDigit = true := by
  rcases List.mem_append.mp h with hzero | hdigit
  · rw [List.eq_of_mem_replicate hzero]
    rfl
  · exact Nat.isDigit_of_mem_toDigits (by decide) (by decide) hdigit

/-- Reading the digits of a number gives the number. -/
theorem ofDigits_toDigits (n : Nat) : Numeral.ofDigits (Nat.toDigits 10 n) = n :=
  Nat.ofDigitChars_toDigits (by decide) (by decide)

theorem ofDigits_padded (n places : Nat) : Numeral.ofDigits (padded n places) = n := by
  have hzeros : ∀ k : Nat, Numeral.ofDigits (List.replicate k '0') = 0 := by
    intro k
    induction k with
    | zero => rfl
    | succ k ih => exact ih
  have hdigits := ofDigits_toDigits n
  have happend := hzeros (places + 1 - (Nat.toDigits 10 n).length)
  rw [Numeral.ofDigits] at happend hdigits ⊢
  rw [padded, List.foldl_append, happend, hdigits]

/-- There is a digit before the point. -/
theorem lt_length_padded (n places : Nat) : places < (padded n places).length := by
  simp only [padded, List.length_append, List.length_replicate]
  omega

theorem positional_eq (n places : Nat) : positional n places =
    if places = 0 then padded n places else
      (padded n places).take ((padded n places).length - places) ++
        '.' :: (padded n places).drop ((padded n places).length - places) := rfl

/-- A positional text is a literal, and its value is what the text was made of. -/
theorem exists_literal_positional (n places : Nat) : ∃ l : Numeral.Literal,
    l.chars = positional n places ∧ l.value = ⟨n, -(places : Int)⟩ := by
  have hisDigit : ∀ c ∈ padded n places, c.isDigit = true := fun c hc => isDigit_of_mem_padded hc
  have hlength := lt_length_padded n places
  have hne : padded n places ≠ [] := List.length_pos_iff.mp (by omega)
  have hvalue := ofDigits_padded n places
  rw [positional_eq]
  by_cases hplaces : places = 0
  · subst hplaces
    refine ⟨⟨padded n 0, none, none, hisDigit, by simp, by simpa using hne⟩, ?_, ?_⟩
    · simp [Numeral.Literal.chars, Numeral.Literal.fractionChars, Numeral.Literal.exponentChars]
    · simp [Numeral.Literal.value, hvalue]
  · rw [if_neg hplaces]
    generalize hwhole : (padded n places).length - places = whole
    have hsplit : (padded n places).take whole ++ (padded n places).drop whole = padded n places :=
      List.take_append_drop ..
    have hfraction : ((padded n places).drop whole).length = places := by
      rw [List.length_drop]
      omega
    refine ⟨⟨(padded n places).take whole, some ((padded n places).drop whole), none,
      fun c hc => hisDigit c (List.mem_of_mem_take hc),
      fun c hc => hisDigit c (List.mem_of_mem_drop hc), by simpa [hsplit] using hne⟩, ?_, ?_⟩
    · simp [Numeral.Literal.chars, Numeral.Literal.fractionChars, Numeral.Literal.exponentChars]
    · simp [Numeral.Literal.value, hsplit, hvalue, hfraction]

theorem mem_positional {n places : Nat} {c : Char} (h : c ∈ positional n places) :
    c.isDigit = true ∨ c = '.' := by
  rw [positional_eq] at h
  split at h
  · exact Or.inl (isDigit_of_mem_padded h)
  · rcases List.mem_append.mp h with hwhole | hrest
    · exact Or.inl (isDigit_of_mem_padded (List.mem_of_mem_take hwhole))
    · rcases List.mem_cons.mp hrest with hpoint | hfraction
      · exact Or.inr hpoint
      · exact Or.inl (isDigit_of_mem_padded (List.mem_of_mem_drop hfraction))

/-- The value of a positional text is that of the number it was written for. -/
theorem magnitude_numerator (d : Decimal) :
    magnitude ⟨d.numerator, -((-d.exponent).toNat : Int)⟩ = d.magnitude := by
  by_cases he : 0 ≤ d.exponent
  · have hup : (d.exponent.toNat : Int) = d.exponent := by omega
    have hdown : -((-d.exponent).toNat : Int) = 0 := by omega
    rw [hdown, numerator, magnitude_mul_pow, hup]
  · have hup : d.exponent.toNat = 0 := by omega
    have hdown : -((-d.exponent).toNat : Int) = d.exponent := by omega
    rw [hdown, numerator, hup, Nat.pow_zero, Nat.mul_one]

end FuzzyInference.Decimal
