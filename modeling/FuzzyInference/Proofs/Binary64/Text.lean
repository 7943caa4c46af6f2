import FuzzyInference.Proofs.Binary64.Unpacked
import FuzzyInference.Proofs.Decimal.ReadBack
import FuzzyInference.Proofs.Formula.Lexeme

/-!
Every binary64 number is read back from its text: the sign is kept also for zero, the infinities and
the undefined value have their words, and a finite number has the digits of its magnitude. The texts
are words that may stand in a rule, in front of a comment or behind a keyword.
-/
namespace FuzzyInference.Binary64

attribute [local instance (2000)] instPowNat

theorem eq_nan_of_isNaN {x : Float} (h : x.isNaN = true) : x = Float.nan := by
  simpa [Float.isNaN_eq_decide_eq_nan] using h

/-- A number is its sign and its magnitude. -/
theorem ofMagnitude_magnitude (x : Float) : ofMagnitude (isNegative x) (magnitude x) = x := by
  have hlt := x.toBits.toNat_lt
  have hbits : (if isNegative x then signWeight + magnitude x else magnitude x) =
      x.toBits.toNat := by
    simp only [isNegative, decide_eq_true_eq]
    unfold magnitude signWeight
    split <;> omega
  rw [ofMagnitude, hbits, UInt64.ofNat_toNat, Float.ofBits_toBits]

/-! ### Texts -/

/-- A character of a text without a sign: no blank, no sign and no start of a comment. -/
def isPlain (c : Char) : Bool := !Text.isBlank c && c ≠ '#' && c ≠ '-' && c ≠ '+'

theorem isPlain_of_isDigit {c : Char} (h : c.isDigit = true) : isPlain c = true := by
  have hblank := Formula.isBlank_of_isDigit h
  have hmarks : c ≠ '#' ∧ c ≠ '-' ∧ c ≠ '+' := by
    refine ⟨?_, ?_, ?_⟩ <;> rintro rfl <;> exact absurd h (by decide)
  simp [isPlain, hblank, hmarks]

/-- The digits of a finite magnitude are read as that magnitude. -/
theorem exists_read?_digits {bits : Nat} (hfinite : bits < infinityBits) :
    ∃ value : Decimal, value.magnitude = bits ∧
      Numeral.read? (if bits = 0 then ['0'] else (Decimal.shortest bits).text) =
        some (false, .finite value) ∧
      ∀ c ∈ if bits = 0 then ['0'] else (Decimal.shortest bits).text, isPlain c = true := by
  have hplain : ∀ n places : Nat, ∀ c ∈ Decimal.positional n places, isPlain c = true := by
    intro n places c hc
    rcases Decimal.mem_positional hc with hdigit | rfl
    · exact isPlain_of_isDigit hdigit
    · decide
  by_cases hzero : bits = 0
  · exact ⟨⟨0, 0⟩, hzero.symm, by simp only [hzero, if_true]; rfl, by simp [hzero]; decide⟩
  · obtain ⟨l, hchars, hvalue⟩ := Decimal.exists_literal_positional
      (Decimal.shortest bits).numerator (-(Decimal.shortest bits).exponent).toNat
    rw [if_neg hzero, Decimal.text, ← hchars]
    refine ⟨l.value, ?_, l.read?_chars, ?_⟩
    · rw [hvalue, Decimal.magnitude_numerator]
      exact Decimal.magnitude_shortest (by omega) hfinite
    · rw [hchars]
      exact hplain _ _

/-- The text of a number is a sign, if it is negative, and a text that is read as its magnitude. -/
theorem exists_unsigned (x : Float) : ∃ negative unsigned numeral,
    NumberText.text x = String.ofList (if negative then '-' :: unsigned else unsigned) ∧
      (∀ c ∈ unsigned, isPlain c = true) ∧
      Numeral.read? unsigned = some (false, numeral) ∧ ofNumeral negative numeral = x := by
  change ∃ negative unsigned numeral, text x = _ ∧ _
  rw [text, textWith]
  by_cases hnan : x.isNaN = true
  · rw [if_pos hnan, eq_nan_of_isNaN hnan]
    exact ⟨false, ['N', 'a', 'N'], .undefined, rfl, by simp [isPlain, Text.isBlank], rfl, rfl⟩
  · rw [if_neg hnan]
    by_cases hinf : x.isInf = true
    · refine ⟨isNegative x, ['i', 'n', 'f'], .infinity, ?_,
        by simp [isPlain, Text.isBlank], rfl, ?_⟩
      · rw [if_pos hinf]
        rfl
      · rw [ofNumeral, ← isInf_iff.mp hinf, ofMagnitude_magnitude]
    · obtain ⟨value, hvalue, hread, hplain⟩ := exists_read?_digits
        (magnitude_lt (by simpa using hnan) (by simpa using hinf))
      refine ⟨isNegative x, _, .finite value, by rw [if_neg hinf], hplain, hread, ?_⟩
      rw [ofNumeral, hvalue, ofMagnitude_magnitude]

/-- A sign changes nothing but the sign. -/
theorem read?_signed {unsigned : List Char} {numeral : Numeral}
    (hplain : ∀ c ∈ unsigned, isPlain c = true)
    (h : Numeral.read? unsigned = some (false, numeral)) (negative : Bool) :
    Numeral.read? (if negative then '-' :: unsigned else unsigned) =
      some (negative, numeral) := by
  cases negative with
  | false => exact h
  | true =>
    have hsign : Numeral.sign unsigned = (false, unsigned) := by
      cases unsigned with
      | nil => rfl
      | cons c rest =>
        have hc : isPlain c = true := hplain c List.mem_cons_self
        have hminus : c ≠ '-' := by rintro rfl; exact absurd hc (by decide)
        have hplus : c ≠ '+' := by rintro rfl; exact absurd hc (by decide)
        simp [Numeral.sign, hminus, hplus]
    have hunsigned : Numeral.unsigned? unsigned = some numeral := by
      simpa [Numeral.read?, hsign] using h
    rw [if_pos rfl, Numeral.read?]
    change (Numeral.unsigned? unsigned).map (true, ·) = _
    rw [hunsigned, Option.map_some]

/-- Every number is read back from its text. -/
theorem readsBack (x : Float) : Text.ReadsBack x := by
  obtain ⟨negative, unsigned, numeral, htext, hplain, hread, hx⟩ := exists_unsigned x
  have hne : unsigned ≠ [] := by
    rintro rfl
    cases hread
  have hchars : ∀ c ∈ (NumberText.text x).toList, Text.isBlank c = false ∧ c ≠ '#' := by
    rw [htext, String.toList_ofList]
    intro c hc
    have hmem : c = '-' ∨ c ∈ unsigned := by
      cases negative with
      | false => exact Or.inr hc
      | true => exact List.mem_cons.mp hc
    rcases hmem with rfl | hmem
    · decide
    · have hc := hplain c hmem
      simp only [isPlain, Bool.and_eq_true, Bool.not_eq_true', decide_eq_true_eq] at hc
      exact ⟨hc.1.1.1, hc.1.1.2⟩
  refine ⟨⟨?_, fun c hc => (hchars c hc).1⟩, fun hcomment => (hchars _ hcomment).2 rfl, ?_⟩
  · rw [htext, String.toList_ofList]
    cases negative with
    | false => exact hne
    | true => exact List.cons_ne_nil _ _
  · change read? (NumberText.text x) = some x
    rw [read?, htext, String.toList_ofList, read?_signed hplain hread, Option.map_some]
    exact congrArg some hx

/-- No other number equals one. -/
theorem eq_one {x : Float} (h : Scalar.eq x Scalar.one = true) : x = Scalar.one := by
  change (x == 1) = true at h
  obtain ⟨-, -, heq | ⟨-, hzero⟩ | ⟨-, hzero⟩⟩ := Float.beq_iff_ne_nan_and_eq.mp h
  · exact heq
  · exact absurd hzero (by decide +kernel)
  · exact absurd hzero (by decide +kernel)

end FuzzyInference.Binary64
