import FuzzyInference.Binary64.Instances
import FuzzyInference.Proofs.Text.Words

/-!
Literals: numerals without a sign in their parts, digits with at most one point and an optional
exponent. Every literal is read, as the number that its parts give.
-/
namespace FuzzyInference.Numeral

open Text

structure Exponent where
  mark : Char
  sign : List Char
  digits : List Char
  mark_eq : mark = 'e' ∨ mark = 'E'
  sign_eq : sign = [] ∨ sign = ['+'] ∨ sign = ['-']
  digits_ne : digits ≠ []
  isDigit : ∀ c ∈ digits, c.isDigit = true

namespace Exponent

def chars (e : Exponent) : List Char := e.mark :: e.sign ++ e.digits

def value (e : Exponent) : Int :=
  if e.sign = ['-'] then -(ofDigits e.digits : Int) else ofDigits e.digits

end Exponent

/-- The fraction is absent where there is no point, and empty where no digit follows the point. -/
structure Literal where
  whole : List Char
  fraction : Option (List Char)
  exponent : Option Exponent
  whole_isDigit : ∀ c ∈ whole, c.isDigit = true
  fraction_isDigit : ∀ c ∈ fraction.getD [], c.isDigit = true
  digits_ne : whole ++ fraction.getD [] ≠ []

namespace Literal

/-- The point and the digits after it. -/
def fractionChars (l : Literal) : List Char :=
  match l.fraction with
  | none => []
  | some digits => '.' :: digits

def exponentChars (l : Literal) : List Char :=
  match l.exponent with
  | none => []
  | some e => e.chars

def chars (l : Literal) : List Char := l.whole ++ (l.fractionChars ++ l.exponentChars)

/-- The part before the exponent. -/
def mantissa (l : Literal) : List Char := l.whole ++ l.fractionChars

def text (l : Literal) : String := String.ofList l.chars

def value (l : Literal) : Decimal where
  digits := ofDigits (l.whole ++ l.fraction.getD [])
  exponent := ((l.exponent.map Exponent.value).getD 0) - (l.fraction.getD []).length

/-- The nearest binary64 number. -/
def toFloat (l : Literal) : Float := Binary64.ofMagnitude false l.value.magnitude

@[simp] theorem toList_text (l : Literal) : l.text.toList = l.chars := String.toList_ofList

end Literal

/-! ### Digits -/

theorem isDigit_eq_false_of_mark {c : Char} (h : c = 'e' ∨ c = 'E') : c.isDigit = false := by
  rcases h with rfl | rfl <;> rfl

theorem toLower_of_isDigit {c : Char} (h : c.isDigit = true) : c.toLower = c := by
  have hle : ¬ ('A'.val ≤ c.val) := by
    simp only [Char.isDigit, ge_iff_le, Bool.and_eq_true, decide_eq_true_eq,
      UInt32.le_iff_toNat_le] at h ⊢
    change _ ∧ c.val.toNat ≤ 57 at h
    change ¬ 65 ≤ c.val.toNat
    omega
  exact dif_neg fun hupper => hle hupper.1

namespace Literal

theorem stops_exponentChars (l : Literal) : Stops Char.isDigit l.exponentChars := by
  intro c hc
  unfold exponentChars at hc
  split at hc
  · simp at hc
  · next e _ =>
    obtain rfl : e.mark = c := by simpa [Exponent.chars] using hc
    exact isDigit_eq_false_of_mark e.mark_eq

theorem stops_fractionChars (l : Literal) :
    Stops Char.isDigit (l.fractionChars ++ l.exponentChars) := by
  unfold fractionChars
  split
  · exact l.stops_exponentChars
  · intro c hc
    obtain rfl : '.' = c := by simpa using hc
    rfl

theorem chars_eq (l : Literal) : l.chars = l.mantissa ++ l.exponentChars :=
  (List.append_assoc ..).symm

theorem mantissa_ne_nil (l : Literal) : l.mantissa ≠ [] := by
  intro hnil
  obtain ⟨hwhole, hfraction⟩ := List.append_eq_nil_iff.mp hnil
  unfold fractionChars at hfraction
  split at hfraction
  · next hnone => exact l.digits_ne (by simp [hwhole, hnone])
  · exact absurd hfraction (List.cons_ne_nil _ _)

/-- A literal starts with a digit, or with a point that has a digit after it. -/
theorem exists_head (l : Literal) :
    ∃ c rest, l.chars = c :: rest ∧
      (c.isDigit = true ∨ (c = '.' ∧ rest.head?.any Char.isDigit = true)) := by
  cases hwhole : l.whole with
  | cons c whole =>
    have hc : c.isDigit = true := l.whole_isDigit c (by simp [hwhole])
    refine ⟨c, whole ++ (l.fractionChars ++ l.exponentChars), ?_, Or.inl hc⟩
    rw [chars, hwhole, List.cons_append]
  | nil =>
    have hne := l.digits_ne
    cases hfraction : l.fraction with
    | none => simp [hwhole, hfraction] at hne
    | some digits =>
      cases digits with
      | nil => simp [hwhole, hfraction] at hne
      | cons c digits =>
        have hc : c.isDigit = true := l.fraction_isDigit c (by simp [hfraction])
        refine ⟨'.', c :: digits ++ l.exponentChars, ?_, Or.inr ⟨rfl, by simpa using hc⟩⟩
        simp [chars, fractionChars, hwhole, hfraction]

end Literal

/-! ### Reading -/

theorem Exponent.exponent?_chars (e : Exponent) : exponent? e.chars = some e.value := by
  have hdigits := e.digits_ne
  have hall : e.digits.all Char.isDigit = true := by simpa using e.isDigit
  have hsign : Numeral.sign (e.sign ++ e.digits) = (decide (e.sign = ['-']), e.digits) := by
    rcases e.sign_eq with h | h | h
    · cases hd : e.digits with
      | nil => exact absurd hd hdigits
      | cons c digits =>
        have hc : c.isDigit = true := e.isDigit c (by simp [hd])
        have hminus : c ≠ '-' := by rintro rfl; simp at hc
        have hplus : c ≠ '+' := by rintro rfl; simp at hc
        simp [h, Numeral.sign, hminus, hplus]
    · simp [h, Numeral.sign]
    · simp [h, Numeral.sign]
  simp [exponent?, chars, value, hsign, e.mark_eq, hdigits, hall]

namespace Literal

theorem exponent?_exponentChars (l : Literal) :
    exponent? l.exponentChars = some ((l.exponent.map Exponent.value).getD 0) := by
  unfold exponentChars
  split
  · next h => simp [exponent?, h]
  · next e h => simp [e.exponent?_chars, h]

theorem exponentChars_ne_point (l : Literal) (rest : List Char) :
    l.exponentChars ≠ '.' :: rest := by
  unfold exponentChars
  split
  · exact (List.cons_ne_nil _ _).symm
  · next e _ =>
    intro h
    have hmark : e.mark = '.' := (List.cons.inj h).1
    rcases e.mark_eq with he | he <;> simp [he] at hmark

theorem decimal?_chars (l : Literal) : decimal? l.chars = some l.value := by
  have hwhole : l.chars.takeWhile Char.isDigit = l.whole :=
    takeWhile_append_of_stops l.whole_isDigit l.stops_fractionChars
  have hafter : l.chars.dropWhile Char.isDigit = l.fractionChars ++ l.exponentChars :=
    dropWhile_append_of_stops l.whole_isDigit l.stops_fractionChars
  have hexponent := l.exponent?_exponentChars
  have hne := l.digits_ne
  simp only [decimal?, hwhole, hafter]
  cases hfraction : l.fraction with
  | none =>
    have hne : l.whole ≠ [] := by simpa [hfraction] using hne
    simp only [fractionChars, hfraction, List.nil_append]
    generalize hsplit : l.exponentChars = rest at hexponent ⊢
    split
    · next rest => exact absurd hsplit (l.exponentChars_ne_point rest)
    · simp [hfraction, hexponent, hne, value]
  | some digits =>
    have hne : ¬ (l.whole = [] ∧ digits = []) := by simpa [hfraction] using hne
    have hdigits : ∀ c ∈ digits, c.isDigit = true := by
      simpa [hfraction] using l.fraction_isDigit
    have htake : (digits ++ l.exponentChars).takeWhile Char.isDigit = digits :=
      takeWhile_append_of_stops hdigits l.stops_exponentChars
    have hdrop : (digits ++ l.exponentChars).dropWhile Char.isDigit = l.exponentChars :=
      dropWhile_append_of_stops hdigits l.stops_exponentChars
    simp [fractionChars, hfraction, htake, hdrop, hexponent, hne, value]

theorem read?_chars (l : Literal) : read? l.chars = some (false, .finite l.value) := by
  obtain ⟨c, rest, hchars, hc⟩ := l.exists_head
  have hlower : c.toLower = c := by
    rcases hc with hc | ⟨rfl, -⟩
    · exact toLower_of_isDigit hc
    · rfl
  have hletter : c ≠ 'n' ∧ c ≠ 'i' ∧ c ≠ '-' ∧ c ≠ '+' := by
    rcases hc with hc | ⟨rfl, -⟩
    · refine ⟨?_, ?_, ?_, ?_⟩ <;> rintro rfl <;> exact absurd hc (by decide)
    · decide
  obtain ⟨hn, hi, hminus, hplus⟩ := hletter
  have hsign : sign l.chars = (false, l.chars) := by
    simp [hchars, sign, hminus, hplus]
  have hword : ∀ word : String, word.toList.head? ≠ some c →
      String.ofList (l.chars.map Char.toLower) ≠ word := by
    rintro word hword rfl
    simp [hchars, hlower] at hword
  have hunsigned : unsigned? l.chars = some (.finite l.value) := by
    unfold unsigned?
    split
    · next h => exact absurd h (hword _ (by simpa using Ne.symm hn))
    · next h => exact absurd h (hword _ (by simpa using Ne.symm hi))
    · next h => exact absurd h (hword _ (by simpa using Ne.symm hi))
    · rw [l.decimal?_chars, Option.map_some]
  rw [read?, hsign]
  simp [hunsigned]

/-- Every literal is read as the binary64 number nearest to its value. -/
theorem read?_text (l : Literal) : NumberText.read? l.text = some l.toFloat := by
  change Binary64.read? l.text = some l.toFloat
  simp only [Binary64.read?, toList_text, read?_chars, Option.map_some]
  rfl

end Literal

end FuzzyInference.Numeral
