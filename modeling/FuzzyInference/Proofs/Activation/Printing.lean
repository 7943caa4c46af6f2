import FuzzyInference.Activation.Text
import FuzzyInference.Proofs.Binary64.Text
import FuzzyInference.Proofs.Decimal.ReadBack
import FuzzyInference.Proofs.Formula.Lexeme

/-!
Printing a strategy and reading it back. The text of a strategy has all of its parameters, also
those that were left out where it was read; so it is read as the same strategy, provided that its
numbers are read back and its count is one that can be read.
-/
namespace FuzzyInference

/-! ### Counts -/

namespace Numeral

theorem count?_toString {n : Nat} (h : n ≤ maxCount) : count? (toString n) = some n := by
  have hchars : (toString n).toList = Nat.toDigits 10 n := Nat.toList_repr
  have hdigits : (Nat.toDigits 10 n).all Char.isDigit = true :=
    List.all_eq_true.mpr fun c hc => Nat.isDigit_of_mem_toDigits (by decide) (by decide) hc
  have hne : Nat.toDigits 10 n ≠ [] := Nat.toDigits_ne_nil
  have hvalue := Decimal.ofDigits_toDigits n
  simp only [count?, hchars]
  generalize Nat.toDigits 10 n = digits at hdigits hne hvalue
  split
  · cases hdigits
  · rw [hvalue]
    exact if_pos ⟨hne, hdigits, h⟩

theorem le_of_count? {text : String} {n : Nat} (h : count? text = some n) : n ≤ maxCount := by
  have hguard : ∀ {p : Prop} [Decidable p] {m : Nat}, (p → m ≤ maxCount) →
      (if p then some m else none) = some n → n ≤ maxCount := by
    intro p _ m hp heq
    split at heq
    · next holds =>
      obtain rfl := Option.some.inj heq
      exact hp holds
    · cases heq
  exact hguard (fun hcount => hcount.2.2) h

theorem isWord_toString (n : Nat) : Text.IsWord (toString n) := by
  have hchars : (toString n).toList = Nat.toDigits 10 n := Nat.toList_repr
  refine ⟨by simp, fun c hc => ?_⟩
  rw [hchars] at hc
  exact Formula.isBlank_of_isDigit (Nat.isDigit_of_mem_toDigits (by decide) (by decide) hc)

end Numeral

namespace Activation

variable {α : Type}

/-! ### Texts -/

/-- How many rules the strategy selects, if it has a number of them. -/
def count? : Activation α → Option Nat
  | first count _ | last count _ | highest count | lowest count => some count
  | general | proportional | threshold .. => none

section Words

variable [NumberText α]

def parameterWords : Activation α → List String
  | general | proportional => []
  | first count value | last count value => [toString count, NumberText.text value]
  | highest count | lowest count => [toString count]
  | threshold comparison value => [comparison.symbol, NumberText.text value]

theorem parameters_eq (a : Activation α) : a.parameters = Text.unwords a.parameterWords := by
  cases a <;> simp [parameters, parameterWords, Text.unwords] <;> rfl

theorem isWord_of_mem_parameterWords (hback : ∀ x : α, Text.ReadsBack x) (a : Activation α) :
    ∀ word ∈ a.parameterWords, Text.IsWord word := by
  have hsymbol : ∀ comparison : Comparison, Text.IsWord comparison.symbol := by
    intro comparison
    cases comparison <;> decide +kernel
  have hcount := Numeral.isWord_toString
  have hvalue := fun x => (hback x).isWord
  cases a <;>
    simp only [parameterWords, List.forall_mem_cons, List.not_mem_nil, hcount, hsymbol, hvalue,
      true_and, false_implies, implies_true]

omit [NumberText α] in
theorem isWord_name (a : Activation α) : Text.IsWord a.name := by
  have hnames : ∀ word ∈ ["General", "Proportional", "First", "Last", "Highest", "Lowest",
      "Threshold"], Text.IsWord word := by decide +kernel
  cases a <;> exact hnames _ (by simp [name])

/-- The words of the text of a strategy. -/
theorem words_text (hback : ∀ x : α, Text.ReadsBack x) (a : Activation α) :
    Text.words a.text = a.name :: a.parameterWords := by
  have hwords := a.isWord_of_mem_parameterWords hback
  have htext : a.text = Text.unwords (a.name :: a.parameterWords) := by
    rw [text, parameters_eq]
    by_cases hnone : a.parameterWords = []
    · simp [hnone, Text.unwords]
    · have hne : Text.unwords a.parameterWords ≠ "" := by
        intro hempty
        have hread := Text.words_unwords hwords
        rw [hempty] at hread
        exact hnone hread.symm
      rw [if_neg hne, Text.unwords_cons _ hnone]
      rfl
  rw [htext]
  exact Text.words_unwords (List.forall_mem_cons.mpr ⟨a.isWord_name, hwords⟩)

end Words

/-! ### Reading -/

variable [Scalar α]

theorem find_general : registry.find "General" = .ok (general : Activation α) := by
  simp [Registry.find, registry, Registry.get?_ofList, defaults, name]

theorem find_proportional : registry.find "Proportional" = .ok (proportional : Activation α) := by
  simp [Registry.find, registry, Registry.get?_ofList, defaults, name]

variable [NumberText α]

/-- A name with parameters that are not too many. -/
theorem parse_of_words {text name : String} {words : List String}
    (h : Text.words text = name :: words) (hne : words ≠ [])
    (hlimit : (parameterLimit? name).any (· < words.length) = false) :
    parse (registry : Registry (Activation α)) text = withParameters registry name words := by
  obtain ⟨word, words, rfl⟩ := List.exists_cons_of_ne_nil hne
  rw [parse, h]
  simp only [hlimit]
  cases withParameters (registry : Registry (Activation α)) name (word :: words) <;> rfl

/-- The text of a strategy is read as the strategy. -/
theorem parse_printed (hback : ∀ x : α, Text.ReadsBack x) {a : Activation α}
    (hcount : ∀ count ∈ a.count?, count ≤ Numeral.maxCount) : parse registry a.text = .ok a := by
  have hwords := a.words_text hback
  have hvalue := fun x => (hback x).read?
  cases a with
  | general =>
    rw [parse, hwords]
    exact find_general
  | proportional =>
    rw [parse, hwords]
    exact find_proportional
  | first count value | last count value =>
    have hread := Numeral.count?_toString (hcount count rfl)
    rw [parse_of_words hwords (List.cons_ne_nil _ _) rfl]
    simp only [withParameters, name, parameterWords, parameter, List.getElem?_cons_zero,
      List.getElem?_cons_succ, hread, hvalue]
    rfl
  | highest count | lowest count =>
    have hread := Numeral.count?_toString (hcount count rfl)
    rw [parse_of_words hwords (List.cons_ne_nil _ _) rfl]
    simp only [withParameters, name, parameterWords, parameter, List.getElem?_cons_zero, hread]
    rfl
  | threshold comparison value =>
    rw [parse_of_words hwords (List.cons_ne_nil _ _) rfl]
    simp only [withParameters, name, parameterWords, parameter, List.getElem?_cons_zero,
      List.getElem?_cons_succ, Comparison.ofSymbol?_symbol, hvalue]
    rfl

omit [NumberText α] in
theorem le_of_mem_defaults {a : Activation α} (h : a ∈ (defaults : List (Activation α)))
    {count : Nat} (hcount : count ∈ a.count?) : count ≤ Numeral.maxCount := by
  have hone : 1 ≤ Numeral.maxCount := by decide
  simp only [defaults, List.mem_cons, List.not_mem_nil, or_false] at h
  rcases h with rfl | rfl | rfl | rfl | rfl | rfl | rfl <;>
    simp only [count?, Option.mem_def, Option.some.injEq, reduceCtorEq] at hcount
  all_goals
    subst hcount
    exact hone

omit [Scalar α] [NumberText α] in
theorem le_of_parameter {name : String} {word : Option String} {count : Nat}
    (h : parameter name Numeral.count? 1 word = .ok count) : count ≤ Numeral.maxCount := by
  cases word with
  | none =>
    obtain rfl := Except.ok.inj h
    decide
  | some word =>
    rw [parameter] at h
    split at h
    · next value hread =>
      obtain rfl := Except.ok.inj h
      exact Numeral.le_of_count? hread
    · cases h

theorem le_of_withParameters {name : String} {words : List String} {a : Activation α}
    (h : withParameters registry name words = .ok a) {count : Nat} (hcount : count ∈ a.count?) :
    count ≤ Numeral.maxCount := by
  unfold withParameters at h
  dsimp only at h
  split at h
  case h_1 | h_2 =>
    -- First and Last have a count and a threshold.
    obtain ⟨read, hread, h⟩ := exists_of_bind_eq_ok h
    obtain ⟨value, -, h⟩ := exists_of_bind_eq_ok h
    obtain rfl := Except.ok.inj h
    obtain rfl := Option.some.inj hcount
    exact le_of_parameter hread
  case h_3 | h_4 =>
    -- Highest and Lowest have a count only.
    obtain ⟨read, hread, h⟩ := exists_of_bind_eq_ok h
    obtain rfl := Except.ok.inj h
    obtain rfl := Option.some.inj hcount
    exact le_of_parameter hread
  case h_5 =>
    obtain ⟨comparison, -, h⟩ := exists_of_bind_eq_ok h
    obtain ⟨value, -, h⟩ := exists_of_bind_eq_ok h
    obtain rfl := Except.ok.inj h
    cases hcount
  case h_6 =>
    obtain ⟨found, -, h⟩ := exists_of_bind_eq_ok h
    cases h

/-- The count of a strategy that is read is one that can be read. -/
theorem le_of_parse {text : String} {a : Activation α} (h : parse registry text = .ok a)
    {count : Nat} (hcount : count ∈ a.count?) : count ≤ Numeral.maxCount := by
  unfold parse at h
  split at h
  · exact le_of_mem_defaults (Registry.name_of_find name h).1 hcount
  · exact le_of_mem_defaults (Registry.name_of_find name h).1 hcount
  · next name words _ _ =>
    obtain ⟨read, hread, h⟩ := exists_of_bind_eq_ok h
    split at h
    · cases h
    · obtain rfl := Except.ok.inj h
      exact le_of_withParameters hread hcount

/-- A strategy that was read from a text is read from its own one. -/
theorem parse_text_of_parse (hback : ∀ x : α, Text.ReadsBack x) {text : String} {a : Activation α}
    (h : parse registry text = .ok a) : parse registry a.text = .ok a :=
  parse_printed hback fun _ => le_of_parse h

/-- A strategy is read from its own text exactly if its count is one that can be read, whatever its
numbers are; and the strategy of any text that is read has such a count. -/
theorem parse_text_roundTrip :
    (∀ a : Activation Float,
        parse registry a.text = .ok a ↔ ∀ count ∈ a.count?, count ≤ Numeral.maxCount) ∧
      ∀ (text : String) (a : Activation Float),
        parse registry text = .ok a → parse registry a.text = .ok a := by
  refine ⟨fun a => ⟨fun h count hcount => ?_, fun hcount => ?_⟩, fun text a h => ?_⟩
  · exact le_of_parse h hcount
  · exact parse_printed Binary64.readsBack hcount
  · exact parse_text_of_parse Binary64.readsBack h

/-- The undefined value, an infinity with the largest count, and a text with blanks, a sign and a
parameter left out. -/
theorem parse_text_roundTrip_last :
    parse registry (threshold .different (0 / 0 : Float)).text =
        .ok (threshold .different (0 / 0 : Float)) ∧
      parse registry (last Numeral.maxCount (1 / 0 : Float)).text =
        .ok (last Numeral.maxCount (1 / 0 : Float)) ∧
      ∃ a : Activation Float, parse registry " Last  +7" = .ok a ∧ a.text = "Last 7 0" ∧
        parse registry "Last 7 0" = .ok a := by
  refine ⟨?_, ?_, ?_⟩
  · exact (parse_text_roundTrip.1 _).mpr fun count hcount => by cases hcount
  · refine (parse_text_roundTrip.1 _).mpr fun count hcount => ?_
    obtain rfl : Numeral.maxCount = count := Option.some.inj hcount
    exact le_refl _
  · have hread : (parse (registry : Registry (Activation Float)) " Last  +7").map Activation.text =
        .ok "Last 7 0" := by decide +kernel
    obtain ⟨a, ha, htext⟩ := exists_of_map_eq_ok hread
    refine ⟨a, ha, htext, ?_⟩
    have hagain := parse_text_roundTrip.2 " Last  +7" a ha
    rwa [htext] at hagain

end Activation

end FuzzyInference
