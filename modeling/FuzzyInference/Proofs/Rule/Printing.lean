import Mathlib.Data.List.TakeWhile
import FuzzyInference.Proofs.Rule.Language
import FuzzyInference.Proofs.Text.Words
import FuzzyInference.Rule.Basic

/-!
Printing a rule and reading it back. Every clause that was read is made of words and has none that
would end it, so the keywords of the printed text divide it where they did before, whatever other
keywords the clauses have. The clauses of a rule stay as they were read; its weight may change, but
to weights only.
-/
namespace FuzzyInference

variable {α : Type}

deriving instance DecidableEq for RuleText

namespace RuleText

/-! ### Clauses -/

/-- The word can stand in a rule. -/
structure IsRuleWord (word : String) : Prop where
  isWord : Text.IsWord word
  noComment : '#' ∉ word.toList

/-- The clause is made of words, at least one, and has not the keyword that ends it. -/
def IsClause (ending : Keyword) (clause : String) : Prop :=
  ∃ words, clause = Text.unwords words ∧ words ≠ [] ∧ (∀ word ∈ words, IsRuleWord word) ∧
    ending.text ∉ words

theorem isRuleWord_keyword (keyword : Keyword) : IsRuleWord keyword.text := by
  cases keyword <;> exact ⟨by decide +kernel, by decide +kernel⟩

theorem isRuleWord_of_mem_wordsOf {text word : String} (h : word ∈ wordsOf text) :
    IsRuleWord word := by
  obtain ⟨hword, hmem⟩ := Text.isWord_of_mem_wordsAfter (List.forall_mem_nil _) h
  refine ⟨hword, fun hcomment => ?_⟩
  have htext := (hmem _ hcomment).resolve_left (by simp)
  simpa using List.mem_takeWhile_imp htext

/-- The words of a rule are read from their text. -/
theorem wordsOf_unwords {words : List String} (h : ∀ word ∈ words, IsRuleWord word) :
    wordsOf (Text.unwords words) = words := by
  have hcomment : ∀ c ∈ (Text.unwords words).toList, decide (c ≠ '#') = true := by
    rintro c hc
    rcases Text.mem_unwords hc with rfl | ⟨word, hword, hc⟩
    · rfl
    · apply decide_eq_true
      rintro rfl
      exact (h word hword).noComment hc
  have hall : (Text.unwords words).toList.takeWhile (· ≠ '#') = (Text.unwords words).toList :=
    List.takeWhile_eq_self_iff.mpr hcomment
  rw [wordsOf, hall]
  exact Text.words_unwords fun word hword => (h word hword).isWord

variable [Scalar α] [NumberText α]

/-- What a rule that was read is made of. -/
structure WellFormed (t : RuleText α) : Prop where
  antecedent : IsClause .thenWord t.antecedent
  consequent : IsClause .withWord t.consequent
  isWeight : isWeight t.weight = true

/-- The clauses of a text that is read are made of its words. -/
theorem isClause_of_parse {text : String} {t : RuleText α} (h : parse text = .ok t) :
    IsClause .thenWord t.antecedent ∧ IsClause .withWord t.consequent := by
  obtain ⟨r, hreads⟩ := exists_reads (α := α) (wordsOf text)
  have hr : r = .ok t := (ofWords_of_reads hreads).symm.trans (eq_ok_of_mapError h)
  subst hr
  have hmem : ∀ word ∈ wordsOf text, IsRuleWord word := fun _ => isRuleWord_of_mem_wordsOf
  generalize wordsOf text = words at hreads hmem
  cases hreads with
  | @rule antecedent consequent _ _ hthen hwith hne hne' _ =>
    refine ⟨⟨antecedent, rfl, hne, ?_, hthen⟩, ⟨consequent, rfl, hne', ?_, hwith⟩⟩
    · intro word hword
      exact hmem word (by simp [hword])
    · intro word hword
      exact hmem word (by simp [hword])

/-- The words that give the weight of a rule; none where it is one. -/
def weightWords (weight : α) : List String :=
  if Scalar.eq weight Scalar.one then [] else [Keyword.withWord.text, NumberText.text weight]

theorem weighs_weightWords {weight : α} (hweight : isWeight weight = true)
    (hback : Text.ReadsBack weight)
    (hone : Scalar.eq weight Scalar.one = true → weight = Scalar.one) :
    Weighs (weightWords weight) (.ok weight) := by
  unfold weightWords
  split
  · next heq =>
    rw [hone heq]
    exact .absent
  · obtain ⟨hfinite, hpos⟩ := Bool.and_eq_true_iff.mp hweight
    exact .given ⟨hback.read?, hfinite, hpos⟩

/-- The words of the text of a rule. -/
theorem text_eq_unwords {antecedent consequent : List String} (hne : antecedent ≠ [])
    (hne' : consequent ≠ []) (weight : α) :
    text ⟨Text.unwords antecedent, Text.unwords consequent, weight⟩ =
      Text.unwords (Keyword.ifWord.text :: antecedent ++
        Keyword.thenWord.text :: (consequent ++ weightWords weight)) := by
  have htail : Text.unwords (consequent ++ weightWords weight) = Text.unwords consequent ++
      (if Scalar.eq weight Scalar.one then ""
        else s!" {Keyword.withWord.text} {NumberText.text weight}") := by
    unfold weightWords
    split
    · simp
    · rw [Text.unwords_append hne' (by simp), Text.unwords_cons _ (by simp)]
      simp [Text.unwords, String.append_assoc]
      rfl
  rw [List.cons_append, Text.unwords_cons _ (by simp), Text.unwords_append hne (by simp),
    Text.unwords_cons _ (by simp [hne']), htail]
  simp [text, String.append_assoc]
  rfl

/-- A well-formed rule whose weight is read back from its text is read back from its text. -/
theorem parse_of_wellFormed {t : RuleText α} (h : WellFormed t) (hback : Text.ReadsBack t.weight)
    (hone : Scalar.eq t.weight Scalar.one = true → t.weight = Scalar.one) :
    parse t.text = .ok t := by
  obtain ⟨antecedentText, consequentText, weight⟩ := t
  obtain ⟨antecedent, rfl, hne, hwords, hthen⟩ := h.antecedent
  obtain ⟨consequent, rfl, hne', hwords', hwith⟩ := h.consequent
  have hweightWords : ∀ word ∈ weightWords weight, IsRuleWord word := by
    unfold weightWords
    split
    · exact List.forall_mem_nil _
    · intro word hword
      simp only [List.mem_cons, List.not_mem_nil, or_false] at hword
      rcases hword with rfl | rfl
      · exact isRuleWord_keyword .withWord
      · exact ⟨hback.isWord, hback.noComment⟩
  have hall : ∀ word ∈ Keyword.ifWord.text :: antecedent ++
      Keyword.thenWord.text :: (consequent ++ weightWords weight), IsRuleWord word := by
    simp only [List.forall_mem_append, List.forall_mem_cons]
    exact ⟨⟨isRuleWord_keyword _, hwords⟩, isRuleWord_keyword _, hwords', hweightWords⟩
  have hreads := Reads.rule hthen hwith hne hne' (weighs_weightWords h.isWeight hback hone)
  rw [parse, text_eq_unwords hne hne', wordsOf_unwords hall, ofWords_of_reads hreads]
  rfl

end RuleText

namespace Rule

variable [Scalar α]

/-- The parts of the text of a rule. -/
def toText (r : Rule α) : RuleText α := ⟨r.antecedent.text, r.consequent.text, r.weight⟩

variable [NumberText α]

theorem new_of_isWeight {t : RuleText α} (h : RuleText.isWeight t.weight = true) :
    new t.antecedent t.consequent t.weight = .ok (ofText t) := if_pos h

/-- A rule that is read is enabled, not loaded and well-formed. -/
theorem wellFormed_of_parse {text : String} {r : Rule α} (h : parse text = .ok r) :
    r = ofText r.toText ∧ r.toText.WellFormed := by
  obtain ⟨t, ht, hnew⟩ := exists_of_bind_eq_ok h
  by_cases hweight : RuleText.isWeight t.weight = true
  · obtain rfl := Except.ok.inj ((new_of_isWeight hweight).symm.trans hnew)
    obtain ⟨hantecedent, hconsequent⟩ := RuleText.isClause_of_parse ht
    exact ⟨rfl, hantecedent, hconsequent, hweight⟩
  · rw [new, if_neg hweight] at hnew
    cases hnew

/-- A rule whose text is well-formed is read back from it, enabled and not loaded. -/
theorem parse_of_wellFormed {r : Rule α} (h : r.toText.WellFormed)
    (hback : Text.ReadsBack r.weight)
    (hone : Scalar.eq r.weight Scalar.one = true → r.weight = Scalar.one) :
    parse r.text = .ok (ofText r.toText) := by
  have hparse := RuleText.parse_of_wellFormed h hback hone
  have hnew := new_of_isWeight h.isWeight
  change (do
    let t ← RuleText.parse r.toText.text
    new t.antecedent t.consequent t.weight) = _
  rw [hparse]
  exact hnew

end Rule

end FuzzyInference
