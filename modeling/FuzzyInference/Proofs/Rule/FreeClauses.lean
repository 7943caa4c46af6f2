import FuzzyInference.Proofs.Binary64.Text
import FuzzyInference.Proofs.Rule.Printing

/-!
Rules that are made of free texts. Nothing is asked of their clauses, so a keyword or a comment sign
in a clause divides the text of the rule at another place than the rule has it. Main statement: if
the text can be read at all, it is read as the same rule, up to white space, exactly if `then` is no
word of the antecedent before a comment and the consequent has neither a comment nor the word `with`.
-/
namespace FuzzyInference

variable {α : Type}

theorem Text.exists_mem_wordsAfter {c : Char} (hc : isBlank c = false) {pending text : List Char}
    (h : c ∈ pending ∨ c ∈ text) : ∃ word ∈ wordsAfter pending text, c ∈ word.toList := by
  have hclose : ∀ {pending : List Char}, c ∈ pending → ∃ word ∈ close pending, c ∈ word.toList := by
    intro pending hmem
    rw [close_of_ne_nil (List.ne_nil_of_mem hmem)]
    exact ⟨_, List.mem_cons_self, by simpa using hmem⟩
  induction text generalizing pending with
  | nil => exact hclose (h.resolve_right List.not_mem_nil)
  | cons d rest ih =>
    rw [wordsAfter]
    split
    · next hblank =>
      have hne : c ≠ d := by
        rintro rfl
        simp [hc] at hblank
      obtain hpending | hrest := h.imp_right (List.mem_of_ne_of_mem hne)
      · obtain ⟨word, hword, hmem⟩ := hclose hpending
        exact ⟨word, List.mem_append_left _ hword, hmem⟩
      · obtain ⟨word, hword, hmem⟩ := ih (Or.inr hrest)
        exact ⟨word, List.mem_append_right _ hword, hmem⟩
    · rw [List.mem_cons, ← or_assoc, or_comm (b := c = d), ← List.mem_cons] at h
      exact ih h

namespace RuleText

/-! ### The words of the text -/

theorem wordsOf_of_noComment {text : String} (h : '#' ∉ text.toList) :
    wordsOf text = Text.words text := by
  have hall : text.toList.takeWhile (· ≠ '#') = text.toList :=
    List.takeWhile_eq_self_iff.mpr fun c hc => decide_eq_true fun heq => h (heq ▸ hc)
  rw [wordsOf, hall, Text.words]

variable [Scalar α] [NumberText α]

/-- What follows the consequent in the text of a rule. -/
def weightChars (weight : α) : List Char :=
  if Scalar.eq weight Scalar.one then []
  else ' ' :: (Keyword.withWord.text.toList ++ ' ' :: (NumberText.text weight).toList)

theorem toList_text (t : RuleText α) :
    t.text.toList = Keyword.ifWord.text.toList ++ ' ' :: (t.antecedent.toList ++
      ' ' :: (Keyword.thenWord.text.toList ++ ' ' :: (t.consequent.toList ++
        weightChars t.weight))) := by
  unfold text weightChars
  split <;> simp [toString]

theorem wordsAfter_keyword (keyword : Keyword) :
    Text.wordsAfter [] keyword.text.toList = [keyword.text] := by
  cases keyword <;> rfl

theorem wordsAfter_weightChars {weight : α} (hback : Text.ReadsBack weight)
    (consequent : List Char) :
    Text.wordsAfter [] (consequent ++ weightChars weight) =
      Text.wordsAfter [] consequent ++ weightWords weight := by
  unfold weightChars weightWords
  split
  · rw [List.append_nil, List.append_nil]
  · have hweight : Text.wordsAfter [] (NumberText.text weight).toList = [NumberText.text weight] := by
      simpa [Text.words, Text.unwords] using
        Text.words_unwords (List.forall_mem_singleton.mpr hback.isWord)
    rw [Text.wordsAfter_append_blank (by decide), Text.wordsAfter_append_blank (by decide),
      wordsAfter_keyword, hweight]
    rfl

/-- Without comments the clauses stand in the text with all their words. -/
theorem wordsOf_text {t : RuleText α} (hback : Text.ReadsBack t.weight)
    (hantecedent : '#' ∉ t.antecedent.toList) (hconsequent : '#' ∉ t.consequent.toList) :
    wordsOf t.text = Keyword.ifWord.text :: Text.words t.antecedent ++
      Keyword.thenWord.text :: (Text.words t.consequent ++ weightWords t.weight) := by
  have hkeyword (keyword : Keyword) := (isRuleWord_keyword keyword).noComment
  have hweight : '#' ∉ weightChars t.weight := by
    unfold weightChars
    split
    · exact List.not_mem_nil
    · simp [hkeyword, hback.noComment]
  have hcomment : '#' ∉ t.text.toList := by
    simp [toList_text, hkeyword, hantecedent, hconsequent, hweight]
  rw [wordsOf_of_noComment hcomment, Text.words, toList_text,
    Text.wordsAfter_append_blank (by decide), Text.wordsAfter_append_blank (by decide),
    Text.wordsAfter_append_blank (by decide), wordsAfter_weightChars hback, wordsAfter_keyword,
    wordsAfter_keyword]
  rfl

/-- The text ends with a comment in the antecedent. -/
theorem wordsOf_text_of_comment {t : RuleText α} (h : '#' ∈ t.antecedent.toList) :
    wordsOf t.text = Keyword.ifWord.text :: wordsOf t.antecedent := by
  have hkeyword : ∀ c ∈ Keyword.ifWord.text.toList, decide (c ≠ '#') = true := by
    intro c hc
    exact decide_eq_true fun heq => (isRuleWord_keyword .ifWord).noComment (heq ▸ hc)
  have hantecedent (rest : List Char) : (t.antecedent.toList ++ rest).takeWhile (· ≠ '#') =
      t.antecedent.toList.takeWhile (· ≠ '#') := by
    rw [List.takeWhile_append, if_neg]
    intro hlength
    have hall := (List.takeWhile_prefix (· ≠ '#')).eq_of_length hlength
    exact absurd (List.mem_takeWhile_imp (hall.symm ▸ h)) (by decide)
  rw [wordsOf, toList_text, List.takeWhile_append_of_pos hkeyword, List.takeWhile_cons_of_pos rfl,
    hantecedent, Text.wordsAfter_append_blank (by decide), wordsAfter_keyword]
  rfl

/-! ### Reading -/

/-- The keywords of the text divide it where the rule does, as far as it is read. -/
structure Divides (t : RuleText α) : Prop where
  antecedent : Keyword.thenWord.text ∉ wordsOf t.antecedent
  consequent : Keyword.withWord.text ∉ Text.words t.consequent
  noComment : '#' ∉ t.consequent.toList

/-- The texts have the same weight, and their clauses have the same words. -/
structure SameWords (t t' : RuleText α) : Prop where
  antecedent : Text.words t'.antecedent = Text.words t.antecedent
  consequent : Text.words t'.consequent = Text.words t.consequent
  weight : t'.weight = t.weight

/-- The text is a clause up to white space. -/
structure HasClause (ending : Keyword) (clause : String) : Prop where
  noComment : '#' ∉ clause.toList
  words_ne : Text.words clause ≠ []
  ending : ending.text ∉ Text.words clause

omit [Scalar α] [NumberText α] in
/-- A text with the words of a clause has no comment either. -/
theorem hasClause_of_words_eq {ending : Keyword} {clause text : String}
    (hclause : IsClause ending clause) (h : Text.words clause = Text.words text) :
    HasClause ending text := by
  obtain ⟨words, rfl, hne, hwords, hending⟩ := hclause
  rw [Text.words_unwords fun word hword => (hwords word hword).isWord] at h
  subst h
  refine ⟨fun hcomment => ?_, hne, hending⟩
  obtain ⟨word, hword, hmem⟩ := Text.exists_mem_wordsAfter (by decide) (.inr hcomment)
  exact (hwords word hword).noComment hmem

omit [Scalar α] [NumberText α] in
theorem divides_of_hasClause {t : RuleText α} (h : HasClause .thenWord t.antecedent)
    (h' : HasClause .withWord t.consequent) : t.Divides where
  antecedent := by
    rw [wordsOf_of_noComment h.noComment]
    exact h.ending
  consequent := h'.ending
  noComment := h'.noComment

/-- Where the text is read as what the rule is, its clauses are clauses. -/
theorem SameWords.hasClause {text : String} {t t' : RuleText α} (hparse : parse text = .ok t')
    (h : t.SameWords t') :
    HasClause .thenWord t.antecedent ∧ HasClause .withWord t.consequent := by
  obtain ⟨hantecedent, hconsequent⟩ := isClause_of_parse hparse
  exact ⟨hasClause_of_words_eq hantecedent h.antecedent,
    hasClause_of_words_eq hconsequent h.consequent⟩

section Weight

variable {t : RuleText α} (hweight : isWeight t.weight = true) (hback : Text.ReadsBack t.weight)
  (hone : Scalar.eq t.weight Scalar.one = true → t.weight = Scalar.one)
include hweight hback hone

/-- Clauses that are free of comments and of the keywords that end them are read as they are. -/
theorem parse_text_of_hasClause (h : HasClause .thenWord t.antecedent)
    (h' : HasClause .withWord t.consequent) :
    ∃ t', parse t.text = .ok t' ∧ t.SameWords t' := by
  have hwords := wordsOf_text hback h.noComment h'.noComment
  have hreads := Reads.rule h.ending h'.ending h.words_ne h'.words_ne
    (weighs_weightWords hweight hback hone)
  have hunwords {clause : String} : Text.words (Text.unwords (Text.words clause)) =
      Text.words clause :=
    Text.words_unwords fun word hword =>
      (Text.isWord_of_mem_wordsAfter (List.forall_mem_nil _) hword).1
  refine ⟨⟨Text.unwords (Text.words t.antecedent), Text.unwords (Text.words t.consequent), t.weight⟩,
    ?_, hunwords, hunwords, rfl⟩
  rw [parse, hwords, ofWords_of_reads hreads]
  rfl

/-- Where the keywords divide the text, it is read as what the rule is, or not at all. -/
theorem Divides.hasClause (h : t.Divides) {t' : RuleText α} (hparse : parse t.text = .ok t') :
    HasClause .thenWord t.antecedent ∧ HasClause .withWord t.consequent := by
  have hread := eq_ok_of_mapError hparse
  have hcomment : '#' ∉ t.antecedent.toList := by
    intro hmem
    rw [wordsOf_text_of_comment hmem, ofWords_of_reads (.noThen h.antecedent)] at hread
    cases hread
  have hthen : Keyword.thenWord.text ∉ Text.words t.antecedent := by
    rw [← wordsOf_of_noComment hcomment]
    exact h.antecedent
  rw [wordsOf_text hback hcomment h.noComment,
    ofWords_eq hthen h.consequent (weighs_weightWords hweight hback hone)] at hread
  refine ⟨⟨hcomment, fun hnil => ?_, hthen⟩, ⟨h.noComment, fun hnil => ?_, h.consequent⟩⟩
  · rw [hnil] at hread
    cases hread
  · rw [hnil] at hread
    dsimp only [Except.bind] at hread
    split at hread <;> cases hread

theorem sameWords_iff_divides {t' : RuleText α} (hparse : parse t.text = .ok t') :
    t.SameWords t' ↔ t.Divides := by
  constructor
  · intro hsame
    obtain ⟨hantecedent, hconsequent⟩ := hsame.hasClause hparse
    exact divides_of_hasClause hantecedent hconsequent
  · intro hdivides
    obtain ⟨hantecedent, hconsequent⟩ := hdivides.hasClause hweight hback hone hparse
    obtain ⟨t'', hparse', hsame⟩ :=
      parse_text_of_hasClause hweight hback hone hantecedent hconsequent
    obtain rfl := Except.ok.inj (hparse.symm.trans hparse')
    exact hsame

end Weight

end RuleText

namespace Rule

variable [Scalar α] [NumberText α]

theorem eq_ofText_of_new {antecedent consequent : String} {weight : α} {r : Rule α}
    (h : new antecedent consequent weight = .ok r) :
    r = ofText ⟨antecedent, consequent, weight⟩ ∧ RuleText.isWeight weight = true := by
  unfold new at h
  split at h
  · next hweight => exact ⟨(Except.ok.inj h).symm, hweight⟩
  · cases h

/-- A rule is read from a text exactly if its parts are. -/
theorem parse_eq_ok_iff {text : String} {r : Rule α} :
    parse text = .ok r ↔ ∃ t, RuleText.parse text = .ok t ∧ RuleText.isWeight t.weight = true ∧
      r = ofText t := by
  constructor
  · intro h
    obtain ⟨t, ht, hnew⟩ := exists_of_bind_eq_ok h
    obtain ⟨hr, hweight⟩ := eq_ofText_of_new hnew
    exact ⟨t, ht, hweight, hr⟩
  · rintro ⟨t, ht, hweight, rfl⟩
    rw [parse, ht]
    exact new_of_isWeight hweight

/-- The text of a rule of free clauses is read, if at all, as a rule with the same weight and, up to
white space, with the same clauses, exactly if the keywords of the text divide it where the rule
does. It is read as such a rule exactly if its clauses are clauses. -/
theorem parse_text_new {antecedent consequent : String} {weight : Float} {r : Rule Float}
    (h : new antecedent consequent weight = .ok r) :
    (∀ r', parse r.text = .ok r' → (r.toText.SameWords r'.toText ↔
      RuleText.Divides (⟨antecedent, consequent, weight⟩ : RuleText Float))) ∧
    ((∃ r', parse r.text = .ok r' ∧ r.toText.SameWords r'.toText) ↔
      RuleText.HasClause .thenWord antecedent ∧ RuleText.HasClause .withWord consequent) := by
  obtain ⟨rfl, hweight⟩ := eq_ofText_of_new h
  have hback := Binary64.readsBack weight
  constructor
  · intro r' hparse
    obtain ⟨t', ht', -, rfl⟩ := parse_eq_ok_iff.mp hparse
    exact RuleText.sameWords_iff_divides hweight hback Binary64.eq_one ht'
  · constructor
    · rintro ⟨r', hparse, hsame⟩
      obtain ⟨t', ht', -, rfl⟩ := parse_eq_ok_iff.mp hparse
      exact hsame.hasClause ht'
    · rintro ⟨hantecedent, hconsequent⟩
      obtain ⟨t', ht', hsame⟩ := RuleText.parse_text_of_hasClause
        (t := ⟨antecedent, consequent, weight⟩) hweight hback Binary64.eq_one hantecedent hconsequent
      have hweight' : RuleText.isWeight t'.weight = true := hsame.weight ▸ hweight
      exact ⟨ofText t', parse_eq_ok_iff.mpr ⟨t', ht', hweight', rfl⟩, hsame⟩

/-- Keywords that do not end their clause do no harm, and neither does white space. -/
theorem parse_text_new_breeze : ∃ r : Rule Float,
    new "wind with if  is weak" " then is if 2" 0.5 = .ok r ∧
      ∃ r', parse r.text = .ok r' ∧ r.toText.SameWords r'.toText := by
  have hweight : RuleText.isWeight (0.5 : Float) = true := by decide +kernel
  have hnew : new "wind with if  is weak" " then is if 2" (0.5 : Float) =
      .ok (ofText ⟨"wind with if  is weak", " then is if 2", 0.5⟩) := if_pos hweight
  have hantecedent : RuleText.HasClause .thenWord "wind with if  is weak" :=
    ⟨by decide +kernel, by decide +kernel, by decide +kernel⟩
  have hconsequent : RuleText.HasClause .withWord " then is if 2" :=
    ⟨by decide +kernel, by decide +kernel, by decide +kernel⟩
  exact ⟨_, hnew, (parse_text_new hnew).2.mpr ⟨hantecedent, hconsequent⟩⟩

/-- The end of the consequent is read as the weight. -/
theorem not_sameWords_of_with : ∃ r r' : Rule Float,
    new "wind is weak" "fan is fast with 0.5" 1 = .ok r ∧ parse r.text = .ok r' ∧
      r'.toText = ⟨"wind is weak", "fan is fast", 0.5⟩ ∧ ¬ r.toText.SameWords r'.toText := by
  have hnew : new "wind is weak" "fan is fast with 0.5" (1 : Float) =
      .ok (ofText ⟨"wind is weak", "fan is fast with 0.5", 1⟩) := if_pos (by decide +kernel)
  have hread : RuleText.parse (α := Float)
      (RuleText.text ⟨"wind is weak", "fan is fast with 0.5", (1 : Float)⟩) =
        .ok ⟨"wind is weak", "fan is fast", 0.5⟩ := by
    decide +kernel
  have hweight : RuleText.isWeight (0.5 : Float) = true := by decide +kernel
  refine ⟨_, _, hnew, parse_eq_ok_iff.mpr ⟨_, hread, hweight, rfl⟩, rfl, fun hsame => ?_⟩
  have hne : (0.5 : Float) ≠ 1 := by decide +kernel
  exact hne hsame.weight

end Rule

end FuzzyInference
