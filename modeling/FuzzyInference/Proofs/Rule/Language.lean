import FuzzyInference.Rule.Text

/-!
The language of rule texts, and what every other text is refused for. A keyword divides the words at
its first occurrence only, so the antecedent may have any word but `then` and the consequent any
word but `with`. Causes are ranked: the keywords come first, then the weight, then the clauses.
-/
namespace FuzzyInference.RuleText

variable {α : Type} [Scalar α] [NumberText α]

/-- The word stands for a weight. -/
structure Means (word : String) (weight : α) : Prop where
  read : NumberText.read? word = some weight
  isFinite : Scalar.isFinite weight = true
  pos : Scalar.lt Scalar.zero weight = true

/-- What the words from the first `with` after `then` on give as the weight, or are refused for. -/
inductive Weighs : List String → Except RuleTextError α → Prop
  | absent : Weighs [] (.ok Scalar.one)
  | missing : Weighs [Keyword.withWord.text] (.error .missingWeight)
  | invalid {word : String} {rest : List String} (h : ∀ weight : α, ¬Means word weight) :
      Weighs (Keyword.withWord.text :: word :: rest) (.error (.invalidWeight word))
  | trailing {word : String} {rest : List String} {weight : α} (h : Means word weight)
      (hrest : rest ≠ []) : Weighs (Keyword.withWord.text :: word :: rest)
        (.error (.trailingWords (Text.unwords rest)))
  | given {word : String} {weight : α} (h : Means word weight) :
      Weighs [Keyword.withWord.text, word] (.ok weight)

/-- What the words of a text are read as: `antecedent` is all that stands before the first `then`,
and `consequent` all that stands between it and the `weight` words. -/
inductive Reads : List String → Except RuleTextError (RuleText α) → Prop
  | noIf {words : List String} (h : words.head? ≠ some Keyword.ifWord.text) :
      Reads words (.error (.missingKeyword .ifWord))
  | noThen {words : List String} (h : Keyword.thenWord.text ∉ words) :
      Reads (Keyword.ifWord.text :: words) (.error (.missingKeyword .thenWord))
  | noWeight {antecedent consequent weightWords : List String} {cause : RuleTextError}
      (hthen : Keyword.thenWord.text ∉ antecedent) (hwith : Keyword.withWord.text ∉ consequent)
      (hweight : Weighs weightWords (.error cause : Except _ α)) :
      Reads (Keyword.ifWord.text :: antecedent ++
        Keyword.thenWord.text :: (consequent ++ weightWords)) (.error cause)
  | noAntecedent {consequent weightWords : List String} {weight : α}
      (hwith : Keyword.withWord.text ∉ consequent) (hweight : Weighs weightWords (.ok weight)) :
      Reads (Keyword.ifWord.text :: Keyword.thenWord.text :: (consequent ++ weightWords))
        (.error (.emptyClause .antecedent))
  | noConsequent {antecedent weightWords : List String} {weight : α}
      (hthen : Keyword.thenWord.text ∉ antecedent) (hne : antecedent ≠ [])
      (hweight : Weighs weightWords (.ok weight)) :
      Reads (Keyword.ifWord.text :: antecedent ++ Keyword.thenWord.text :: weightWords)
        (.error (.emptyClause .consequent))
  | rule {antecedent consequent weightWords : List String} {weight : α}
      (hthen : Keyword.thenWord.text ∉ antecedent) (hwith : Keyword.withWord.text ∉ consequent)
      (hne : antecedent ≠ []) (hne' : consequent ≠ []) (hweight : Weighs weightWords (.ok weight)) :
      Reads (Keyword.ifWord.text :: antecedent ++
          Keyword.thenWord.text :: (consequent ++ weightWords))
        (.ok ⟨Text.unwords antecedent, Text.unwords consequent, weight⟩)

/-! ### Every text is read -/

theorem exists_weighs (words : List String) : ∃ (consequent weightWords : List String)
    (r : Except RuleTextError α), words = consequent ++ weightWords ∧
      Keyword.withWord.text ∉ consequent ∧ Weighs weightWords r := by
  by_cases hwith : Keyword.withWord.text ∈ words
  · obtain ⟨consequent, rest, rfl, hconsequent⟩ := List.eq_append_cons_of_mem hwith
    cases rest with
    | nil => exact ⟨consequent, _, _, rfl, hconsequent, .missing⟩
    | cons word rest =>
      by_cases hword : ∃ weight : α, Means word weight
      · obtain ⟨weight, hword⟩ := hword
        by_cases hrest : rest = []
        · subst hrest
          exact ⟨consequent, _, _, rfl, hconsequent, .given hword⟩
        · exact ⟨consequent, _, _, rfl, hconsequent, .trailing hword hrest⟩
      · exact ⟨consequent, _, _, rfl, hconsequent, .invalid (not_exists.mp hword)⟩
  · exact ⟨words, [], _, (List.append_nil words).symm, hwith, .absent⟩

theorem exists_reads (words : List String) :
    ∃ r : Except RuleTextError (RuleText α), Reads words r := by
  by_cases hif : words.head? = some Keyword.ifWord.text
  · obtain ⟨rest, rfl⟩ := List.head?_eq_some_iff.mp hif
    by_cases hthen : Keyword.thenWord.text ∈ rest
    · obtain ⟨antecedent, rest, rfl, hantecedent⟩ := List.eq_append_cons_of_mem hthen
      obtain ⟨consequent, weightWords, r, rfl, hconsequent, hweight⟩ := exists_weighs (α := α) rest
      cases r with
      | error cause => exact ⟨_, .noWeight hantecedent hconsequent hweight⟩
      | ok weight =>
        by_cases hne : antecedent = []
        · subst hne
          exact ⟨_, .noAntecedent hconsequent hweight⟩
        · by_cases hne' : consequent = []
          · subst hne'
            exact ⟨_, .noConsequent hantecedent hne hweight⟩
          · exact ⟨_, .rule hantecedent hconsequent hne hne' hweight⟩
    · exact ⟨_, .noThen hthen⟩
  · exact ⟨_, .noIf hif⟩

/-! ### The reader -/

omit [Scalar α] [NumberText α] in
/-- The words are divided at the first occurrence of the keyword. -/
theorem splitAt_of_notMem {keyword : Keyword} {before : List String}
    (h : keyword.text ∉ before) (after : List String) :
    splitAt keyword (before ++ keyword.text :: after) = (before, some after) := by
  have hne : ∀ word ∈ before, decide (word ≠ keyword.text) = true := by
    intro word hword
    exact decide_eq_true fun heq => h (heq ▸ hword)
  simp only [splitAt]
  rw [List.dropWhile_append_of_pos hne, List.takeWhile_append_of_pos hne]
  simp

theorem splitAt_eq_none {keyword : Keyword} {words : List String} (h : keyword.text ∉ words) :
    splitAt keyword words = (words, none) := by
  have hne : ∀ word ∈ words, decide (word ≠ keyword.text) = true := by
    intro word hword
    exact decide_eq_true fun heq => h (heq ▸ hword)
  have hdrop : words.dropWhile (· ≠ keyword.text) = [] := by
    rw [← List.append_nil words, List.dropWhile_append_of_pos hne, List.dropWhile_nil]
  simp only [splitAt, hdrop]

theorem readWeight_of_means {word : String} {weight : α} (h : Means word weight) :
    readWeight word = .ok weight := by
  simp [readWeight, isWeight, h.read, h.isFinite, h.pos]

theorem readWeight_of_not_means {word : String} (h : ∀ weight : α, ¬Means word weight) :
    readWeight (α := α) word = .error (.invalidWeight word) := by
  unfold readWeight
  split
  · next weight hread =>
    by_cases hweight : isWeight weight = true
    · obtain ⟨hfinite, hpos⟩ := Bool.and_eq_true_iff.mp hweight
      exact absurd ⟨hread, hfinite, hpos⟩ (h weight)
    · rw [if_neg hweight]
  · rfl

/-- The consequent and the weight are told apart by the first `with`. -/
theorem exists_weightOf {consequent weightWords : List String} {r : Except RuleTextError α}
    (hconsequent : Keyword.withWord.text ∉ consequent) (h : Weighs weightWords r) :
    ∃ afterWith, splitAt .withWord (consequent ++ weightWords) = (consequent, afterWith) ∧
      weightOf afterWith = r := by
  cases h with
  | absent => exact ⟨none, by rw [List.append_nil, splitAt_eq_none hconsequent], rfl⟩
  | missing => exact ⟨_, splitAt_of_notMem hconsequent _, rfl⟩
  | @invalid word rest hword =>
    refine ⟨_, splitAt_of_notMem hconsequent _, ?_⟩
    cases rest with
    | nil => exact readWeight_of_not_means hword
    | cons next rest =>
      rw [weightOf, readWeight_of_not_means hword]
      · rfl
      · simp
  | @trailing word rest weight hword hrest =>
    refine ⟨_, splitAt_of_notMem hconsequent _, ?_⟩
    rw [weightOf, readWeight_of_means hword]
    · rfl
    · exact hrest
  | given hword => exact ⟨_, splitAt_of_notMem hconsequent _, readWeight_of_means hword⟩

/-- The parts of a text with both keywords: the weight is judged before the clauses are. -/
theorem ofWords_eq {antecedent consequent weightWords : List String}
    {r : Except RuleTextError α} (hthen : Keyword.thenWord.text ∉ antecedent)
    (hwith : Keyword.withWord.text ∉ consequent) (hweight : Weighs weightWords r) :
    ofWords (Keyword.ifWord.text :: antecedent ++
        Keyword.thenWord.text :: (consequent ++ weightWords)) =
      r.bind fun weight =>
        if antecedent = [] then .error (.emptyClause .antecedent)
        else if consequent = [] then .error (.emptyClause .consequent)
        else .ok ⟨Text.unwords antecedent, Text.unwords consequent, weight⟩ := by
  obtain ⟨afterWith, hsplit, hread⟩ := exists_weightOf hwith hweight
  simp only [List.cons_append, ofWords, ne_eq, not_true_eq_false, if_false,
    splitAt_of_notMem hthen, hsplit, hread]
  cases r with
  | error cause => rfl
  | ok weight =>
    by_cases hne : antecedent = []
    · simp only [hne, if_true]
      rfl
    · by_cases hne' : consequent = []
      · simp only [hne, hne', if_false, if_true]
        rfl
      · simp only [hne, hne', if_false]
        rfl

theorem ofWords_of_reads {words : List String} {r : Except RuleTextError (RuleText α)}
    (h : Reads words r) : ofWords words = r := by
  cases h with
  | noIf h =>
    cases words with
    | nil => rfl
    | cons first words =>
      have hfirst : first ≠ Keyword.ifWord.text := by simpa using h
      simp only [ofWords, if_pos hfirst]
      rfl
  | noThen h =>
    simp only [ofWords, splitAt_eq_none h, ne_eq, not_true_eq_false, if_false]
    rfl
  | noWeight hthen hwith hweight => exact ofWords_eq hthen hwith hweight
  | noAntecedent hwith hweight => exact ofWords_eq List.not_mem_nil hwith hweight
  | @noConsequent antecedent weightWords weight hthen hne hweight =>
    rw [← List.nil_append weightWords, ofWords_eq hthen List.not_mem_nil hweight]
    simp only [Except.bind, hne, if_false, if_true]
  | rule hthen hwith hne hne' hweight =>
    rw [ofWords_eq hthen hwith hweight]
    simp only [Except.bind, hne, hne', if_false]

/-- The words of every text are read in exactly one way, which is what the text is parsed as. -/
theorem parse_eq_iff_reads (text : String) (r : Except Error (RuleText α)) :
    parse text = r ↔ ∃ r', Reads (wordsOf text) r' ∧ r'.mapError .ruleText = r := by
  constructor
  · rintro rfl
    obtain ⟨r', hr'⟩ := exists_reads (α := α) (wordsOf text)
    exact ⟨r', hr', by rw [parse, ofWords_of_reads hr']⟩
  · rintro ⟨r', hr', rfl⟩
    rw [parse, ofWords_of_reads hr']

/-- Both clauses are empty as well, but the weight is missed first. -/
example : parse (α := α) "if then with # 2" = .error (.ruleText .missingWeight) := by cbv

end FuzzyInference.RuleText
