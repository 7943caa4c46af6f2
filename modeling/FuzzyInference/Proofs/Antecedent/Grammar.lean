import FuzzyInference.Antecedent
import FuzzyInference.Binary64.Instances
import FuzzyInference.Proofs.Infix.Phrase
import FuzzyInference.Proofs.Text.Words
import FuzzyInference.Variables
import Mathlib.Data.List.Forall2

/-!
The grammar of antecedents, and reading what it derives. A derivation names the level of its phrase,
its words and its expression. Two readers share the work, the pending stack that brings the words
into postfix order and the draft of the proposition that is open; between them stand the postfix
items of the phrase, which the first produces and the second builds the expression from.
-/
namespace FuzzyInference

open Infix

variable {α κ : Type} [Catalogue κ α]

/-- A word that is neither a connective nor a parenthesis. -/
def IsName (word : String) : Prop := word ∉ [Connective.and.text, Connective.or.text, "(", ")"]

instance (word : String) : Decidable (IsName word) := inferInstanceAs (Decidable (word ∉ _))

/-- The words name the hedges in their order, and none of these is `any`. -/
def NameHedges (catalogue : κ) (words : List String) (hedges : List (Hedge α)) : Prop :=
  words.Forall₂ (fun word hedge => IsName word ∧
    Catalogue.findHedge? catalogue word = some hedge ∧ hedge.isAny = false) hedges

/-- The words of a proposition: a variable, the word `is`, hedges, and a term or the hedge `any`. -/
inductive Proposition.Derives (catalogue : κ) : List String → Proposition α → Prop
  | term {name term : String} {id : VariableId} {termId : TermId} {words : List String}
      {hedges : List (Hedge α)} (hname : IsName name)
      (hid : Catalogue.findVariable? catalogue name = some id)
      (hhedges : NameHedges catalogue words hedges) (hterm : IsName term)
      (hhedge : Catalogue.findHedge? catalogue term = none)
      (htermId : Catalogue.findTerm? catalogue id term = some termId) :
      Derives catalogue (name :: Keyword.isWord.text :: words ++ [term])
        ⟨⟨id, name⟩, hedges, some ⟨termId, term⟩⟩
  | any {name word : String} {id : VariableId} {last : Hedge α} {words : List String}
      {hedges : List (Hedge α)} (hname : IsName name)
      (hid : Catalogue.findVariable? catalogue name = some id)
      (hhedges : NameHedges catalogue words hedges) (hword : IsName word)
      (hhedge : Catalogue.findHedge? catalogue word = some last) (hany : last.isAny = true) :
      Derives catalogue (name :: Keyword.isWord.text :: words ++ [word])
        ⟨⟨id, name⟩, hedges ++ [last], none⟩

namespace Expression

/-- The words of a text, where a parenthesis is a word of its own. -/
def words (text : String) : List String := Text.wordsAfter [] (padParens text.toList)

/-- How loosely the phrases of the grammar bind, the loosest first. -/
inductive Level where
  | disjunction
  | conjunction
  | primary

/-- The phrases of each level. Both connectives group to the right, and parentheses leave no trace
in the expression. -/
inductive Derives (catalogue : κ) : Level → List String → Expression α → Prop
  | proposition {words : List String} {p : Proposition α} (h : p.Derives catalogue words) :
      Derives catalogue .primary words (.proposition p)
  | group {words : List String} {e : Expression α} :
      Derives catalogue .disjunction words e →
      Derives catalogue .primary ("(" :: words ++ [")"]) e
  | primary {words : List String} {e : Expression α} :
      Derives catalogue .primary words e → Derives catalogue .conjunction words e
  | and {words words' : List String} {left right : Expression α} :
      Derives catalogue .primary words left → Derives catalogue .conjunction words' right →
      Derives catalogue .conjunction (words ++ Connective.and.text :: words')
        (.combination .and left right)
  | conjunction {words : List String} {e : Expression α} :
      Derives catalogue .conjunction words e → Derives catalogue .disjunction words e
  | or {words words' : List String} {left right : Expression α} :
      Derives catalogue .conjunction words left → Derives catalogue .disjunction words' right →
      Derives catalogue .disjunction (words ++ Connective.or.text :: words')
        (.combination .or left right)

end Expression

/-! ### Words and tokens -/

/-- The word is a parenthesis, or a word that has none. -/
def Expression.IsWord (word : String) : Prop :=
  word ∈ ["(", ")"] ∨ (Text.IsWord word ∧ '(' ∉ word.toList ∧ ')' ∉ word.toList)

theorem Expression.padParens_append {cs : List Char} (hopen : '(' ∉ cs) (hclose : ')' ∉ cs)
    (rest : List Char) : padParens (cs ++ rest) = cs ++ padParens rest := by
  induction cs with
  | nil => rfl
  | cons c cs ih =>
    simp only [List.mem_cons, not_or] at hopen hclose
    have hc : ¬(c = '(' ∨ c = ')') := not_or.mpr ⟨Ne.symm hopen.1, Ne.symm hclose.1⟩
    simpa [padParens, hc] using ih hopen.2 hclose.2

theorem Expression.wordsAfter_padParens {word : String} (h : Expression.IsWord word)
    {rest : List Char} (hrest : Text.Stops (fun c => !Text.isBlank c) (padParens rest)) :
    Text.wordsAfter [] (padParens (word.toList ++ rest)) =
      word :: Text.wordsAfter [] (padParens rest) := by
  rcases h with hparen | ⟨hword, hopen, hclose⟩
  · simp only [List.mem_cons, List.not_mem_nil, or_false] at hparen
    rcases hparen with rfl | rfl <;> rfl
  · rw [padParens_append hopen hclose, Text.wordsAfter_word hword hrest]

/-- Every sequence of words is the one of a text. -/
theorem Expression.words_unwords {ws : List String} (h : ∀ word ∈ ws, Expression.IsWord word) :
    words (Text.unwords ws) = ws := by
  induction ws with
  | nil => rfl
  | cons word rest ih =>
    obtain ⟨hword, hrest⟩ := List.forall_mem_cons.mp h
    cases rest with
    | nil =>
      have hwords : Text.wordsAfter [] (padParens (word.toList ++ [])) =
          word :: Text.wordsAfter [] [] :=
        wordsAfter_padParens hword (by simp [Text.Stops, padParens])
      simpa [words, Text.unwords, Text.wordsAfter, Text.close] using hwords
    | cons next rest =>
      have hblank : padParens (' ' :: (Text.unwords (next :: rest)).toList) =
          ' ' :: padParens (Text.unwords (next :: rest)).toList := rfl
      rw [words, Text.toList_unwords_cons, wordsAfter_padParens hword, hblank, Text.wordsAfter,
        if_pos (by decide)]
      · exact congrArg (word :: ·) (ih hrest)
      · rintro c ⟨rfl⟩
        decide

theorem Expression.token_of_isName {word : String} (h : IsName word) :
    Expression.token word = .operand word := by
  simp only [IsName, List.mem_cons, List.not_mem_nil, or_false, not_or] at h
  obtain ⟨hand, hor, hopen, hclose⟩ := h
  have hword : Connective.ofText? word = none := by
    unfold Connective.ofText?
    split
    · exact absurd rfl hand
    · exact absurd rfl hor
    · rfl
  simp [Expression.token, hopen, hclose, hword]

theorem Expression.token_connective (c : Connective) :
    Expression.token c.text = .operator c.text := by
  cases c <;> rfl

theorem NameHedges.isName {catalogue : κ} {words : List String} {hedges : List (Hedge α)}
    (h : NameHedges catalogue words hedges) : ∀ word ∈ words, IsName word := by
  induction h with
  | nil => simp
  | cons hword _ ih =>
    intro other hother
    rcases List.mem_cons.mp hother with rfl | hother
    · exact hword.1
    · exact ih other hother

theorem Proposition.Derives.isName {catalogue : κ} {words : List String} {p : Proposition α}
    (h : p.Derives catalogue words) : ∀ word ∈ words, IsName word := by
  have his : IsName Keyword.isWord.text := by decide
  cases h with
  | term hname _ hhedges hterm _ _ =>
    have hwords := hhedges.isName
    simp only [List.cons_append, List.forall_mem_cons, List.forall_mem_append]
    exact ⟨hname, his, hwords, hterm, by simp⟩
  | any hname _ hhedges hword _ _ =>
    have hwords := hhedges.isName
    simp only [List.cons_append, List.forall_mem_cons, List.forall_mem_append]
    exact ⟨hname, his, hwords, hword, by simp⟩

theorem Proposition.Derives.map_token {catalogue : κ} {words : List String} {p : Proposition α}
    (h : p.Derives catalogue words) : words.map Expression.token = words.map .operand :=
  List.map_congr_left fun word hword => Expression.token_of_isName (h.isName word hword)

/-! ### Building the expression -/

namespace Expression

/-- The items build the expression on top of the expressions that are there. -/
def Builds (catalogue : κ) (items : List (Item Connective)) (e : Expression α) : Prop :=
  ∀ stack : List (Expression α), items.foldlM (Progress.push catalogue) ⟨stack, .start⟩ =
    .ok ⟨e :: stack, .start⟩

variable {catalogue : κ}

theorem Progress.push_of_draft {stack : List (Expression α)} {d d' : Draft α} {word : String}
    (h : d.accept catalogue .antecedent word = .ok (.draft d')) :
    Progress.push catalogue ⟨stack, d⟩ (.operand word) = .ok ⟨stack, d'⟩ := by
  simp only [Progress.push, h]
  rfl

theorem Progress.push_of_complete {stack : List (Expression α)} {d : Draft α}
    {p : Proposition α} {word : String}
    (h : d.accept catalogue .antecedent word = .ok (.complete p)) :
    Progress.push catalogue ⟨stack, d⟩ (.operand word) =
      .ok ⟨.proposition p :: stack, .start⟩ := by
  simp only [Progress.push, h]
  rfl

theorem foldlM_push_cons {s t : Progress α} {item : Item Connective}
    {items : List (Item Connective)} (h : s.push catalogue item = .ok t) :
    (item :: items).foldlM (Progress.push catalogue) s =
      items.foldlM (Progress.push catalogue) t := by
  rw [List.foldlM_cons, h]
  rfl

theorem foldlM_push_hedges {hedgeWords : List String} {hedges : List (Hedge α)}
    (h : NameHedges catalogue hedgeWords hedges) (items : List (Item Connective))
    (stack : List (Expression α)) (subject : Reference VariableId) (before : List (Hedge α))
    (words : List String) :
    (hedgeWords.map Item.operand ++ items).foldlM (Progress.push catalogue)
        ⟨stack, .described subject before words⟩ =
      items.foldlM (Progress.push catalogue)
        ⟨stack, .described subject (before ++ hedges) (words ++ hedgeWords)⟩ := by
  induction h generalizing before words with
  | nil => simp
  | @cons word hedge hedgeWords hedges hword _ ih =>
    obtain ⟨-, hfind, hany⟩ := hword
    have haccept : Draft.accept catalogue .antecedent word (.described subject before words) =
        .ok (.draft (.described subject (before ++ [hedge]) (words ++ [word]))) := by
      simp [Draft.accept, hfind, hany]
    rw [List.map_cons, List.cons_append, foldlM_push_cons (Progress.push_of_draft haccept), ih]
    simp

/-- A variable, the word `is` and hedges leave a proposition that waits for its end. -/
theorem foldlM_push_described {name : String} {id : VariableId} {words : List String}
    {hedges : List (Hedge α)} (hid : Catalogue.findVariable? catalogue name = some id)
    (hhedges : NameHedges catalogue words hedges) (last : String)
    (stack : List (Expression α)) :
    ((name :: Keyword.isWord.text :: words ++ [last]).map Item.operand).foldlM
        (Progress.push catalogue) ⟨stack, .start⟩ =
      Progress.push catalogue ⟨stack, .described ⟨id, name⟩ hedges words⟩ (.operand last) := by
  have hstart : Draft.accept catalogue .antecedent name (.start : Draft α) =
      .ok (.draft (.named ⟨id, name⟩)) := by
    simp [Draft.accept, hid]
  have his : Draft.accept catalogue .antecedent Keyword.isWord.text
      (.named ⟨id, name⟩ : Draft α) = .ok (.draft (.described ⟨id, name⟩ [] [])) := by
    simp [Draft.accept]
  simp only [List.cons_append, List.map_cons, List.map_append, List.map_nil]
  rw [foldlM_push_cons (Progress.push_of_draft hstart),
    foldlM_push_cons (Progress.push_of_draft his), foldlM_push_hedges hhedges]
  simp

theorem builds_proposition {words : List String} {p : Proposition α}
    (h : p.Derives catalogue words) : Builds catalogue (words.map .operand) (.proposition p) := by
  intro stack
  cases h with
  | @term name term id termId words hedges _ hid hhedges _ hhedge htermId =>
    have haccept : Draft.accept catalogue .antecedent term (.described ⟨id, name⟩ hedges words) =
        .ok (.complete ⟨⟨id, name⟩, hedges, some ⟨termId, term⟩⟩) := by
      simp [Draft.accept, hhedge, htermId]
    rw [foldlM_push_described hid hhedges, Progress.push_of_complete haccept]
  | @any name word id last words hedges _ hid hhedges _ hhedge hany =>
    have haccept : Draft.accept catalogue .antecedent word (.described ⟨id, name⟩ hedges words) =
        .ok (.complete ⟨⟨id, name⟩, hedges ++ [last], none⟩) := by
      simp [Draft.accept, hhedge, hany]
    rw [foldlM_push_described hid hhedges, Progress.push_of_complete haccept]

theorem Builds.combination {items items' : List (Item Connective)} {left right : Expression α}
    (h : Builds catalogue items left) (h' : Builds catalogue items' right) (c : Connective) :
    Builds catalogue (items ++ items' ++ [.symbol c]) (.combination c left right) := by
  intro stack
  rw [List.foldlM_append, List.foldlM_append, h stack]
  change (do
    let s ← items'.foldlM (Progress.push catalogue) (⟨left :: stack, .start⟩ : Progress α)
    [Item.symbol c].foldlM (Progress.push catalogue) s) = _
  rw [h' (left :: stack)]
  rfl

/-! ### Postfix order -/

/-- The connectives that stand outside all parentheses in the phrases of a level. -/
def Level.connectives : Level → List Connective
  | disjunction => [.or, .and]
  | conjunction => [.and]
  | primary => []

/-- A phrase of the level can stand between the two connectives. -/
def Level.Fits (level : Level) (left right : Option Connective) : Prop :=
  ∀ c ∈ level.connectives, Waits left c ∧ Yields c right

theorem Level.fits_primary (left right : Option Connective) : primary.Fits left right := by
  simp [Level.Fits, Level.connectives]

theorem Level.fits_none (level : Level) : level.Fits none none := by
  simp [Level.Fits, Waits, Yields]

theorem Level.Fits.conjunction {left right : Option Connective}
    (h : disjunction.Fits left right) : Level.conjunction.Fits left right :=
  fun c hc => h c (List.mem_cons_of_mem _ hc)

theorem Level.Fits.right_and {left right : Option Connective}
    (h : Level.conjunction.Fits left right) : Level.conjunction.Fits (some .and) right := by
  simp only [Level.Fits, Level.connectives, List.forall_mem_singleton] at h ⊢
  exact ⟨by simp [Waits]; rfl, h.2⟩

theorem Level.Fits.left_or {left right : Option Connective}
    (h : disjunction.Fits left right) : Level.conjunction.Fits left (some .or) := by
  simp only [Level.Fits, Level.connectives, List.forall_mem_cons] at h ⊢
  exact ⟨⟨h.2.1.1, by simp [Yields]; rfl⟩, by simp⟩

theorem Level.Fits.right_or {left right : Option Connective}
    (h : disjunction.Fits left right) : disjunction.Fits (some .or) right := by
  simp only [Level.Fits, Level.connectives, List.forall_mem_cons] at h ⊢
  exact ⟨⟨by simp [Waits]; rfl, h.1.2⟩, ⟨by simp [Waits]; rfl, h.2.1.2⟩, by simp⟩

/-- A combination is read as its operands and their connective, if these fit the places that the
connective leaves them. -/
theorem phrase_combination {c : Connective} {words words' : List String}
    {items items' : List (Item Connective)} {left right : Option Connective}
    (hleft : Waits left c) (hright : Yields c right)
    (h : Phrase Connective.ofText? (.between left (some c)) (words.map token) items)
    (h' : Phrase Connective.ofText? (.between (some c) right) (words'.map token) items') :
    Phrase Connective.ofText? (.between left right) ((words ++ c.text :: words').map token)
      (items ++ items' ++ [.symbol c]) := by
  rw [List.map_append, List.map_cons, token_connective]
  exact .binary (Connective.ofText?_text c) (by cases c <;> rfl) (by cases c <;> rfl) hleft hright
    h h'

/-- The items of a derived phrase: its tokens have them as their postfix order wherever the phrase
fits, and they build its expression. -/
theorem Derives.exists_items {level : Level} {words : List String} {e : Expression α}
    (h : Derives catalogue level words e) :
    ∃ items, (∀ left right, level.Fits left right →
        Phrase Connective.ofText? (.between left right) (words.map token) items) ∧
      Builds catalogue items e := by
  induction h with
  | @proposition words p hp =>
    refine ⟨words.map .operand, fun left right _ => ?_, builds_proposition hp⟩
    rw [hp.map_token]
    refine .operands ?_
    rintro rfl
    nomatch hp
  | @group words e _ ih =>
    obtain ⟨items, hphrase, hbuilds⟩ := ih
    refine ⟨items, fun left right _ => ?_, hbuilds⟩
    have htokens : ("(" :: words ++ [")"]).map token =
        .leftParen :: words.map token ++ [.rightParen] := by
      simp [token]
    rw [htokens]
    exact .group (hphrase none none (Level.fits_none _))
  | primary _ ih =>
    obtain ⟨items, hphrase, hbuilds⟩ := ih
    exact ⟨items, fun left right _ => hphrase left right (Level.fits_primary left right), hbuilds⟩
  | and _ _ ih ih' =>
    obtain ⟨items, hphrase, hbuilds⟩ := ih
    obtain ⟨items', hphrase', hbuilds'⟩ := ih'
    refine ⟨_, fun left right hfits => ?_, hbuilds.combination hbuilds' .and⟩
    have hand := hfits .and (List.mem_singleton_self _)
    exact phrase_combination hand.1 hand.2 (hphrase _ _ (Level.fits_primary _ _))
      (hphrase' _ _ hfits.right_and)
  | conjunction _ ih =>
    obtain ⟨items, hphrase, hbuilds⟩ := ih
    exact ⟨items, fun left right hfits => hphrase left right hfits.conjunction, hbuilds⟩
  | or _ _ ih ih' =>
    obtain ⟨items, hphrase, hbuilds⟩ := ih
    obtain ⟨items', hphrase', hbuilds'⟩ := ih'
    refine ⟨_, fun left right hfits => ?_, hbuilds.combination hbuilds' .or⟩
    have hor := hfits .or (List.mem_cons_self ..)
    exact phrase_combination hor.1 hor.2 (hphrase _ _ hfits.left_or) (hphrase' _ _ hfits.right_or)

/-- Every text whose words are derived as a disjunction is read, and its expression is the derived
one. -/
theorem parse_of_derives (catalogue : κ) {text : String} {e : Expression α}
    (h : Derives catalogue .disjunction (words text) e) : parse catalogue text = .ok e := by
  obtain ⟨items, hphrase, hbuilds⟩ := h.exists_items
  have htokens : tokens text = (words text).map token := rfl
  have hpostfix : toPostfix Connective.ofText? text (tokens text) = .ok items :=
    (hphrase none none (Level.fits_none _)).toPostfix text
  have hnonempty : tokens text ≠ [] := by
    obtain ⟨token, rest, hhead, -⟩ := (hphrase none none (Level.fits_none _)).exists_head
    rw [htokens, hhead]
    exact List.cons_ne_nil _ _
  simp only [parse, hnonempty, hpostfix, if_false, bind, Except.bind, hbuilds []]
  rfl

/-- The weather, for an example: how strong the wind is and how dark the sky is. -/
def weather : Variables Float where
  inputs := [
    { name := "wind", minimum := 0, maximum := 1, value := 0.25
      terms := [⟨"weak", .triangle 0 0 1⟩, ⟨"strong", .triangle 0 1 1⟩] },
    { name := "sky", minimum := 0, maximum := 1, value := 0.5
      terms := [⟨"dark", .triangle 0 0 1⟩, ⟨"clear", .triangle 0 1 1⟩] }]

def windIsWeak : Proposition Float := ⟨⟨⟨.input, 0⟩, "wind"⟩, [], some ⟨⟨0⟩, "weak"⟩⟩

def skyIsAny : Proposition Float := ⟨⟨⟨.input, 1⟩, "sky"⟩, [.any], none⟩

def skyIsNotVeryDark : Proposition Float :=
  ⟨⟨⟨.input, 1⟩, "sky"⟩, [.not, .very], some ⟨⟨0⟩, "dark"⟩⟩

theorem derives_windIsWeak : windIsWeak.Derives weather ("wind" :: "is" :: [] ++ ["weak"]) :=
  .term (by decide) rfl .nil (by decide) rfl rfl

theorem derives_skyIsAny : skyIsAny.Derives weather ("sky" :: "is" :: [] ++ ["any"]) :=
  .any (by decide) rfl .nil (by decide) rfl rfl

/-- In `a or (b or c) and a` the parentheses group, and then `and` binds tighter. -/
theorem parse_weather :
    words "wind is weak or(sky is any or sky is not very dark) and wind is weak" =
      ["wind", "is", "weak", "or", "(", "sky", "is", "any", "or", "sky", "is", "not", "very",
        "dark", ")", "and", "wind", "is", "weak"] ∧
    parse weather "wind is weak or(sky is any or sky is not very dark) and wind is weak" =
      .ok (.combination .or (.proposition windIsWeak)
        (.combination .and
          (.combination .or (.proposition skyIsAny) (.proposition skyIsNotVeryDark))
          (.proposition windIsWeak))) := by
  have hwords : words "wind is weak or(sky is any or sky is not very dark) and wind is weak" =
      ["wind", "is", "weak", "or", "(", "sky", "is", "any", "or", "sky", "is", "not", "very",
        "dark", ")", "and", "wind", "is", "weak"] := by cbv
  have hwind : windIsWeak.Derives weather ("wind" :: "is" :: [] ++ ["weak"]) :=
    .term (by decide) rfl .nil (by decide) rfl rfl
  have hany : skyIsAny.Derives weather ("sky" :: "is" :: [] ++ ["any"]) :=
    .any (by decide) rfl .nil (by decide) rfl rfl
  have hdark : skyIsNotVeryDark.Derives weather ("sky" :: "is" :: ["not", "very"] ++ ["dark"]) :=
    .term (by decide) rfl (.cons ⟨by decide, rfl, rfl⟩ (.cons ⟨by decide, rfl, rfl⟩ .nil))
      (by decide) rfl rfl
  have hgroup := Derives.group
    (.or (.primary (.proposition hany)) (.conjunction (.primary (.proposition hdark))))
  refine ⟨hwords, parse_of_derives weather ?_⟩
  rw [hwords]
  exact .or (.primary (.proposition hwind))
    (.conjunction (.and hgroup (.primary (.proposition hwind))))

end Expression

end FuzzyInference
