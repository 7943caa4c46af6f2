import FuzzyInference.Proofs.Antecedent.Reading
import FuzzyInference.Proofs.Consequent.Conclusions

/-!
Printing an expression and reading it back. The words of the printed text are those of the
propositions, the connectives between them and parentheses around every combination within a
combination, and the grammar derives the expression from them. Names are printed as they stood in
the text that was read, so no blank and no parenthesis is hidden in them.
-/
namespace FuzzyInference

open Infix

variable {α : Type}

namespace Expression

/-! ### Words of a printed text -/

theorem padParens_cons (c : Char) (rest : List Char) :
    padParens (c :: rest) = (if c = '(' ∨ c = ')' then [' ', c, ' '] else [c]) ++ padParens rest :=
  List.flatMap_cons ..

theorem words_append_blank (text text' : String) :
    words (text ++ " " ++ text') = words text ++ words text' := by
  have hpad : padParens (text ++ " " ++ text').toList =
      padParens text.toList ++ ' ' :: padParens text'.toList := by
    simp [padParens]
  rw [words, hpad, Text.wordsAfter_append_blank (by decide)]
  rfl

theorem words_parens (text : String) : words ("(" ++ text ++ ")") = "(" :: words text ++ [")"] := by
  have hpad : padParens ("(" ++ text ++ ")").toList =
      ' ' :: '(' :: ' ' :: (padParens text.toList ++ ' ' :: [')', ' ']) := by
    simp [padParens]
  have hopen : ∀ rest, Text.wordsAfter [] (' ' :: '(' :: ' ' :: rest) =
      "(" :: Text.wordsAfter [] rest := fun _ => rfl
  rw [words, hpad, hopen, Text.wordsAfter_append_blank (by decide)]
  rfl

theorem words_connective (c : Connective) : words c.text = [c.text] := by
  cases c <;> cbv

/-- The words of an operand of a combination, given its own. -/
def operandWords (e : Expression α) (words : List String) : List String :=
  if e.isCombination then "(" :: words ++ [")"] else words

/-- The words of the printed text. -/
def printed : Expression α → List String
  | proposition p => p.words
  | combination connective left right =>
    left.operandWords left.printed ++ connective.text :: right.operandWords right.printed

theorem words_operand (e : Expression α) :
    words (if e.isCombination then s!"({e.text})" else e.text) = e.operandWords (words e.text) := by
  unfold operandWords
  split
  · exact words_parens e.text
  · rfl

theorem words_text {e : Expression α} (h : ∀ p ∈ e.propositions, words p.text = p.words) :
    words e.text = e.printed := by
  induction e with
  | proposition p => exact h p (by simp [propositions])
  | combination c left right ihl ihr =>
    simp only [propositions, List.forall_mem_append] at h
    rw [printed, ← ihl h.1, ← ihr h.2, ← words_operand, ← words_operand, ← List.singleton_append,
      ← words_connective, ← List.append_assoc, ← words_append_blank, ← words_append_blank]
    rfl

/-- Characters of a word that is still open. -/
def IsOpen (pending : List Char) : Prop :=
  ∀ c ∈ pending, Text.isBlank c = false ∧ c ≠ '(' ∧ c ≠ ')'

theorem IsOpen.isWord_of_mem_close {pending : List Char} (h : IsOpen pending) {word : String}
    (hword : word ∈ Text.close pending) : IsWord word := by
  by_cases hne : pending = []
  · subst hne
    cases hword
  · rw [Text.close_of_ne_nil hne, List.mem_singleton] at hword
    have hchars : word.toList = pending.reverse := by rw [hword, String.toList_ofList]
    have hmem : ∀ c ∈ word.toList, c ∈ pending := by
      intro c hc
      rw [hchars] at hc
      exact List.mem_reverse.mp hc
    refine .inr ⟨⟨by simpa [hchars] using hne, fun c hc => (h c (hmem c hc)).1⟩, ?_, ?_⟩
    · exact fun hc => (h _ (hmem _ hc)).2.1 rfl
    · exact fun hc => (h _ (hmem _ hc)).2.2 rfl

/-- The words of a text are parentheses, or have none. -/
theorem IsOpen.isWord_of_mem_wordsAfter {pending cs : List Char} (h : IsOpen pending)
    {word : String} (hword : word ∈ Text.wordsAfter pending (padParens cs)) : IsWord word := by
  have hnil : IsOpen [] := List.forall_mem_nil _
  induction cs generalizing pending with
  | nil => exact h.isWord_of_mem_close hword
  | cons c cs ih =>
    rw [padParens_cons] at hword
    by_cases hparen : c = '(' ∨ c = ')'
    · have hsplit : Text.wordsAfter pending ([' ', c, ' '] ++ padParens cs) =
          Text.close pending ++ c.toString :: Text.wordsAfter [] (padParens cs) := by
        rcases hparen with rfl | rfl <;> rfl
      rw [if_pos hparen, hsplit, List.mem_append, List.mem_cons] at hword
      rcases hword with hword | rfl | hword
      · exact h.isWord_of_mem_close hword
      · rcases hparen with rfl | rfl
        · exact .inl (by decide)
        · exact .inl (by decide)
      · exact ih hnil hword
    · rw [if_neg hparen, List.singleton_append, Text.wordsAfter] at hword
      split at hword
      · rcases List.mem_append.mp hword with hword | hword
        · exact h.isWord_of_mem_close hword
        · exact ih hnil hword
      · next hblank =>
        refine ih (List.forall_mem_cons.mpr ⟨⟨by simpa using hblank, ?_⟩, h⟩) hword
        exact not_or.mp hparen

section Catalogue

variable {κ : Type} [Catalogue κ α] {catalogue : κ}

/-- The printed words derive the expression. -/
theorem derives_printed {e : Expression α}
    (h : ∀ p ∈ e.propositions, p.Derives catalogue p.words) :
    Derives catalogue .disjunction e.printed e := by
  have hprimary : ∀ e : Expression α, Derives catalogue .disjunction e.printed e →
      (∀ p ∈ e.propositions, p.Derives catalogue p.words) →
      Derives catalogue .primary (e.operandWords e.printed) e := by
    intro e he hp
    cases e with
    | proposition p => exact .proposition (hp p (by simp [propositions]))
    | combination => exact .group he
  induction e with
  | proposition p =>
    exact .conjunction (.primary (.proposition (h p (by simp [propositions]))))
  | combination c left right ihl ihr =>
    simp only [propositions, List.forall_mem_append] at h
    have hleft := hprimary left (ihl h.1) h.1
    have hright := hprimary right (ihr h.2) h.2
    cases c with
    | and => exact .conjunction (.and hleft (.primary hright))
    | or => exact .or (.primary hleft) (.conjunction (.primary hright))

end Catalogue

/-! ### Reading a printed text -/

section Read

variable {κ : Type} [Catalogue κ α] {catalogue : κ} {text : String} {e : Expression α}

theorem isWord_of_mem_names {word : String} (h : word ∈ names text) : IsWord word := by
  obtain ⟨t, ht, hword⟩ := List.mem_filterMap.mp h
  obtain ⟨other, hother, rfl⟩ := List.mem_map.mp ht
  obtain ⟨rfl, -⟩ := word?_token hword
  exact IsOpen.isWord_of_mem_wordsAfter (List.forall_mem_nil _) hother

/-- Every proposition of the expression is spelled by words of the text. -/
theorem exists_words_of_mem_propositions (h : parse catalogue text = .ok e) {p : Proposition α}
    (hp : p ∈ e.propositions) :
    ∃ words, p.Derives catalogue words ∧ ∀ word ∈ words, IsWord word := by
  obtain ⟨items, hitems, hrun⟩ := parse_eq_ok_iff.mp h
  obtain ⟨⟨operands, hflatten, hderives⟩, -⟩ := exists_operands hitems hrun
  obtain ⟨words, hmem, hp⟩ := exists_of_forall₂ hderives p hp
  refine ⟨words, hp, fun word hword => ?_⟩
  have hname : word ∈ names text := by
    rw [← hflatten]
    exact List.mem_flatten.mpr ⟨words, hmem, hword⟩
  exact isWord_of_mem_names hname

end Read

variable [Scalar α] {vs : Variables α}

theorem name_of_findHedge? {word : String} {hedge : Hedge α}
    (h : Catalogue.findHedge? vs word = some hedge) : hedge.name = word := by
  simpa using List.find?_some h

theorem eq_names_of_nameHedges {words : List String} {hedges : List (Hedge α)}
    (h : NameHedges vs words hedges) : words = hedges.map Hedge.name := by
  induction h with
  | nil => rfl
  | cons hword _ ih => rw [List.map_cons, ← ih, name_of_findHedge? hword.2.1]

/-- In a catalogue of variables the words of a proposition are the names of what it holds. -/
theorem eq_words_of_derives {p : Proposition α} {words : List String} (h : p.Derives vs words) :
    words = p.words := by
  cases h with
  | term _ _ hhedges _ _ _ =>
    rw [eq_names_of_nameHedges hhedges]
    rfl
  | any _ _ hhedges _ hhedge _ =>
    rw [eq_names_of_nameHedges hhedges, ← name_of_findHedge? hhedge]
    simp [Proposition.words]

/-- Whatever text an expression was read from, its printed text is read as the same expression. -/
theorem parse_text (vs : Variables α) {text : String} {e : Expression α}
    (h : parse vs text = .ok e) : parse vs e.text = .ok e := by
  have hp : ∀ p ∈ e.propositions, p.Derives vs p.words ∧ ∀ word ∈ p.words, IsWord word := by
    intro p hp
    obtain ⟨words, hderives, hwords⟩ := exists_words_of_mem_propositions h hp
    obtain rfl := eq_words_of_derives hderives
    exact ⟨hderives, hwords⟩
  have hprinted := derives_printed fun p hmem => (hp p hmem).1
  rw [← words_text fun p hmem => words_unwords (hp p hmem).2] at hprinted
  exact parse_eq_ok_iff.mpr hprinted.exists_run

def weakAndEither : Expression Float :=
  .combination .and (.proposition windIsWeak)
    (.combination .or (.proposition skyIsAny) (.proposition windIsWeak))

/-- The parentheses that group an operand are printed with a blank before them. -/
theorem parse_text_weakAndEither :
    parse weather "wind is weak and(sky is any or wind is weak)" = .ok weakAndEither ∧
      weakAndEither.text = "wind is weak and (sky is any or wind is weak)" ∧
      parse weather weakAndEither.text = .ok weakAndEither := by
  have hwords : words "wind is weak and(sky is any or wind is weak)" =
      ["wind", "is", "weak", "and", "(", "sky", "is", "any", "or", "wind", "is", "weak", ")"] := by
    cbv
  have hwind := Derives.proposition derives_windIsWeak
  have hgroup := Derives.group
    (.or (.primary (.proposition derives_skyIsAny)) (.conjunction (.primary hwind)))
  have hderives : Derives weather .disjunction
      (words "wind is weak and(sky is any or wind is weak)") weakAndEither := by
    rw [hwords]
    exact .conjunction (.and hwind (.primary hgroup))
  have hparse := parse_eq_ok_iff.mpr hderives.exists_run
  exact ⟨hparse, by cbv, parse_text weather hparse⟩

end Expression

end FuzzyInference
