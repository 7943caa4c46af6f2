import FuzzyInference.Binary64.Instances
import FuzzyInference.Proofs.Consequent.Conclusions
import FuzzyInference.Variables

/-!
The language of consequents. Which role a word has is settled by the place of the reader alone:
after a conclusion it has to be `and`, and within one it names what is due next. So a text has
conclusions exactly if its words are those of conclusions with `and` between neighbours, also where
variables, hedges or terms are themselves called `and` or `is`.
-/
namespace FuzzyInference.Proposition

variable {α κ : Type} [Catalogue κ α] {catalogue : κ} {text word : String} {rest : List String}

/-! ### Steps of the reader -/

theorem conclusionsFrom_draft {d next : Draft α}
    (h : d.accept catalogue .consequent word = .ok (.draft next)) :
    conclusionsFrom catalogue text (.within d) (word :: rest) =
      conclusionsFrom catalogue text (.within next) rest := by
  rw [conclusionsFrom, h]
  rfl

theorem conclusionsFrom_complete {d : Draft α} {p : Proposition α}
    (h : d.accept catalogue .consequent word = .ok (.complete p)) :
    conclusionsFrom catalogue text (.within d) (word :: rest) =
      (conclusionsFrom catalogue text .after rest).map (p :: ·) := by
  rw [conclusionsFrom, h]
  cases conclusionsFrom catalogue text .after rest <;> rfl

/-- The hedges of a conclusion follow those that have been read. -/
theorem conclusionsFrom_hedges {words : List String} {hedges : List (Hedge α)}
    (h : FindHedges catalogue words hedges) (subject : Reference VariableId)
    (before : List (Hedge α)) (read : List String) :
    conclusionsFrom catalogue text (.within (.described subject before read)) (words ++ rest) =
      conclusionsFrom catalogue text
        (.within (.described subject (before ++ hedges) (read ++ words))) rest := by
  induction h generalizing before read with
  | nil => simp
  | @cons word hedge words hedges hword _ ih =>
    obtain ⟨hhedge, hany⟩ := hword
    have haccept : (Draft.described subject before read).accept catalogue .consequent word =
        .ok (.draft (.described subject (before ++ [hedge]) (read ++ [word]))) := by
      simp [Draft.accept, hhedge, hany]
    rw [List.cons_append, conclusionsFrom_draft haccept, ih]
    simp

/-- The words of a conclusion are read as that conclusion, whatever comes behind them. -/
theorem Concludes.conclusionsFrom_append {words : List String} {p : Proposition α}
    (h : p.Concludes catalogue words) :
    conclusionsFrom catalogue text (.within .start) (words ++ rest) =
      (conclusionsFrom catalogue text .after rest).map (p :: ·) := by
  cases h with
  | @intro name term id termId words hedges hid houtput hhedges hhedge htermId =>
    have hname : (Draft.start : Draft α).accept catalogue .consequent name =
        .ok (.draft (.named ⟨id, name⟩)) := by
      simp [Draft.accept, hid, houtput]
    have his : (Draft.named ⟨id, name⟩ : Draft α).accept catalogue .consequent
        Keyword.isWord.text = .ok (.draft (.described ⟨id, name⟩ [] [])) := by
      simp [Draft.accept]
    have hterm : (Draft.described ⟨id, name⟩ hedges words).accept catalogue .consequent term =
        .ok (.complete ⟨⟨id, name⟩, hedges, some ⟨termId, term⟩⟩) := by
      simp [Draft.accept, hhedge, htermId]
    simp only [List.cons_append, List.append_assoc, List.nil_append]
    rw [conclusionsFrom_draft hname, conclusionsFrom_draft his, conclusionsFrom_hedges hhedges]
    exact conclusionsFrom_complete hterm

/-- After a conclusion further ones are read, each behind an `and` of its own. -/
theorem conclusionsFrom_after {ps : List (Proposition α)} {operands : List (List String)}
    (h : ps.Forall₂ (fun p words => p.Concludes catalogue words) operands) :
    conclusionsFrom catalogue text .after (operands.flatMap (Keyword.andWord.text :: ·)) =
      .ok ps := by
  induction h with
  | nil => rfl
  | cons hp _ ih =>
    rw [List.flatMap_cons, List.cons_append, conclusionsFrom, if_pos rfl,
      hp.conclusionsFrom_append, ih]
    rfl

/-! ### The whole text -/

/-- A text is read as the conclusions exactly if its words are theirs, joined by `and`. -/
theorem parseConclusions_eq_ok_iff (catalogue : κ) (text : String) (ps : List (Proposition α)) :
    parseConclusions catalogue text = .ok ps ↔ ps ≠ [] ∧ ∃ operands : List (List String),
      Text.words text = [Keyword.andWord.text].intercalate operands ∧
        ps.Forall₂ (fun p words => p.Concludes catalogue words) operands := by
  constructor
  · intro h
    obtain ⟨operands, hwords, hnonempty, hconcludes⟩ := exists_words_of_parseConclusions h
    exact ⟨hnonempty, operands, hwords, hconcludes⟩
  · rintro ⟨hnonempty, operands, hwords, hconcludes⟩
    cases hconcludes with
    | nil => exact absurd rfl hnonempty
    | cons hp hrest =>
      rw [intercalate_singleton_cons] at hwords
      rw [parseConclusions, hwords, hp.conclusionsFrom_append, conclusionsFrom_after hrest]
      rfl

/-- Output variables that are called like the words around them. -/
def homonyms : Variables Float where
  outputs := [
    { name := "and", terms := [⟨"is", .constant 1⟩] },
    { name := "is", terms := [⟨"and", .constant 1⟩] }]

example : (parseConclusions homonyms "and is is and is is very and").toOption.map
    (fun ps => ps.map words) = some [["and", "is", "is"], ["is", "is", "very", "and"]] := by
  decide +kernel

end FuzzyInference.Proposition
