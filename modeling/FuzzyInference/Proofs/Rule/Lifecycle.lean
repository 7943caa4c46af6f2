import FuzzyInference.Proofs.Binary64.Text
import FuzzyInference.Proofs.Cycle.Frame
import FuzzyInference.Proofs.Rule.Printing

/-!
What may be done to a rule after it has been read. Operations can fail, and each one may come with
another catalogue; whatever they are and however they end, the clauses keep their texts and the
weight remains a weight, so the text of the rule is read as a rule of the same parts.
-/
namespace FuzzyInference.Rule

variable {α : Type}

/-- The operations on a rule that has been read. -/
inductive Operation (α : Type) : Type 1 where
  | setWeight (weight : α)
  | setEnabled (enabled : Bool)
  | load {κ : Type} [Catalogue κ α] (catalogue : κ)
  | unload
  | deactivate
  | activate {κ : Type} [Catalogue κ α] (ε : α) (cs : Combinators α) (catalogue : κ)
  | trigger {κ : Type} [Catalogue κ α] (ε : α) (implication : Option (TNorm α)) (catalogue : κ)

/-- The rule an operation gives, or the rule as it was if it gives none. -/
def orKeep (r : Rule α) : Except Error (Rule α) → Rule α
  | .ok changed => changed
  | .error _ => r

variable [Scalar α] [NumberText α]

/-- The rule after an operation, be it one that fails. -/
def apply (r : Rule α) : Operation α → Rule α
  | .setWeight weight => r.orKeep (r.setWeight weight)
  | .setEnabled enabled => { r with enabled }
  | @Operation.load _ _ _ catalogue => (r.load catalogue).state
  | .unload => r.unload
  | .deactivate => r.deactivate
  | @Operation.activate _ _ _ ε cs catalogue => r.orKeep (r.activate ε cs catalogue)
  | @Operation.trigger _ _ _ ε implication catalogue =>
    r.orKeep ((r.trigger ε implication catalogue).map Prod.fst)

omit [NumberText α] in
theorem wellFormed_orKeep {r : Rule α} {result : Except Error (Rule α)}
    (h : r.toText.WellFormed)
    (hresult : ∀ changed, result = .ok changed → changed.toText.WellFormed) :
    (r.orKeep result).toText.WellFormed := by
  cases result with
  | ok changed => exact hresult changed rfl
  | error cause => exact h

omit [NumberText α] in
/-- Loading changes nothing that is printed, also where it fails. -/
theorem toText_load {κ : Type} [Catalogue κ α] (catalogue : κ) (r : Rule α) :
    (r.load catalogue).state.toText = r.toText := by
  unfold load
  cases hresolve : r.resolve catalogue with
  | error cause => rfl
  | ok loaded =>
    obtain ⟨e, ps, -, -, rfl⟩ := exists_of_resolve hresolve
    rfl

theorem toText_of_activate {κ : Type} [Catalogue κ α] {ε : α} {cs : Combinators α} {catalogue : κ}
    {r r' : Rule α} (h : r.activate ε cs catalogue = .ok r') : r'.toText = r.toText := by
  obtain ⟨-, degree, -, rfl⟩ := exists_of_activate h
  rfl

/-- An operation keeps the texts of the clauses and leaves a weight. -/
theorem wellFormed_apply {r : Rule α} (h : r.toText.WellFormed) (operation : Operation α) :
    (r.apply operation).toText.WellFormed := by
  cases operation with
  | setWeight weight =>
    apply wellFormed_orKeep h
    intro changed hchanged
    unfold setWeight at hchanged
    by_cases hweight : RuleText.isWeight weight = true
    · rw [if_pos hweight] at hchanged
      cases hchanged
      exact ⟨h.antecedent, h.consequent, hweight⟩
    · rw [if_neg hweight] at hchanged
      cases hchanged
  | setEnabled enabled => exact h
  | load catalogue =>
    rw [apply, toText_load]
    exact h
  | unload => exact h
  | deactivate => exact h
  | activate ε cs catalogue =>
    apply wellFormed_orKeep h
    intro changed hchanged
    rw [toText_of_activate hchanged]
    exact h
  | trigger ε implication catalogue =>
    apply wellFormed_orKeep h
    intro changed hchanged
    obtain ⟨fired, htrigger, rfl⟩ := exists_of_map_eq_ok hchanged
    obtain ⟨-, ⟨-, hfired, -⟩ | ⟨-, hfired, -⟩⟩ := trigger_cases htrigger
    · rw [hfired]
      exact h
    · rw [hfired]
      exact h

/-- Well-formed rules remain so, whatever is done to them. -/
theorem wellFormed_history {r : Rule α} (h : r.toText.WellFormed) (history : List (Operation α)) :
    (history.foldl apply r).toText.WellFormed := by
  induction history generalizing r with
  | nil => exact h
  | cons operation history ih => exact ih (wellFormed_apply h operation)

/-- After any operations the text of a rule that was read is read as a rule with the same clauses
and the same weight. -/
theorem parse_text_history {text : String} {r : Rule Float} (h : parse text = .ok r)
    (history : List (Operation Float)) :
    parse (history.foldl apply r).text = .ok (ofText
      { antecedent := (history.foldl apply r).antecedent.text
        consequent := (history.foldl apply r).consequent.text
        weight := (history.foldl apply r).weight }) := by
  have hwellFormed := wellFormed_history (wellFormed_of_parse h).2 history
  exact parse_of_wellFormed hwellFormed (Binary64.readsBack _) Binary64.eq_one

/-- Both clauses have keywords in them. -/
def windRule (weight : Float) : Rule Float :=
  ofText { antecedent := "wind with if is weak", consequent := "then is if 2", weight }

/-- The new weight is the next number after one, and zero is no weight. -/
theorem parse_text_history_windRule :
    parse "if wind with if is  weak then then is if 2 with 2 # breeze" = .ok (windRule 2) ∧
      parse ([.setWeight 1.0000000000000002, .setWeight 0, .unload].foldl apply (windRule 2)).text =
        .ok (windRule 1.0000000000000002) := by
  have hread : RuleText.parse (α := Float)
      "if wind with if is  weak then then is if 2 with 2 # breeze" = .ok
        { antecedent := "wind with if is weak", consequent := "then is if 2", weight := 2 } := by
    decide +kernel
  have htwo : RuleText.isWeight (2 : Float) = true := by decide +kernel
  have hnext : RuleText.isWeight (1.0000000000000002 : Float) = true := by decide +kernel
  have hzero : RuleText.isWeight (0 : Float) = false := by decide +kernel
  have hparse : parse "if wind with if is  weak then then is if 2 with 2 # breeze" =
      .ok (windRule 2) := by
    have hnew : new "wind with if is weak" "then is if 2" (2 : Float) = .ok (windRule 2) :=
      if_pos htwo
    rw [parse, hread]
    exact hnew
  have hchanged : [.setWeight 1.0000000000000002, .setWeight 0, .unload].foldl apply (windRule 2) =
      windRule 1.0000000000000002 := by
    simp only [List.foldl_cons, List.foldl_nil, apply, setWeight, hnext, hzero, if_true]
    rfl
  have hback := parse_text_history hparse [.setWeight 1.0000000000000002, .setWeight 0, .unload]
  rw [hchanged] at hback ⊢
  exact ⟨hparse, hback⟩

end FuzzyInference.Rule
