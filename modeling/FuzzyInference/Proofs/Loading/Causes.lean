import FuzzyInference.Proofs.Antecedent.Placement
import FuzzyInference.Proofs.Text.Messages
import FuzzyInference.Rule.Basic

/-!
Why a rule cannot be read or loaded. The cause always lies in a text: in the form of the rule or of
one of its clauses, or in a name there that stands for nothing.
-/
namespace FuzzyInference

variable {α κ : Type} {cause : Error}

theorem RuleText.isOfText_of_parse [Scalar α] [NumberText α] {text : String}
    (h : RuleText.parse (α := α) text = .error cause) : cause.IsOfText := by
  unfold parse at h
  cases hwords : ofWords (α := α) (wordsOf text) with
  | ok t =>
    rw [hwords] at h
    cases h
  | error c =>
    rw [hwords] at h
    cases h
    exact .ruleText c

theorem Rule.isOfText_of_parse [Scalar α] [NumberText α] {text : String}
    (h : Rule.parse (α := α) text = .error cause) : cause.IsOfText := by
  obtain htext | ⟨t, hnew⟩ := cause_of_bind_eq_error h
  · exact RuleText.isOfText_of_parse htext
  · unfold Rule.new at hnew
    split at hnew <;> cases hnew
    exact .ruleText _

variable [Catalogue κ α] {catalogue : κ}

theorem Draft.isOfText_of_accept {clause : Clause} {word : String} {d : Draft α}
    (h : d.accept catalogue clause word = .error cause) : cause.IsOfText := by
  cases d with
  | start =>
    simp only [accept] at h
    split at h
    · cases h
      exact .unresolved _ _
    · split at h <;> cases h
      exact .parse _
  | named subject =>
    simp only [accept] at h
    split at h <;> cases h
    exact .parse _
  | described subject hedges words =>
    simp only [accept] at h
    split at h
    · split at h
      · cases h
      · split at h <;> cases h
        exact .parse _
    · split at h <;> cases h
      exact .unresolved _ _

theorem Proposition.isOfText_of_conclusionsFrom {text : String} {place : Place α}
    {words : List String} (h : conclusionsFrom catalogue text place words = .error cause) :
    cause.IsOfText := by
  induction words generalizing place with
  | nil =>
    cases place with
    | after => cases h
    | within d =>
      simp only [conclusionsFrom] at h
      split at h <;> cases h <;> exact .parse _
  | cons word rest ih =>
    cases place with
    | after =>
      simp only [conclusionsFrom] at h
      split at h
      · exact ih h
      · cases h
        exact .parse _
    | within d =>
      obtain haccept | ⟨step, h⟩ := cause_of_bind_eq_error h
      · exact Draft.isOfText_of_accept haccept
      cases step with
      | draft d => exact ih h
      | complete p =>
        obtain hrest | ⟨ps, h⟩ := cause_of_bind_eq_error h
        · exact ih hrest
        · cases h

namespace Infix

variable {ι : Type} [Symbol ι] {find? : String → Option ι} {text : String}

/-- Only a function may be missing from its registry. -/
theorem State.isOfText_of_step {previous next : Option Token} {s : State ι} {token : Token}
    (htoken : ∀ name, token ≠ .function name)
    (h : s.step find? text previous next token = .error cause) : cause.IsOfText := by
  cases token with
  | operand word => cases h
  | function name => exact absurd rfl (htoken name)
  | operator symbol =>
    simp only [step] at h
    split at h <;> cases h
    exact .parse _
  | leftParen => cases h
  | rightParen =>
    simp only [step, closeParen] at h
    split at h
    · cases h
    · split at h <;> cases h
      exact .parse _
    · cases h
      exact .parse _
  | comma =>
    simp only [step, comma] at h
    split at h <;> cases h
    exact .parse _

theorem State.isOfText_of_run {previous : Option Token} {tokens : List Token} {s : State ι}
    (htokens : ∀ name, .function name ∉ tokens)
    (h : State.run find? text previous tokens s = .error cause) : cause.IsOfText := by
  induction tokens generalizing previous s with
  | nil => cases h
  | cons token rest ih =>
    obtain hstep | ⟨t, hrest⟩ := cause_of_bind_eq_error h
    · refine isOfText_of_step (fun name htoken => htokens name ?_) hstep
      rw [htoken]
      exact List.mem_cons_self
    · exact ih (fun name hname => htokens name (List.mem_cons_of_mem _ hname)) hrest

theorem isOfText_of_toPostfix {tokens : List Token} (htokens : ∀ name, .function name ∉ tokens)
    (h : toPostfix find? text tokens = .error cause) : cause.IsOfText := by
  obtain hrun | ⟨s, hfinish⟩ := cause_of_bind_eq_error h
  · exact State.isOfText_of_run htokens hrun
  · unfold State.finish at hfinish
    split at hfinish <;> cases hfinish
    exact .parse _

end Infix

namespace Expression

theorem isOfText_of_push {s : Progress α} {item : Infix.Item Connective}
    (h : s.push catalogue item = .error cause) : cause.IsOfText := by
  cases item with
  | operand word =>
    obtain haccept | ⟨step, h⟩ := cause_of_bind_eq_error h
    · exact Draft.isOfText_of_accept haccept
    · cases step <;> cases h
  | symbol connective =>
    simp only [Progress.push] at h
    split at h
    · cases h
      exact .parse _
    · split at h <;> cases h
      exact .parse _

theorem isOfText_of_foldlM {items : List (Infix.Item Connective)} {s : Progress α}
    (h : items.foldlM (Progress.push catalogue) s = .error cause) : cause.IsOfText := by
  induction items generalizing s with
  | nil => cases h
  | cons item rest ih =>
    rw [List.foldlM_cons] at h
    obtain hpush | ⟨t, hrest⟩ := cause_of_bind_eq_error h
    · exact isOfText_of_push hpush
    · exact ih hrest

theorem isOfText_of_parse {text : String}
    (h : parse (α := α) catalogue text = .error cause) : cause.IsOfText := by
  simp only [parse] at h
  split at h
  · cases h
    exact .parse _
  obtain hitems | ⟨items, h⟩ := cause_of_bind_eq_error h
  · exact Infix.isOfText_of_toPostfix (function_notMem_tokens text) hitems
  obtain hrun | ⟨s, h⟩ := cause_of_bind_eq_error h
  · exact isOfText_of_foldlM hrun
  split at h
  · cases h
    exact .parse _
  · split at h <;> cases h
    exact .parse _

end Expression

end FuzzyInference
