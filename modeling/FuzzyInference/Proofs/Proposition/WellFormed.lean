import FuzzyInference.Proofs.Antecedent.Printing
import FuzzyInference.Proofs.Consequent.Conclusions
import FuzzyInference.Proofs.Cycle.History

/-!
Propositions as they are read. One draft serves all propositions of a text, and in an antecedent it
is fed in an order that is not that of the text. Still the words of a text are cut into those of its
propositions, one part for each, and a proposition holds nothing but what the catalogue finds for
its own part.
-/
namespace FuzzyInference

variable {α κ : Type} [Catalogue κ α] {catalogue : κ}

theorem NameHedges.isAny {words : List String} {hedges : List (Hedge α)}
    (h : NameHedges catalogue words hedges) : ∀ hedge ∈ hedges, hedge.isAny = false := by
  intro hedge hmem
  obtain ⟨word, -, -, -, hany⟩ := exists_of_forall₂ h.flip hedge hmem
  exact hany

theorem NameHedges.found {words : List String} {hedges : List (Hedge α)}
    (h : NameHedges catalogue words hedges) :
    words.Forall₂ (fun word hedge => Catalogue.findHedge? catalogue word = some hedge) hedges :=
  h.imp fun _ _ hhedge => hhedge.2.1

namespace Proposition

/-- The handles of the proposition are those that its names stand for in the catalogue. -/
structure Refers (catalogue : κ) (p : Proposition α) : Prop where
  subject : Catalogue.findVariable? catalogue p.subject.name = some p.subject.id
  term : ∀ t ∈ p.term, Catalogue.findTerm? catalogue p.subject.id t.name = some t.id

/-- The words are a variable, the word `is`, hedges and the term, if there is one, and the
proposition holds what the catalogue finds for them. -/
structure IsFound (catalogue : κ) (p : Proposition α) (words : List String) : Prop
    extends p.Refers catalogue where
  hedges : ∃ hedgeWords : List String,
    words = p.subject.name :: Keyword.isWord.text :: hedgeWords ++
      (p.term.map Reference.name).toList ∧
    hedgeWords.Forall₂ (fun word hedge => Catalogue.findHedge? catalogue word = some hedge) p.hedges

/-- The hedge `any` stands in place of a term, and nowhere but last. -/
structure IsWellFormed (p : Proposition α) : Prop where
  term : p.term = none ↔ p.endsWithAny = true
  any : ∀ hedge ∈ p.hedges.dropLast, hedge.isAny = false

omit [Catalogue κ α] in
theorem IsWellFormed.endsWithAny_or {p : Proposition α} (h : p.IsWellFormed) :
    p.endsWithAny = true ∨ p.term.isSome = true := by
  cases hterm : p.term with
  | none => exact .inl (h.term.mp hterm)
  | some term => exact .inr rfl

omit [Catalogue κ α] in
theorem endsWithAny_eq_false {p : Proposition α} (h : ∀ hedge ∈ p.hedges, hedge.isAny = false) :
    p.endsWithAny = false := by
  unfold endsWithAny
  cases hlast : p.hedges.getLast? with
  | none => rfl
  | some last => exact h last (List.mem_of_getLast? hlast)

/-! ### Propositions of antecedents -/

theorem Derives.refers {words : List String} {p : Proposition α}
    (h : p.Derives catalogue words) : p.Refers catalogue := by
  cases h with
  | term hname hid hhedges hterm hhedge htermId => exact ⟨hid, by simpa using htermId⟩
  | any hname hid hhedges hword hhedge hany => exact ⟨hid, by simp⟩

theorem Derives.isFound {words : List String} {p : Proposition α}
    (h : p.Derives catalogue words) : p.IsFound catalogue words := by
  refine ⟨h.refers, ?_⟩
  cases h with
  | term hname hid hhedges hterm hhedge htermId => exact ⟨_, rfl, hhedges.found⟩
  | @any name word id last words hedges hname hid hhedges hword hhedge hany =>
    refine ⟨words ++ [word], by simp, ?_⟩
    exact List.rel_append (hhedges.found) (.cons hhedge .nil)

theorem Derives.isWellFormed {words : List String} {p : Proposition α}
    (h : p.Derives catalogue words) : p.IsWellFormed := by
  cases h with
  | term hname hid hhedges hterm hhedge htermId =>
    have hnone := hhedges.isAny
    refine ⟨?_, fun hedge hmem => hnone hedge (List.dropLast_subset _ hmem)⟩
    rw [endsWithAny_eq_false hnone]
    simp
  | any hname hid hhedges hword hhedge hany =>
    refine ⟨by simp [endsWithAny, hany], ?_⟩
    rw [List.dropLast_concat]
    exact hhedges.isAny

/-! ### Conclusions -/

theorem Concludes.refers {words : List String} {p : Proposition α}
    (h : p.Concludes catalogue words) : p.Refers catalogue := by
  cases h with
  | intro hid houtput hhedges hhedge htermId => exact ⟨hid, by simpa using htermId⟩

theorem Concludes.isFound {words : List String} {p : Proposition α}
    (h : p.Concludes catalogue words) : p.IsFound catalogue words := by
  refine ⟨h.refers, ?_⟩
  cases h with
  | intro hid houtput hhedges hhedge htermId =>
    exact ⟨_, rfl, hhedges.imp fun _ _ hhedge => hhedge.1⟩

theorem Concludes.isAny {words : List String} {p : Proposition α}
    (h : p.Concludes catalogue words) : ∀ hedge ∈ p.hedges, hedge.isAny = false := by
  cases h with
  | intro hid houtput hhedges hhedge htermId =>
    intro hedge hmem
    obtain ⟨word, -, -, hany⟩ := exists_of_forall₂ hhedges.flip hedge hmem
    exact hany

theorem refers_of_parseConclusions {text : String} {ps : List (Proposition α)}
    (h : parseConclusions catalogue text = .ok ps) : ∀ p ∈ ps, p.Refers catalogue := by
  intro p hp
  obtain ⟨words, hwords⟩ := exists_concludes_of_mem h hp
  exact hwords.refers

end Proposition

theorem Expression.refers_of_parse {text : String} {e : Expression α}
    (h : parse catalogue text = .ok e) : ∀ p ∈ e.propositions, p.Refers catalogue := by
  intro p hp
  obtain ⟨words, hderives, -⟩ := exists_words_of_mem_propositions h hp
  exact hderives.refers

/-! ### Both readers -/

/-- Each proposition that is read from a text is found in words of its own. In an antecedent these
are the words between connectives and parentheses, and `any` stands exactly where a term is missing;
in a consequent they are the words between `and` and `and`, and a term of an output variable is
asserted without `any`. -/
theorem Proposition.isFound_of_read (catalogue : κ) (text : String) :
    (∀ e, Expression.parse catalogue text = .ok e →
      ∃ operands : List (List String), operands.flatten = Expression.names text ∧
        e.propositions.Forall₂ (fun p words => p.IsFound catalogue words ∧ p.IsWellFormed)
          operands) ∧
    ∀ ps, parseConclusions catalogue text = .ok ps → ps ≠ [] ∧
      ∃ operands : List (List String),
        Text.words text = [Keyword.andWord.text].intercalate operands ∧
        ps.Forall₂ (fun p words => p.IsFound catalogue words ∧ p.IsConclusion ∧
          ∀ hedge ∈ p.hedges, hedge.isAny = false) operands := by
  constructor
  · intro e h
    obtain ⟨items, hitems, hrun⟩ := Expression.parse_eq_ok_iff.mp h
    obtain ⟨⟨operands, hflatten, hderives⟩, -⟩ := Expression.exists_operands hitems hrun
    refine ⟨operands, hflatten, hderives.imp fun p words hp => ?_⟩
    exact ⟨hp.isFound, hp.isWellFormed⟩
  · intro ps h
    obtain ⟨operands, hwords, hnonempty, hconcludes⟩ := exists_words_of_parseConclusions h
    refine ⟨hnonempty, operands, hwords, hconcludes.imp fun p words hp => ?_⟩
    exact ⟨hp.isFound, hp.isConclusion, hp.isAny⟩

/-- A text that both readers accept. -/
theorem Proposition.isFound_fan : ∃ e ps operands operands',
    Expression.parse Engine.fan.vars "fan is very fast and fan is fast" = .ok e ∧
      parseConclusions Engine.fan.vars "fan is very fast and fan is fast" = .ok ps ∧
      operands.flatten = ["fan", "is", "very", "fast", "fan", "is", "fast"] ∧
      e.propositions.Forall₂ (fun p words => p.IsFound Engine.fan.vars words) operands ∧
      ps.Forall₂ (fun p words => p.IsFound Engine.fan.vars words) operands' := by
  have hparse : (Expression.parse Engine.fan.vars "fan is very fast and fan is fast").isOk = true :=
    by decide +kernel
  have hconclude : (parseConclusions Engine.fan.vars "fan is very fast and fan is fast").isOk =
    true := by decide +kernel
  have hnames : Expression.names "fan is very fast and fan is fast" =
    ["fan", "is", "very", "fast", "fan", "is", "fast"] := by decide +kernel
  obtain ⟨hexpression, hconclusions⟩ :=
    Proposition.isFound_of_read Engine.fan.vars "fan is very fast and fan is fast"
  cases he : Expression.parse Engine.fan.vars "fan is very fast and fan is fast" with
  | error cause =>
    rw [he] at hparse
    cases hparse
  | ok e =>
    cases hps : parseConclusions Engine.fan.vars "fan is very fast and fan is fast" with
    | error cause =>
      rw [hps] at hconclude
      cases hconclude
    | ok ps =>
      obtain ⟨operands, hoperands, hfound⟩ := hexpression e he
      obtain ⟨-, operands', -, hfound'⟩ := hconclusions ps hps
      refine ⟨e, ps, operands, operands', rfl, rfl, hoperands.trans hnames, ?_, ?_⟩
      · exact hfound.imp fun _ _ h => h.1
      · exact hfound'.imp fun _ _ h => h.1

end FuzzyInference
