import FuzzyInference.Proofs.Antecedent.Grammar
import FuzzyInference.Proofs.Infix.WellFormed

/-!
What an expression owes to its text. The draft of a proposition takes the operand words one after
another, whatever connectives and parentheses stand between them in the text, and a connective only
combines expressions that are there. So the propositions of an expression spell the operand words in
their order, and there is one more of them than there are connectives.
-/
namespace FuzzyInference

open Infix

variable {α κ : Type} [Catalogue κ α] {catalogue : κ}

namespace Draft

omit [Catalogue κ α] in
theorem eq_start_of_isStart {d : Draft α} (h : d.isStart = true) : d = start := by
  cases d with
  | start => rfl
  | _ => cases h

/-- The words of the draft name what it holds. -/
def IsSpelled (catalogue : κ) : Draft α → Prop
  | start => True
  | named subject =>
    IsName subject.name ∧ Catalogue.findVariable? catalogue subject.name = some subject.id
  | described subject hedges words =>
    IsName subject.name ∧ Catalogue.findVariable? catalogue subject.name = some subject.id ∧
      NameHedges catalogue words hedges

/-- After the words so far a step has read one more: a longer draft, or a whole proposition. -/
def Step.IsSpelled (catalogue : κ) (words : List String) : Step α → Prop
  | draft d => d.IsSpelled catalogue ∧ d.words = words
  | complete p => p.Derives catalogue words

theorem IsSpelled.accept {d : Draft α} {word : String} {step : Step α}
    (h : d.IsSpelled catalogue) (hword : IsName word)
    (haccept : d.accept catalogue .antecedent word = .ok step) :
    step.IsSpelled catalogue (d.words ++ [word]) := by
  cases d with
  | start =>
    simp only [Draft.accept, reduceCtorEq, false_and, if_false] at haccept
    split at haccept <;> cases haccept
    next id hid =>
    exact ⟨⟨hword, hid⟩, rfl⟩
  | named subject =>
    simp only [Draft.accept] at haccept
    split at haccept <;> cases haccept
    next his =>
    refine ⟨⟨h.1, h.2, .nil⟩, ?_⟩
    simp [Draft.words, his]
  | described subject hedges words =>
    obtain ⟨hname, hid, hhedges⟩ := h
    simp only [Draft.accept, reduceCtorEq, if_false] at haccept
    split at haccept
    · next hedge hhedge =>
      split at haccept <;> cases haccept
      · next hany =>
        have hany : hedge.isAny = false := by simpa using hany
        refine ⟨⟨hname, hid, ?_⟩, by simp [Draft.words]⟩
        exact List.rel_append hhedges (.cons ⟨hword, hhedge, hany⟩ .nil)
      · next hany =>
        have hany : hedge.isAny = true := by simpa using hany
        exact .any hname hid hhedges hword hhedge hany
    · next hhedge =>
      split at haccept <;> cases haccept
      next termId htermId =>
      exact .term hname hid hhedges hword hhedge htermId

end Draft

namespace Expression

/-! ### Words of a text -/

theorem word?_token {word name : String} (h : (token word).word? = some name) :
    name = word ∧ IsName word := by
  unfold token at h
  split at h
  · cases h
  · split at h
    · cases h
    · split at h
      · cases h
      · next hopen hclose hconnective =>
        cases h
        refine ⟨rfl, ?_⟩
        simp only [IsName, List.mem_cons, List.not_mem_nil, or_false, not_or]
        refine ⟨?_, ?_, hopen, hclose⟩ <;> rintro rfl <;> exact hconnective rfl

/-- The words of a text that are neither connectives nor parentheses. -/
def names (text : String) : List String := (tokens text).filterMap Token.word?

theorem isName_of_mem_names {text word : String} (h : word ∈ names text) : IsName word := by
  obtain ⟨token', htoken, hword⟩ := List.mem_filterMap.mp h
  obtain ⟨other, -, rfl⟩ := List.mem_map.mp htoken
  obtain ⟨rfl, hname⟩ := word?_token hword
  exact hname

/-! ### Steps of the reader -/

namespace Progress

/-- The propositions of the expressions, in the order of the text. -/
def propositions (s : Progress α) : List (Proposition α) :=
  s.expressions.reverse.flatMap Expression.propositions

variable {s t : Progress α}

theorem exists_of_push_operand {word : String} (h : s.push catalogue (.operand word) = .ok t) :
    ∃ step, s.draft.accept catalogue .antecedent word = .ok step ∧
      ((∃ d, step = .draft d ∧ t = ⟨s.expressions, d⟩) ∨
        ∃ p, step = .complete p ∧ t = ⟨.proposition p :: s.expressions, .start⟩) := by
  obtain ⟨step, haccept, h⟩ := exists_of_bind_eq_ok h
  refine ⟨step, haccept, ?_⟩
  cases step with
  | draft d =>
    cases h
    exact .inl ⟨d, rfl, rfl⟩
  | complete p =>
    cases h
    exact .inr ⟨p, rfl, rfl⟩

theorem exists_of_push_symbol {c : Connective} (h : s.push catalogue (.symbol c) = .ok t) :
    ∃ right left rest, s = ⟨right :: left :: rest, .start⟩ ∧
      t = ⟨.combination c left right :: rest, .start⟩ := by
  obtain ⟨expressions, draft⟩ := s
  simp only [Progress.push] at h
  split at h
  · cases h
  · next hstart =>
    obtain rfl := Draft.eq_start_of_isStart (by simpa using hstart)
    split at h <;> cases h
    next right left rest =>
    exact ⟨right, left, rest, rfl, rfl⟩

/-- The draft and the propositions of `s` spell the words, and each of the connectives has made one
expression of two. -/
structure Spells (catalogue : κ) (s : Progress α) (words : List String)
    (connectives : List Connective) : Prop where
  draft : s.draft.IsSpelled catalogue
  propositions : ∃ operands : List (List String), operands.flatten ++ s.draft.words = words ∧
    s.propositions.Forall₂ (fun p words => p.Derives catalogue words) operands
  count : (s.propositions.length : Int) = s.expressions.length + used connectives

theorem Spells.push {words : List String} {connectives : List Connective}
    {item : Item Connective} (h : s.Spells catalogue words connectives)
    (hname : ∀ word ∈ item.word?, IsName word) (hpush : s.push catalogue item = .ok t) :
    t.Spells catalogue (words ++ item.word?.toList) (connectives ++ item.symbol?.toList) := by
  obtain ⟨hdraft, ⟨operands, hwords, hderives⟩, hcount⟩ := h
  cases item with
  | operand word =>
    obtain ⟨step, haccept, hstep⟩ := exists_of_push_operand hpush
    have hspelled := hdraft.accept (hname word rfl) haccept
    obtain ⟨d, rfl, rfl⟩ | ⟨p, rfl, rfl⟩ := hstep
    · obtain ⟨hd, hdwords⟩ := hspelled
      refine ⟨hd, ⟨operands, ?_, hderives⟩, ?_⟩
      · rw [hdwords, ← hwords, List.append_assoc]
        rfl
      · simpa [Item.symbol?, Progress.propositions] using hcount
    · have hp : List.Forall₂ (fun p words => p.Derives catalogue words) [p]
          [s.draft.words ++ [word]] := .cons hspelled .nil
      refine ⟨trivial, ⟨operands ++ [s.draft.words ++ [word]], ?_, ?_⟩, ?_⟩
      · simp [← hwords, Draft.words, Item.word?]
      · simpa [Progress.propositions, Expression.propositions] using List.rel_append hderives hp
      · simp only [Progress.propositions, List.reverse_cons, List.flatMap_append,
          List.flatMap_singleton, Expression.propositions, List.length_append, List.length_cons,
          List.length_nil, Item.symbol?, Option.toList, List.append_nil] at hcount ⊢
        omega
  | symbol c =>
    obtain ⟨right, left, rest, rfl, rfl⟩ := exists_of_push_symbol hpush
    refine ⟨trivial, ⟨operands, by simpa [Item.word?] using hwords, ?_⟩, ?_⟩
    · simpa [Progress.propositions, Expression.propositions] using hderives
    · have harity : (Symbol.fixity c).arity = 2 := by cases c <;> rfl
      simp only [Progress.propositions, List.reverse_cons, List.flatMap_append,
        List.flatMap_singleton, Expression.propositions, List.length_append, List.length_cons,
        Item.symbol?, Option.toList, used_append, used_cons, used_nil, harity] at hcount ⊢
      omega

theorem Spells.run {words : List String} {connectives : List Connective}
    {items : List (Item Connective)} (h : s.Spells catalogue words connectives)
    (hname : ∀ word ∈ items.filterMap Item.word?, IsName word)
    (hrun : items.foldlM (Progress.push catalogue) s = .ok t) :
    t.Spells catalogue (words ++ items.filterMap Item.word?)
      (connectives ++ items.filterMap Item.symbol?) := by
  induction items generalizing s words connectives with
  | nil =>
    cases hrun
    simpa using h
  | cons item items ih =>
    rw [List.foldlM_cons] at hrun
    obtain ⟨next, hpush, hrest⟩ := exists_of_bind_eq_ok hrun
    have hitem : ∀ word ∈ item.word?, IsName word := fun word hword =>
      hname word (List.mem_filterMap.mpr ⟨item, List.mem_cons_self .., hword⟩)
    have hitems : ∀ word ∈ items.filterMap Item.word?, IsName word := by
      intro word hword
      obtain ⟨other, hother, hword⟩ := List.mem_filterMap.mp hword
      exact hname word (List.mem_filterMap.mpr ⟨other, List.mem_cons_of_mem _ hother, hword⟩)
    have hspells := ih (h.push hitem hpush) hitems hrest
    rw [List.append_assoc, List.append_assoc] at hspells
    cases item <;> simpa [Item.word?, Item.symbol?, List.filterMap_cons] using hspells

end Progress

/-! ### The whole text -/

/-- A text has an expression if its tokens have a postfix order that leaves just that one. -/
theorem parse_eq_ok_iff {text : String} {e : Expression α} :
    parse catalogue text = .ok e ↔ ∃ items,
      toPostfix Connective.ofText? text (tokens text) = .ok items ∧
      items.foldlM (Progress.push catalogue) {} = .ok ⟨[e], .start⟩ := by
  constructor
  · intro h
    simp only [parse] at h
    split at h
    · cases h
    · obtain ⟨items, hitems, h⟩ := exists_of_bind_eq_ok h
      obtain ⟨s, hrun, h⟩ := exists_of_bind_eq_ok h
      split at h
      · cases h
      · next hstart =>
        split at h <;> cases h
        next hexpressions =>
        obtain ⟨expressions, draft⟩ := s
        obtain rfl := Draft.eq_start_of_isStart (by simpa using hstart)
        obtain rfl : expressions = [e] := hexpressions
        exact ⟨items, hitems, hrun⟩
  · rintro ⟨items, hitems, hrun⟩
    have hnonempty : tokens text ≠ [] := by
      intro htokens
      rw [htokens] at hitems
      cases hitems
      cases hrun
    simp only [parse, hnonempty, hitems, hrun, if_false, bind, Except.bind]
    rfl

/-- The postfix order of a derived text leaves the derived expression. -/
theorem Derives.exists_run {text : String} {e : Expression α}
    (h : Derives catalogue .disjunction (words text) e) :
    ∃ items, toPostfix Connective.ofText? text (tokens text) = .ok items ∧
      items.foldlM (Progress.push catalogue) {} = .ok ⟨[e], .start⟩ := by
  obtain ⟨items, hphrase, hbuilds⟩ := h.exists_items
  exact ⟨items, (hphrase none none (Level.fits_none _)).toPostfix text, hbuilds []⟩

/-- The propositions of an expression spell the names of its text in their order, and there is one
more of them than connectives in the postfix order. -/
theorem exists_operands {text : String} {e : Expression α} {items : List (Item Connective)}
    (hitems : toPostfix Connective.ofText? text (tokens text) = .ok items)
    (hrun : items.foldlM (Progress.push catalogue) {} = .ok ⟨[e], .start⟩) :
    (∃ operands : List (List String), operands.flatten = names text ∧
      e.propositions.Forall₂ (fun p words => p.Derives catalogue words) operands) ∧
    (e.propositions.length : Int) = 1 + used (items.filterMap Item.symbol?) := by
  have hwords : items.filterMap Item.word? = names text := (toPostfix_contents hitems).1
  have hname : ∀ word ∈ items.filterMap Item.word?, IsName word := by
    intro word hword
    rw [hwords] at hword
    exact isName_of_mem_names hword
  have hempty : ({} : Progress α).Spells catalogue [] [] := ⟨trivial, ⟨[], rfl, .nil⟩, rfl⟩
  obtain ⟨-, ⟨operands, hflatten, hderives⟩, hcount⟩ := hempty.run hname hrun
  refine ⟨⟨operands, ?_, ?_⟩, ?_⟩
  · simpa [Draft.words, hwords] using hflatten
  · simpa [Progress.propositions] using hderives
  · simpa [Progress.propositions] using hcount

end Expression

end FuzzyInference
