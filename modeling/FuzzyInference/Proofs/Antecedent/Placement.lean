import FuzzyInference.Proofs.Antecedent.Reading

/-!
Which texts have an expression. A text that the grammar derives is read, and a text that is read is
derived if propositions stand wherever one is due. The reader itself only sees the words, which have
to spell as many propositions as the connectives combine; where the connectives stand among these
words it does not see.
-/
namespace FuzzyInference

open Infix

variable {α κ : Type} [Catalogue κ α] {catalogue : κ}

/-- The words are those of a proposition. -/
def IsProposition (catalogue : κ) (words : List String) : Prop :=
  ∃ p : Proposition α, p.Derives catalogue words

theorem IsProposition.ne_nil {words : List String} (h : IsProposition catalogue words) :
    words ≠ [] := by
  rintro rfl
  obtain ⟨p, hp⟩ := h
  nomatch hp

theorem isProposition_of_forall₂ {ps : List (Proposition α)} {operands : List (List String)}
    (h : ps.Forall₂ (fun p words => p.Derives catalogue words) operands) :
    ∀ words ∈ operands, IsProposition catalogue words := by
  induction h with
  | nil => simp
  | cons hp _ ih => exact List.forall_mem_cons.mpr ⟨⟨_, hp⟩, ih⟩

namespace Expression

/-! ### From the grammar to the tokens -/

/-- A derived phrase is well formed. -/
theorem Derives.wellFormed_tokens {level : Level} {words : List String} {e : Expression α}
    (h : Derives catalogue level words e) :
    WellFormed Connective.ofText? (IsProposition catalogue) .operand (words.map token) := by
  induction h with
  | @proposition words p hp =>
    rw [hp.map_token]
    exact .words ⟨p, hp⟩
  | group _ ih => simpa [token] using WellFormed.group ih
  | primary _ ih => exact ih
  | and _ _ ih ih' =>
    rw [List.map_append, List.map_cons, token_connective]
    exact .binary (Connective.ofText?_text .and) rfl ih ih'
  | conjunction _ ih => exact ih
  | or _ _ ih ih' =>
    rw [List.map_append, List.map_cons, token_connective]
    exact .binary (Connective.ofText?_text .or) rfl ih ih'

/-! ### From the tokens to the grammar -/

/-- The words have an expression as a phrase of the level. -/
def IsPhrase (catalogue : κ) (level : Level) (words : List String) : Prop :=
  ∃ e : Expression α, Derives catalogue level words e

theorem IsPhrase.or {words words' : List String} (h : IsPhrase catalogue .disjunction words)
    (h' : IsPhrase catalogue .disjunction words') :
    IsPhrase catalogue .disjunction (words ++ Connective.or.text :: words') := by
  obtain ⟨e, h⟩ := h
  obtain ⟨e', h'⟩ := h'
  generalize hlevel : Level.disjunction = level at h
  induction h with
  | conjunction h => exact ⟨_, .or h h'⟩
  | or h _ _ ih =>
    obtain ⟨e'', ih⟩ := ih rfl
    rw [List.append_assoc, List.cons_append]
    exact ⟨_, .or h ih⟩
  | _ => cases hlevel

/-- In front of another conjunction. -/
theorem IsPhrase.and_conjunction {words words' : List String}
    (h : IsPhrase catalogue .conjunction words) (h' : IsPhrase catalogue .conjunction words') :
    IsPhrase catalogue .conjunction (words ++ Connective.and.text :: words') := by
  obtain ⟨e, h⟩ := h
  obtain ⟨e', h'⟩ := h'
  generalize hlevel : Level.conjunction = level at h
  induction h with
  | primary h => exact ⟨_, .and h h'⟩
  | and h _ _ ih =>
    obtain ⟨e'', ih⟩ := ih rfl
    rw [List.append_assoc, List.cons_append]
    exact ⟨_, .and h ih⟩
  | _ => cases hlevel

/-- The last conjunction on the left and the first one on the right become one. -/
theorem IsPhrase.and {words words' : List String} (h : IsPhrase catalogue .disjunction words)
    (h' : IsPhrase catalogue .disjunction words') :
    IsPhrase catalogue .disjunction (words ++ Connective.and.text :: words') := by
  obtain ⟨e, h⟩ := h
  generalize hlevel : Level.disjunction = level at h
  induction h with
  | conjunction h =>
    obtain ⟨e', h'⟩ := h'
    cases h' with
    | conjunction h' =>
      obtain ⟨e'', hand⟩ := IsPhrase.and_conjunction ⟨_, h⟩ ⟨_, h'⟩
      exact ⟨_, .conjunction hand⟩
    | or h' hrest =>
      obtain ⟨e'', hand⟩ := IsPhrase.and_conjunction ⟨_, h⟩ ⟨_, h'⟩
      rw [← List.cons_append, ← List.append_assoc]
      exact ⟨_, .or hand hrest⟩
  | or h _ _ ih =>
    obtain ⟨e'', ih⟩ := ih rfl
    rw [List.append_assoc, List.cons_append]
    exact ⟨_, .or h ih⟩
  | _ => cases hlevel

theorem IsPhrase.group {words : List String} (h : IsPhrase catalogue .disjunction words) :
    IsPhrase catalogue .disjunction ("(" :: words ++ [")"]) := by
  obtain ⟨e, h⟩ := h
  exact ⟨e, .conjunction (.primary (.group h))⟩

theorem token_ne_function (word name : String) : token word ≠ .function name := by
  unfold token
  split
  · simp
  · split
    · simp
    · split <;> simp

theorem function_notMem_tokens (text name : String) : .function name ∉ tokens text := by
  intro hname
  obtain ⟨word, -, hword⟩ := List.mem_map.mp hname
  exact token_ne_function word name hword

theorem text_of_ofText? {symbol : String} {c : Connective}
    (h : Connective.ofText? symbol = some c) : symbol = c.text := by
  unfold Connective.ofText? at h
  split at h <;> cases h <;> rfl

theorem arity_connective (c : Connective) : (Symbol.fixity c).arity = 2 := by cases c <;> rfl

/-- Well-formed tokens are those of a disjunction. The precedence of the connectives finds a place
for each of them. -/
theorem isPhrase_of_wellFormed {part : Part} {tokens : List Token}
    (h : WellFormed Connective.ofText? (IsProposition catalogue) part tokens)
    (hpart : part = .operand) (htokens : ∀ t ∈ tokens, token t.text = t) :
    IsPhrase catalogue .disjunction (tokens.map Token.text) := by
  induction h with
  | @words words h =>
    obtain ⟨p, hp⟩ := h
    have hwords : (words.map Token.operand).map Token.text = words := by
      simp [Function.comp_def, Token.text]
    rw [hwords]
    exact ⟨_, .conjunction (.primary (.proposition hp))⟩
  | @group tokens _ ih =>
    simp only [List.cons_append, List.forall_mem_cons, List.forall_mem_append] at htokens
    simpa [Token.text] using (ih rfl htokens.2.1).group
  | @call name _ _ _ _ _ =>
    exact absurd (htokens (.function name) (by simp)) (token_ne_function _ _)
  | @unary symbol o _ _ harity _ _ =>
    rw [arity_connective] at harity
    cases harity
  | @binary symbol o tokens tokens' ho _ _ _ ih ih' =>
    simp only [List.forall_mem_append, List.forall_mem_cons] at htokens
    have h := ih rfl htokens.1
    have h' := ih' rfl htokens.2.2
    obtain rfl := text_of_ofText? ho
    rw [List.map_append, List.map_cons]
    cases o with
    | and => exact h.and h'
    | or => exact h.or h'
  | argument _ _ => cases hpart
  | comma _ _ _ _ => cases hpart

theorem text_token (word : String) : (token word).text = word := by
  unfold token
  split
  · next h => exact h.symm
  · split
    · next h => exact h.symm
    · split <;> rfl

theorem map_text_tokens (text : String) : (tokens text).map Token.text = words text := by
  simp [tokens, words, Function.comp_def, text_token]

/-! ### Dividing words into propositions -/

theorem foldlM_push_operands {operands : List (List String)}
    (h : ∀ words ∈ operands, IsProposition catalogue words) (stack : List (Expression α)) :
    ∃ es : List (Expression α), es.length = operands.length ∧
      (operands.flatten.map Item.operand).foldlM (Progress.push catalogue) ⟨stack, .start⟩ =
        .ok ⟨es ++ stack, .start⟩ := by
  induction operands generalizing stack with
  | nil => exact ⟨[], rfl, rfl⟩
  | cons words operands ih =>
    obtain ⟨⟨p, hp⟩, hoperands⟩ := List.forall_mem_cons.mp h
    obtain ⟨es, hlength, hrun⟩ := ih hoperands (.proposition p :: stack)
    refine ⟨es ++ [.proposition p], by simp [hlength], ?_⟩
    rw [List.flatten_cons, List.map_append, List.foldlM_append, builds_proposition hp stack]
    change (operands.flatten.map Item.operand).foldlM (Progress.push catalogue)
      ⟨.proposition p :: stack, .start⟩ = _
    rw [hrun]
    simp

/-- Words are those of one number of propositions only. -/
theorem length_eq_of_flatten_eq {operands operands' : List (List String)}
    (h : ∀ words ∈ operands, IsProposition catalogue words)
    (h' : ∀ words ∈ operands', IsProposition catalogue words)
    (hflatten : operands.flatten = operands'.flatten) : operands.length = operands'.length := by
  obtain ⟨es, hlength, hrun⟩ := foldlM_push_operands h []
  obtain ⟨es', hlength', hrun'⟩ := foldlM_push_operands h' []
  rw [hflatten, hrun'] at hrun
  obtain rfl : es' = es := by simpa using hrun
  rw [← hlength, hlength']

/-- The words of a text with an expression can be divided into propositions in no more parts than
its connectives combine. -/
theorem length_of_operands {text : String} {e : Expression α} {items : List (Item Connective)}
    (hitems : toPostfix Connective.ofText? text (tokens text) = .ok items)
    (hrun : items.foldlM (Progress.push catalogue) {} = .ok ⟨[e], .start⟩)
    {operands : List (List String)} (h : ∀ words ∈ operands, IsProposition catalogue words)
    (hflatten : operands.flatten = items.filterMap Item.word?) :
    (operands.length : Int) = 1 + used (items.filterMap Item.symbol?) := by
  obtain ⟨⟨operands', hflatten', hderives⟩, hcount⟩ := exists_operands hitems hrun
  have hwords : items.filterMap Item.word? = names text := (toPostfix_contents hitems).1
  have hlength := length_eq_of_flatten_eq h (isProposition_of_forall₂ hderives)
    (hflatten.trans (hwords.trans hflatten'.symm))
  rw [hlength, ← hderives.length_eq, hcount]

/-! ### The texts that are read -/

/-- A text is derived by the grammar, with an expression, exactly if it is read as that expression
and has a proposition wherever one is due. -/
theorem derives_iff_supplied (catalogue : κ) (text : String) (e : Expression α) :
    Derives catalogue .disjunction (words text) e ↔
      parse catalogue text = .ok e ∧
        Supplied Connective.ofText? (IsProposition catalogue) true (tokens text) := by
  have hread : ∀ {e : Expression α}, Derives catalogue .disjunction (words text) e →
      parse catalogue text = .ok e := fun h => parse_eq_ok_iff.mpr h.exists_run
  constructor
  · exact fun h => ⟨hread h, h.wellFormed_tokens.supplied⟩
  · rintro ⟨hparse, hsupplied⟩
    obtain ⟨items, hitems, hrun⟩ := parse_eq_ok_iff.mp hparse
    have hformed : WellFormed Connective.ofText? (IsProposition catalogue) .operand (tokens text) :=
      wellFormed_of_toPostfix (fun _ => IsProposition.ne_nil) hsupplied hitems
        fun operands hoperands hflatten =>
          Int.le_of_eq (length_of_operands hitems hrun hoperands hflatten)
    have htokens : ∀ t ∈ tokens text, token t.text = t := by
      intro t ht
      obtain ⟨word, -, rfl⟩ := List.mem_map.mp ht
      rw [text_token]
    obtain ⟨e', he'⟩ := isPhrase_of_wellFormed hformed rfl htokens
    rw [map_text_tokens] at he'
    -- The text is read as both expressions.
    obtain rfl : e' = e := Except.ok.inj ((hread he').symm.trans hparse)
    exact he'

def skyIsDark : Proposition Float := ⟨⟨⟨.input, 1⟩, "sky"⟩, [], some ⟨⟨0⟩, "dark"⟩⟩

/-- A connective behind both of its operands combines them as well. -/
theorem not_derives_trailing :
    parse weather "wind is weak sky is dark and" =
      .ok (.combination .and (.proposition windIsWeak) (.proposition skyIsDark)) ∧
    ∀ e, ¬ Derives weather .disjunction (words "wind is weak sky is dark and") e := by
  have htokens : tokens "wind is weak sky is dark and" =
      ["wind", "is", "weak"].map .operand ++ ["sky", "is", "dark"].map .operand ++
        [.operator "and"] := by cbv
  have hsky : skyIsDark.Derives weather ("sky" :: "is" :: [] ++ ["dark"]) :=
    .term (by decide) rfl .nil (by decide) rfl rfl
  constructor
  · have hbuilds := (builds_proposition derives_windIsWeak).combination (builds_proposition hsky) .and
    refine parse_eq_ok_iff.mpr ⟨_, ?_, hbuilds []⟩
    rw [htokens]
    rfl
  · intro e h
    have hplaced := h.wellFormed_tokens.supplied.placed fun _ => IsProposition.ne_nil
    change placed _ true (tokens "wind is weak sky is dark and") = true at hplaced
    rw [htokens] at hplaced
    exact absurd hplaced (by decide)

end Expression

end FuzzyInference
