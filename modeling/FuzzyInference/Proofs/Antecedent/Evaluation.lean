import FuzzyInference.Proofs.Proposition.WellFormed

/-!
Evaluating antecedents. What the degree of an expression is built from is a relation, with one rule
for each kind of leaf and one for each connective. An expression that has been read from a text has
such a degree unless a combinator is missing for one of its connectives; the error then is that of
the first of these, however deep it stands and whatever the degrees around it.
-/
namespace FuzzyInference

variable {α κ : Type}

/-- The connectives of an expression, each before those of its operands. -/
def Expression.connectives : Expression α → List Connective
  | proposition _ => []
  | combination connective left right => connective :: (left.connectives ++ right.connectives)

/-- The combinator that a connective stands for. -/
def Connective.combinator : Connective → Combinator
  | and => .conjunction
  | or => .disjunction

/-- There is no operator for the connective. -/
def Combinators.lacks (cs : Combinators α) : Connective → Bool
  | .and => cs.conjunction.isNone
  | .or => cs.disjunction.isNone

theorem Combinators.exists_conjunction {cs : Combinators α} (h : cs.lacks .and = false) :
    ∃ norm, cs.conjunction = some norm :=
  Option.isSome_iff_exists.mp (by simpa [lacks] using h)

theorem Combinators.exists_disjunction {cs : Combinators α} (h : cs.lacks .or = false) :
    ∃ norm, cs.disjunction = some norm :=
  Option.isSome_iff_exists.mp (by simpa [lacks] using h)

variable [Scalar α] [Catalogue κ α]

/-- The degrees of a proposition: that of its variable and term after the hedges. -/
inductive Proposition.Evaluates (ε : α) (catalogue : κ) (p : Proposition α) : α → Prop
  | disabled (h : Catalogue.isEnabled catalogue p.subject.id = false) :
      Evaluates ε catalogue p Scalar.zero
  | any (h : Catalogue.isEnabled catalogue p.subject.id = true) (hany : p.endsWithAny = true) :
      Evaluates ε catalogue p (p.applyHedges ε Scalar.undefined)
  | input {term : Reference TermId} (h : Catalogue.isEnabled catalogue p.subject.id = true)
      (hany : p.endsWithAny = false) (hterm : p.term = some term)
      (hrole : p.subject.id.role = .input) :
      Evaluates ε catalogue p
        (p.applyHedges ε (Catalogue.membership catalogue p.subject.id term.id))
  | output {term : Reference TermId} (h : Catalogue.isEnabled catalogue p.subject.id = true)
      (hany : p.endsWithAny = false) (hterm : p.term = some term)
      (hrole : p.subject.id.role = .output) :
      Evaluates ε catalogue p
        (p.applyHedges ε (Catalogue.activationDegree ε catalogue p.subject.id term.id))

/-- The degrees of an expression: the operator of each connective applied to the degrees of the left
and of the right operand. -/
inductive Expression.Evaluates (ε : α) (cs : Combinators α) (catalogue : κ) :
    Expression α → α → Prop
  | proposition {p : Proposition α} {x : α} (h : p.Evaluates ε catalogue x) :
      Evaluates ε cs catalogue (.proposition p) x
  | and {left right : Expression α} {norm : TNorm α} {x y : α}
      (hnorm : cs.conjunction = some norm) (hleft : Evaluates ε cs catalogue left x)
      (hright : Evaluates ε cs catalogue right y) :
      Evaluates ε cs catalogue (.combination .and left right) (norm.compute ε x y)
  | or {left right : Expression α} {norm : SNorm α} {x y : α}
      (hnorm : cs.disjunction = some norm) (hleft : Evaluates ε cs catalogue left x)
      (hright : Evaluates ε cs catalogue right y) :
      Evaluates ε cs catalogue (.combination .or left right) (norm.compute ε x y)

/-! ### Propositions -/

namespace Proposition

variable {ε : α} {catalogue : κ} {p : Proposition α} {x : α}

theorem Evaluates.degree (h : p.Evaluates ε catalogue x) : p.degree ε catalogue = .ok x := by
  cases h with
  | disabled h => simp [Proposition.degree, h]
  | any h hany => simp [Proposition.degree, h, hany]
  | input h hany hterm hrole => simp [Proposition.degree, h, hany, hterm, hrole]
  | output h hany hterm hrole => simp [Proposition.degree, h, hany, hterm, hrole]

/-- A proposition always has a degree, unless neither `any` nor a term ends it. -/
theorem IsWellFormed.exists_evaluates (h : p.IsWellFormed) (ε : α) (catalogue : κ) :
    ∃ x, p.Evaluates ε catalogue x := by
  by_cases henabled : Catalogue.isEnabled catalogue p.subject.id = true
  · by_cases hany : p.endsWithAny = true
    · exact ⟨_, .any henabled hany⟩
    · obtain ⟨term, hterm⟩ := Option.isSome_iff_exists.mp (h.endsWithAny_or.resolve_left hany)
      have hany : p.endsWithAny = false := by simpa using hany
      cases hrole : p.subject.id.role with
      | input => exact ⟨_, .input henabled hany hterm hrole⟩
      | output => exact ⟨_, .output henabled hany hterm hrole⟩
  · exact ⟨_, .disabled (by simpa using henabled)⟩

end Proposition

/-! ### Expressions -/

namespace Expression

variable {ε : α} {cs : Combinators α} {catalogue : κ} {e : Expression α} {x : α}

theorem Evaluates.degree (h : e.Evaluates ε cs catalogue x) : e.degree ε cs catalogue = .ok x := by
  induction h with
  | proposition h => exact h.degree
  | and hnorm _ _ ihleft ihright =>
    rw [Expression.degree, hnorm, ihleft, ihright]
    rfl
  | or hnorm _ _ ihleft ihright =>
    rw [Expression.degree, hnorm, ihleft, ihright]
    rfl

omit [Scalar α] in
theorem find?_connectives_combination (c : Connective) (left right : Expression α) :
    (combination c left right).connectives.find? cs.lacks =
      if cs.lacks c then some c
      else (left.connectives.find? cs.lacks).or (right.connectives.find? cs.lacks) := by
  rw [connectives, List.find?_cons, List.find?_append]
  cases cs.lacks c <;> rfl

theorem degree_combination_of_lacks {c : Connective} (h : cs.lacks c = true)
    (left right : Expression α) :
    (combination c left right).degree ε cs catalogue =
      .error (.missingCombinator c.combinator) := by
  cases c with
  | and =>
    have hnone : cs.conjunction = none := Option.isNone_iff_eq_none.mp h
    rw [Expression.degree, hnone]
    rfl
  | or =>
    have hnone : cs.disjunction = none := Option.isNone_iff_eq_none.mp h
    rw [Expression.degree, hnone]
    rfl

/-- Where the operator is there, the first operand with an error decides. -/
theorem degree_combination_of_error {c : Connective} (h : cs.lacks c = false)
    {left right : Expression α} {cause : Error}
    (herror : left.degree ε cs catalogue = .error cause ∨
      ∃ y, left.degree ε cs catalogue = .ok y ∧ right.degree ε cs catalogue = .error cause) :
    (combination c left right).degree ε cs catalogue = .error cause := by
  cases c with
  | and =>
    obtain ⟨norm, hnorm⟩ := Combinators.exists_conjunction h
    obtain hleft | ⟨y, hleft, hright⟩ := herror
    · rw [Expression.degree, hnorm, hleft]
      rfl
    · rw [Expression.degree, hnorm, hleft, hright]
      rfl
  | or =>
    obtain ⟨norm, hnorm⟩ := Combinators.exists_disjunction h
    obtain hleft | ⟨y, hleft, hright⟩ := herror
    · rw [Expression.degree, hnorm, hleft]
      rfl
    · rw [Expression.degree, hnorm, hleft, hright]
      rfl

theorem Evaluates.exists_combination {c : Connective} (h : cs.lacks c = false)
    {left right : Expression α} {x y : α} (hleft : left.Evaluates ε cs catalogue x)
    (hright : right.Evaluates ε cs catalogue y) :
    ∃ z, (combination c left right).Evaluates ε cs catalogue z := by
  cases c with
  | and =>
    obtain ⟨norm, hnorm⟩ := Combinators.exists_conjunction h
    exact ⟨_, .and hnorm hleft hright⟩
  | or =>
    obtain ⟨norm, hnorm⟩ := Combinators.exists_disjunction h
    exact ⟨_, .or hnorm hleft hright⟩

/-- Either all operators are there and the expression has a degree, or the first connective without
an operator makes the error. -/
theorem degree_cases (hpropositions : ∀ p ∈ e.propositions, p.IsWellFormed) (ε : α)
    (cs : Combinators α) (catalogue : κ) :
    (e.connectives.find? cs.lacks = none ∧ ∃ x, e.Evaluates ε cs catalogue x) ∨
    ∃ c, e.connectives.find? cs.lacks = some c ∧
      e.degree ε cs catalogue = .error (.missingCombinator c.combinator) := by
  induction e with
  | proposition p =>
    have hp := hpropositions p (List.mem_singleton_self p)
    obtain ⟨x, hx⟩ := hp.exists_evaluates ε catalogue
    exact .inl ⟨rfl, x, .proposition hx⟩
  | combination c left right ihleft ihright =>
    obtain ⟨hpleft, hpright⟩ := List.forall_mem_append.mp hpropositions
    rw [find?_connectives_combination]
    by_cases hlacks : cs.lacks c = true
    · exact .inr ⟨c, if_pos hlacks, degree_combination_of_lacks hlacks left right⟩
    · rw [if_neg hlacks]
      have hlacks : cs.lacks c = false := by simpa using hlacks
      obtain ⟨hnone, x, hx⟩ | ⟨missing, hsome, hleft⟩ := ihleft hpleft
      · rw [hnone, Option.none_or]
        obtain ⟨hnone', y, hy⟩ | ⟨missing, hsome, hright⟩ := ihright hpright
        · exact .inl ⟨hnone', hx.exists_combination hlacks hy⟩
        · refine .inr ⟨missing, hsome, degree_combination_of_error hlacks ?_⟩
          exact .inr ⟨x, hx.degree, hright⟩
      · rw [hsome, Option.some_or]
        exact .inr ⟨missing, rfl, degree_combination_of_error hlacks (.inl hleft)⟩

theorem degree_eq_ok_iff (hpropositions : ∀ p ∈ e.propositions, p.IsWellFormed) :
    e.degree ε cs catalogue = .ok x ↔ e.Evaluates ε cs catalogue x := by
  constructor
  · intro hdegree
    obtain ⟨-, y, hy⟩ | ⟨c, -, herror⟩ := degree_cases hpropositions ε cs catalogue
    · rw [hy.degree] at hdegree
      cases hdegree
      exact hy
    · rw [herror] at hdegree
      cases hdegree
  · exact Evaluates.degree

theorem degree_eq_error_iff (hpropositions : ∀ p ∈ e.propositions, p.IsWellFormed)
    {cause : Error} :
    e.degree ε cs catalogue = .error cause ↔
      ∃ c, e.connectives.find? cs.lacks = some c ∧ cause = .missingCombinator c.combinator := by
  obtain ⟨hnone, x, hx⟩ | ⟨c, hsome, herror⟩ := degree_cases hpropositions ε cs catalogue
  · simp [hnone, hx.degree]
  · simp [hsome, herror, eq_comm]

omit [Scalar α] in
theorem exists_lacks_iff :
    (∃ c, e.connectives.find? cs.lacks = some c) ↔
      .and ∈ e.connectives ∧ cs.conjunction = none ∨
        .or ∈ e.connectives ∧ cs.disjunction = none := by
  rw [← Option.isSome_iff_exists, List.find?_isSome]
  constructor
  · rintro ⟨c, hmem, hlacks⟩
    cases c with
    | and => exact .inl ⟨hmem, Option.isNone_iff_eq_none.mp hlacks⟩
    | or => exact .inr ⟨hmem, Option.isNone_iff_eq_none.mp hlacks⟩
  · rintro (⟨hmem, hnone⟩ | ⟨hmem, hnone⟩)
    · exact ⟨.and, hmem, Option.isNone_iff_eq_none.mpr hnone⟩
    · exact ⟨.or, hmem, Option.isNone_iff_eq_none.mpr hnone⟩

end Expression

/-! ### Antecedents -/

namespace Antecedent

variable {κ' : Type} [Catalogue κ' α]

/-- The degree of an antecedent that has been loaded can only be missing because an operator is, and
then the first connective without one is named. Whatever catalogue it is evaluated in, an antecedent
whose connectives all have operators has the degree that its leaves give. -/
theorem degree_of_load {catalogue : κ} {a loaded : Antecedent α}
    (hload : a.load catalogue = .ok loaded) (ε : α) (cs : Combinators α) (catalogue' : κ') :
    ∃ e, Expression.parse catalogue a.text = .ok e ∧ loaded.expression = some e ∧
      ((∃ cause, loaded.degree ε cs catalogue' = .error cause) ↔
        .and ∈ e.connectives ∧ cs.conjunction = none ∨
          .or ∈ e.connectives ∧ cs.disjunction = none) ∧
      (∀ cause, loaded.degree ε cs catalogue' = .error cause ↔
        ∃ c, e.connectives.find? cs.lacks = some c ∧ cause = .missingCombinator c.combinator) ∧
      ∀ x, loaded.degree ε cs catalogue' = .ok x ↔ e.Evaluates ε cs catalogue' x := by
  obtain ⟨e, hparse, hloaded⟩ := exists_of_bind_eq_ok hload
  cases hloaded
  have hpropositions : ∀ p ∈ e.propositions, p.IsWellFormed := by
    intro p hp
    obtain ⟨words, hderives, -⟩ := Expression.exists_words_of_mem_propositions hparse hp
    exact hderives.isWellFormed
  have herror : ∀ cause, e.degree ε cs catalogue' = .error cause ↔
      ∃ c, e.connectives.find? cs.lacks = some c ∧ cause = .missingCombinator c.combinator :=
    fun _ => Expression.degree_eq_error_iff hpropositions
  refine ⟨e, hparse, rfl, ?_, herror, fun x => Expression.degree_eq_ok_iff hpropositions⟩
  rw [← Expression.exists_lacks_iff]
  constructor
  · rintro ⟨cause, hcause⟩
    obtain ⟨c, hfind, -⟩ := (herror cause).mp hcause
    exact ⟨c, hfind⟩
  · rintro ⟨c, hfind⟩
    exact ⟨_, (herror _).mpr ⟨c, hfind, rfl⟩⟩

open Expression (weather windIsWeak skyIsAny)

def weakOrBothExpression : Expression Float :=
  .combination .or (.proposition windIsWeak)
    (.combination .and (.proposition skyIsAny) (.proposition windIsWeak))

def weakOrBoth : Antecedent Float :=
  ⟨"wind is weak or sky is any and wind is weak", some weakOrBothExpression⟩

theorem load_weakOrBoth : weakOrBoth.unload.load weather = .ok weakOrBoth := by
  have hwords : Expression.words weakOrBoth.text =
      ["wind", "is", "weak", "or", "sky", "is", "any", "and", "wind", "is", "weak"] := by cbv
  have hwind := Expression.Derives.proposition Expression.derives_windIsWeak
  have hsky := Expression.Derives.proposition Expression.derives_skyIsAny
  have hderives : Expression.Derives weather .disjunction (Expression.words weakOrBoth.text)
      weakOrBothExpression := by
    rw [hwords]
    exact .or (.primary hwind) (.conjunction (.and hsky (.primary hwind)))
  have hparse := Expression.parse_eq_ok_iff.mpr hderives.exists_run
  have htext : weakOrBoth.unload.text = weakOrBoth.text := rfl
  rw [load, htext, hparse]
  rfl

/-- The disjunction stands outermost, so it is the first to be missed. -/
theorem degree_of_load_weakOrBoth :
    weakOrBoth.degree Binary64.defaultTolerance {} weather =
        .error (.missingCombinator .disjunction) ∧
      weakOrBoth.degree Binary64.defaultTolerance { disjunction := some .maximum } weather =
        .error (.missingCombinator .conjunction) ∧
      weakOrBoth.degree Binary64.defaultTolerance
          { conjunction := some .minimum, disjunction := some .maximum } weather =
        .ok (SNorm.maximum.compute Binary64.defaultTolerance (weather.membership ⟨.input, 0⟩ ⟨0⟩)
          (TNorm.minimum.compute Binary64.defaultTolerance
            (Hedge.any.apply Binary64.defaultTolerance Scalar.undefined)
            (weather.membership ⟨.input, 0⟩ ⟨0⟩))) := by
  generalize Binary64.defaultTolerance = ε
  obtain ⟨_, -, he, -, hmissing, -⟩ := degree_of_load load_weakOrBoth ε {} weather
  cases he
  obtain ⟨_, -, he, -, hhalf, -⟩ :=
    degree_of_load load_weakOrBoth ε { disjunction := some .maximum } weather
  cases he
  obtain ⟨_, -, he, -, -, hfull⟩ := degree_of_load load_weakOrBoth ε
    { conjunction := some .minimum, disjunction := some .maximum } weather
  cases he
  have hterm : windIsWeak.term = some ⟨⟨0⟩, "weak"⟩ := rfl
  have hweak : windIsWeak.Evaluates ε weather (weather.membership ⟨.input, 0⟩ ⟨0⟩) :=
    .input rfl rfl hterm rfl
  have hany : skyIsAny.Evaluates ε weather (Hedge.any.apply ε Scalar.undefined) := .any rfl rfl
  refine ⟨(hmissing _).mpr ⟨.or, rfl, rfl⟩, (hhalf _).mpr ⟨.and, rfl, rfl⟩, (hfull _).mpr ?_⟩
  exact .or rfl (.proposition hweak) (.and rfl (.proposition hany) (.proposition hweak))

end Antecedent

end FuzzyInference
