import Mathlib.Analysis.Real.Sqrt
import FuzzyInference.Proofs.Antecedent.Evaluation
import FuzzyInference.Proofs.Exact.Unit
import FuzzyInference.Proofs.Loading.Handles

/-!
Degrees of antecedents over exact numbers. If the variables that an antecedent refers to hold finite
values, proper terms and degrees, and its operators are built-in, then its degree is a number in the
unit interval, and no divisor on the way to it is zero. What a text was loaded to can be evaluated
at any time, so the variables may have changed since then, as long as its handles denote the same.
-/
namespace FuzzyInference

open Exact Traced

variable {K : Type} [Field K] [LinearOrder K] [IsStrictOrderedRing K] [SquareRoot K]

/-! ### What is asked of variables and operators -/

/-- The variable has a finite value, and all its terms are proper. -/
structure InputVariable.IsProper (v : InputVariable (Exact K)) : Prop where
  value : ∃ x, v.value = number x
  terms : ∀ t ∈ v.terms, t.shape.IsProper

/-- The variable aggregates degrees by a built-in norm that has a bound. -/
structure OutputVariable.IsProper (v : OutputVariable (Exact K)) : Prop where
  aggregation : ∃ norm ∈ SNorm.builtins, norm ≠ .unboundedSum ∧ v.aggregation = some norm
  entries : ∀ entry ∈ v.entries, entry.degree.IsDegree

/-- The hedges are built-in, and the variable that the proposition refers to is proper, unless it is
disabled. -/
structure Proposition.IsProper (vs : Variables (Exact K)) (p : Proposition (Exact K)) : Prop where
  hedges : ∀ hedge ∈ p.hedges, hedge ∈ Hedge.builtins
  input : p.subject.id.role = .input → ∀ v ∈ vs.inputs[p.subject.id.index]?,
    v.enabled = true → v.IsProper
  output : p.subject.id.role = .output → ∀ v ∈ vs.outputs[p.subject.id.index]?,
    v.enabled = true → v.IsProper

omit [IsStrictOrderedRing K] [SquareRoot K] in
theorem Proposition.IsProper.of_input {vs : Variables (Exact K)} {p : Proposition (Exact K)}
    (hrole : p.subject.id.role = .input) (hhedges : ∀ hedge ∈ p.hedges, hedge ∈ Hedge.builtins)
    (h : ∀ v ∈ vs.inputs[p.subject.id.index]?, v.enabled = true → v.IsProper) : p.IsProper vs where
  hedges := hhedges
  input _ := h
  output houtput := by
    rw [hrole] at houtput
    cases houtput

omit [IsStrictOrderedRing K] [SquareRoot K] in
theorem Proposition.IsProper.of_output {vs : Variables (Exact K)} {p : Proposition (Exact K)}
    (hrole : p.subject.id.role = .output) (hhedges : ∀ hedge ∈ p.hedges, hedge ∈ Hedge.builtins)
    (h : ∀ v ∈ vs.outputs[p.subject.id.index]?, v.enabled = true → v.IsProper) : p.IsProper vs where
  hedges := hhedges
  input hinput := by
    rw [hrole] at hinput
    cases hinput
  output _ := h

/-- For the connectives of the expression there are built-in norms with a bound. -/
structure Combinators.Suit (cs : Combinators (Exact K)) (e : Expression (Exact K)) : Prop where
  conjunction : .and ∈ e.connectives → ∃ norm ∈ TNorm.builtins, cs.conjunction = some norm
  disjunction : .or ∈ e.connectives →
    ∃ norm ∈ SNorm.builtins, norm ≠ .unboundedSum ∧ cs.disjunction = some norm

/-! ### Variables -/

theorem InputVariable.IsProper.hasMembership {v : InputVariable (Exact K)} (hv : v.IsProper)
    {term : TermId} {t : Term (Exact K)} (hterm : v.terms[term.index]? = some t) :
    (v.lifted.membership term).HasDegree := by
  obtain ⟨x, hx⟩ := hv.value
  have hlifted : v.lifted.terms[term.index]? = some t.lifted := by
    rw [lifted, List.getElem?_map, hterm, Option.map_some]
  have hshape := (hv.terms t (List.mem_of_getElem? hterm)).hasDegree x
  rw [InputVariable.membership, hlifted, lifted, hx]
  exact hshape

namespace OutputVariable

theorem hasDegree_foldl {norm : SNorm (Exact K)} (hnorm : norm ∈ SNorm.builtins)
    (hbounded : norm ≠ .unboundedSum) (ε : Exact K) {entries : List (Entry (Exact K))}
    (hentries : ∀ entry ∈ entries, entry.degree.IsDegree) {degree : Traced (Exact K)}
    (hdegree : degree.HasDegree) :
    ((entries.map Entry.lifted).foldl (fun degree entry =>
      norm.watched.compute (plain ε) degree entry.degree) degree).HasDegree := by
  induction entries generalizing degree with
  | nil => exact hdegree
  | cons entry rest ih =>
    obtain ⟨hentry, hrest⟩ := List.forall_mem_cons.mp hentries
    exact ih hrest (SNorm.hasDegree_watched hnorm hbounded hdegree (hasDegree_plain hentry) ε)

theorem IsProper.hasDegree {v : OutputVariable (Exact K)} (hv : v.IsProper) (ε : Exact K)
    (term : TermId) : (v.lifted.activationDegree (plain ε) term).HasDegree := by
  obtain ⟨norm, hnorm, hbounded, haggregation⟩ := hv.aggregation
  have hlifted : v.lifted.aggregation = some norm.watched := by
    rw [lifted, haggregation, Option.map_some]
  have hentries : (v.lifted.entries.filter fun entry => entry.termId = term) =
      (v.entries.filter fun entry => entry.termId = term).map Entry.lifted :=
    List.filter_map
  rw [activationDegree, hlifted, hentries]
  exact hasDegree_foldl hnorm hbounded ε
    (fun entry hentry => hv.entries entry (List.mem_filter.mp hentry).1)
    (hasDegree_plain isDegree_zero)

end OutputVariable

/-! ### Propositions -/

namespace Proposition

variable {vs : Variables (Exact K)} {p : Proposition (Exact K)}

theorem hasDegree_foldr (hroot : SquareRoot.KeepsUnit K) (ε : Exact K)
    {hedges : List (Hedge (Exact K))} (hhedges : ∀ hedge ∈ hedges, hedge ∈ Hedge.builtins)
    {degree : Traced (Exact K)} (hdegree : degree.HasDegree) :
    ((hedges.map Hedge.watched).foldr (fun hedge degree => hedge.apply (plain ε) degree)
      degree).HasDegree := by
  induction hedges with
  | nil => exact hdegree
  | cons hedge rest ih =>
    obtain ⟨hhedge, hrest⟩ := List.forall_mem_cons.mp hhedges
    exact Hedge.hasDegree_watched hroot hhedge (ih hrest) ε

/-- The last hedge turns the undefined degree into one. -/
theorem hasDegree_any (hroot : SquareRoot.KeepsUnit K) (ε : Exact K)
    (hhedges : ∀ hedge ∈ p.hedges, hedge ∈ Hedge.builtins) (hany : p.endsWithAny = true) :
    (p.lifted.applyHedges (plain ε) Scalar.undefined).HasDegree := by
  obtain ⟨last, hlast, hisAny⟩ := (Option.any_eq_true _ _).mp hany
  obtain ⟨front, hfront⟩ := List.getLast?_eq_some_iff.mp hlast
  rw [hfront] at hhedges
  obtain ⟨hfrontHedges, hlastHedge⟩ := List.forall_mem_append.mp hhedges
  have hlastAny : last = .any := by
    have hmem := hlastHedge last (List.mem_singleton_self last)
    simp only [Hedge.builtins, List.mem_cons, List.not_mem_nil, or_false] at hmem
    rcases hmem with rfl | rfl | rfl | rfl | rfl | rfl <;> first | rfl | cases hisAny
  rw [applyHedges, lifted, hfront, List.map_append, List.foldr_append, hlastAny]
  exact hasDegree_foldr hroot ε hfrontHedges (hasDegree_plain isDegree_one)

/-- What the variables give for the term of the proposition. -/
theorem hasDegree_variable (ε : Exact K) (hproper : p.IsProper vs) (hdenotes : p.Denotes vs)
    (henabled : vs.isEnabled p.subject.id = true) {t : Reference TermId} (ht : p.term = some t) :
    (match p.subject.id.role with
      | .input => vs.lifted.membership p.subject.id t.id
      | .output => vs.lifted.activationDegree (plain ε) p.subject.id t.id).HasDegree := by
  obtain ⟨terms, hvariable, hterm⟩ := hdenotes
  unfold Variables.denoted? at hvariable
  unfold Variables.isEnabled at henabled
  unfold Variables.membership Variables.activationDegree Variables.lifted
  cases hrole : p.subject.id.role with
  | input =>
    simp only [hrole] at hvariable henabled ⊢
    obtain ⟨v, hv, heq⟩ := Option.map_eq_some_iff.mp hvariable
    obtain ⟨-, rfl⟩ := Prod.mk.inj heq
    obtain ⟨term, hget, -⟩ := Option.map_eq_some_iff.mp (hterm t ht)
    rw [hv] at henabled
    rw [List.getElem?_map, hv]
    exact (hproper.input hrole v hv henabled).hasMembership hget
  | output =>
    simp only [hrole] at hvariable henabled ⊢
    obtain ⟨v, hv, -⟩ := Option.map_eq_some_iff.mp hvariable
    rw [hv] at henabled
    rw [List.getElem?_map, hv]
    exact (hproper.output hrole v hv henabled).hasDegree ε t.id

theorem hasDegree_degree (hroot : SquareRoot.KeepsUnit K) (ε : Exact K) (hproper : p.IsProper vs)
    (hdenotes : p.Denotes vs) (hends : p.endsWithAny = true ∨ p.term.isSome = true) :
    ∃ d, p.lifted.degree (plain ε) vs.lifted = .ok d ∧ d.HasDegree := by
  have henabled : Catalogue.isEnabled vs.lifted p.subject.id = vs.isEnabled p.subject.id :=
    vs.isEnabled_lifted p.subject.id
  have hsubject : p.lifted.subject = p.subject := rfl
  have hterm : p.lifted.term = p.term := rfl
  rw [degree, hsubject, hterm, henabled, p.endsWithAny_lifted]
  cases hdisabled : vs.isEnabled p.subject.id with
  | false => exact ⟨_, rfl, hasDegree_plain isDegree_zero⟩
  | true =>
    cases hany : p.endsWithAny with
    | true => exact ⟨_, rfl, hasDegree_any hroot ε hproper.hedges hany⟩
    | false =>
      rw [hany] at hends
      obtain ⟨t, ht⟩ := Option.isSome_iff_exists.mp (hends.resolve_left Bool.false_ne_true)
      rw [ht]
      exact ⟨_, rfl, hasDegree_foldr hroot ε hproper.hedges
        (hasDegree_variable ε hproper hdenotes hdisabled ht)⟩

end Proposition

/-! ### Expressions -/

omit [Field K] [LinearOrder K] [IsStrictOrderedRing K] [SquareRoot K] in
theorem Combinators.Suit.of_subset {cs : Combinators (Exact K)} {e e' : Expression (Exact K)}
    (h : cs.Suit e) (hsubset : e'.connectives ⊆ e.connectives) : cs.Suit e' :=
  ⟨fun hmem => h.conjunction (hsubset hmem), fun hmem => h.disjunction (hsubset hmem)⟩

theorem Expression.hasDegree_degree {cs : Combinators (Exact K)} {vs : Variables (Exact K)}
    (ε : Exact K) {e : Expression (Exact K)} (hcs : cs.Suit e)
    (he : ∀ p ∈ e.propositions, ∃ d, p.lifted.degree (plain ε) vs.lifted = .ok d ∧ d.HasDegree) :
    ∃ d, e.lifted.degree (plain ε) cs.lifted vs.lifted = .ok d ∧ d.HasDegree := by
  induction e with
  | proposition p => exact he p (List.mem_singleton_self p)
  | combination connective left right ihleft ihright =>
    obtain ⟨hleft, hright⟩ := List.forall_mem_append.mp he
    have hcsleft : cs.Suit left :=
      hcs.of_subset fun _ h => List.mem_cons_of_mem _ (List.mem_append_left _ h)
    have hcsright : cs.Suit right :=
      hcs.of_subset fun _ h => List.mem_cons_of_mem _ (List.mem_append_right _ h)
    obtain ⟨a, ha, haDegree⟩ := ihleft hcsleft hleft
    obtain ⟨b, hb, hbDegree⟩ := ihright hcsright hright
    cases connective with
    | and =>
      obtain ⟨norm, hnorm, hconjunction⟩ := hcs.conjunction (List.mem_cons_self ..)
      have hlifted : cs.lifted.conjunction = some norm.watched := by
        rw [Combinators.lifted, hconjunction, Option.map_some]
      refine ⟨_, ?_, TNorm.hasDegree_watched hnorm haDegree hbDegree ε⟩
      simp only [lifted, degree, hlifted, ha, hb]
      rfl
    | or =>
      obtain ⟨norm, hnorm, hbounded, hdisjunction⟩ := hcs.disjunction (List.mem_cons_self ..)
      have hlifted : cs.lifted.disjunction = some norm.watched := by
        rw [Combinators.lifted, hdisjunction, Option.map_some]
      refine ⟨_, ?_, SNorm.hasDegree_watched hnorm hbounded haDegree hbDegree ε⟩
      simp only [lifted, degree, hlifted, ha, hb]
      rfl

/-! ### Antecedents -/

namespace Antecedent

/-- Over exact numbers the degree of a loaded antecedent is a number from zero to one, and it is
found without a division by zero: computed once more on numbers that carry divisors, it carries
positive ones only. -/
theorem degree_mem_unit (hroot : SquareRoot.KeepsUnit K) (ε : Exact K)
    {vs vs' : Variables (Exact K)} {cs : Combinators (Exact K)} {a loaded : Antecedent (Exact K)}
    (hload : a.load vs = .ok loaded) (hextends : vs.Extends vs')
    (hproper : ∀ e ∈ loaded.expression, cs.Suit e ∧ ∀ p ∈ e.propositions, p.IsProper vs') :
    ∃ x : K, loaded.degree ε cs vs' = .ok (number x) ∧ 0 ≤ x ∧ x ≤ 1 ∧
      ∃ divisors, loaded.lifted.degree (plain ε) cs.lifted vs'.lifted =
          .ok { value := number x, divisors } ∧
        ∀ d ∈ divisors, Scalar.lt Scalar.zero d = true := by
  obtain ⟨e, he, hloaded⟩ := exists_of_bind_eq_ok hload
  cases hloaded
  obtain ⟨hcs, hpropositions⟩ := hproper e rfl
  have hdegrees : ∀ p ∈ e.propositions,
      ∃ d, p.lifted.degree (plain ε) vs'.lifted = .ok d ∧ d.HasDegree := by
    intro p hp
    obtain ⟨words, hderives, -⟩ := Expression.exists_words_of_mem_propositions he hp
    have hdenotes := hderives.refers.denotes.of_extends hextends
    exact Proposition.hasDegree_degree hroot ε (hpropositions p hp) hdenotes
      hderives.isWellFormed.endsWithAny_or
  obtain ⟨⟨_, divisors⟩, hdegree, ⟨x, rfl, hx₀, hx₁⟩, hpositive⟩ :=
    Expression.hasDegree_degree ε hcs hdegrees
  have hdegree : ({ a with expression := some e }).lifted.degree (plain ε) cs.lifted vs'.lifted =
      .ok { value := number x, divisors } := hdegree
  have hvalue := value_degree_lifted ε cs vs' { a with expression := some e }
  rw [hdegree] at hvalue
  exact ⟨x, hvalue.symm, hx₀, hx₁, divisors, hdegree, hpositive⟩

end Antecedent

/-! ### Real numbers -/

noncomputable instance : SquareRoot ℝ := ⟨Real.sqrt⟩

theorem SquareRoot.keepsUnit_real : KeepsUnit ℝ :=
  fun x _ hx => ⟨Real.sqrt_nonneg x, Real.sqrt_le_one.mpr hx⟩

namespace Antecedent

/-- An oven that is a quarter warm and whose fan has been switched on twice. The steam is off and
has no value. -/
noncomputable def oven : Variables (Exact ℝ) where
  inputs := [
    { name := "heat", minimum := number 0, maximum := number 1, value := number (1 / 4),
      terms := [⟨"high", .triangle (number 0) (number 1) (number 1)⟩] },
    { name := "steam", enabled := false, minimum := number 0, maximum := number 1,
      value := .undefined, terms := [⟨"high", .rectangle (number 1) .undefined⟩] }]
  outputs := [
    { name := "fan", terms := [⟨"fast", .constant (number 1)⟩], aggregation := some .hamacherSum,
      entries := [⟨⟨0⟩, number (1 / 3), none⟩, ⟨⟨0⟩, number (1 / 3), none⟩] }]

def ovenAntecedent : Antecedent (Exact ℝ) where
  text := "heat is somewhat high and (fan is fast or steam is high) or heat is not any"

def ovenExpression : Expression (Exact ℝ) :=
  .combination .or
    (.combination .and
      (.proposition ⟨⟨⟨.input, 0⟩, "heat"⟩, [.somewhat], some ⟨⟨0⟩, "high"⟩⟩)
      (.combination .or
        (.proposition ⟨⟨⟨.output, 0⟩, "fan"⟩, [], some ⟨⟨0⟩, "fast"⟩⟩)
        (.proposition ⟨⟨⟨.input, 1⟩, "steam"⟩, [], some ⟨⟨0⟩, "high"⟩⟩)))
    (.proposition ⟨⟨⟨.input, 0⟩, "heat"⟩, [.not, .any], none⟩)

theorem load_oven : ovenAntecedent.load oven.clearOutputs =
    .ok { ovenAntecedent with expression := some ovenExpression } := by
  rfl

def ovenCombinators : Combinators (Exact ℝ) :=
  { conjunction := some .hamacherProduct, disjunction := some .einsteinSum }

theorem isProper_of_mem_oven {p : Proposition (Exact ℝ)} (hp : p ∈ ovenExpression.propositions) :
    p.IsProper oven := by
  have hheat : ∀ v ∈ oven.inputs[0]?, v.IsProper := by
    rintro v ⟨⟩
    exact ⟨⟨1 / 4, rfl⟩, List.forall_mem_singleton.mpr (.triangle 0 1 1)⟩
  have hfan : ∀ v ∈ oven.outputs[0]?, v.IsProper := by
    rintro v ⟨⟩
    have hthird : IsDegree (number (1 / 3 : ℝ)) := isDegree_number (by norm_num) (by norm_num)
    exact ⟨⟨.hamacherSum, by simp [SNorm.builtins], by simp, rfl⟩,
      List.forall_mem_cons.mpr ⟨hthird, List.forall_mem_singleton.mpr hthird⟩⟩
  simp only [ovenExpression, Expression.propositions, List.cons_append, List.nil_append,
    List.mem_cons, List.not_mem_nil, or_false] at hp
  rcases hp with rfl | rfl | rfl | rfl
  · exact .of_input rfl (by simp [Hedge.builtins]) fun v hv _ => hheat v hv
  · exact .of_output rfl (List.forall_mem_nil _) fun v hv _ => hfan v hv
  · refine .of_input rfl (List.forall_mem_nil _) fun v hv henabled => ?_
    cases hv
    cases henabled
  · exact .of_input rfl (by simp [Hedge.builtins]) fun v hv _ => hheat v hv

theorem degree_oven : ({ ovenAntecedent with expression := some ovenExpression }).degree
    (number (1 / 1000)) ovenCombinators oven = .ok (number (1 / 3)) := by
  have htolerance (x y : ℝ) : Tolerance.eq (number (1 / 1000)) (number x) (number y) =
      (decide (x = y) || decide (|x - y| < 1 / 1000)) := Bool.or_false _
  have hroot : Scalar.sqrt (number (1 / 4 : ℝ)) = number (1 / 2) := by
    rw [sqrt_number (by norm_num), show (1 / 4 : ℝ) = (1 / 2) ^ 2 by norm_num]
    exact congrArg number (Real.sqrt_sq (by norm_num))
  have hheat : (Shape.triangle (number 0) (number 1) (number 1)).membership (number (1 / 4 : ℝ)) =
      number (1 / 4) := by
    norm_num [Shape.membership, Shape.degree, number_div]
  have hfan : SNorm.hamacherSum.compute (number (1 / 1000))
      (SNorm.hamacherSum.compute (number (1 / 1000)) (number 0) (number (1 / 3 : ℝ)))
        (number (1 / 3)) = number (1 / 2) := by
    norm_num [SNorm.compute, htolerance, number_div]
  change Except.ok (SNorm.einsteinSum.compute (number (1 / 1000 : ℝ))
    (TNorm.hamacherProduct.compute (number (1 / 1000))
      (Scalar.sqrt
        ((Shape.triangle (number 0) (number 1) (number 1)).membership (number (1 / 4 : ℝ))))
      (SNorm.einsteinSum.compute (number (1 / 1000))
        (SNorm.hamacherSum.compute (number (1 / 1000))
          (SNorm.hamacherSum.compute (number (1 / 1000)) (number 0) (number (1 / 3 : ℝ)))
          (number (1 / 3)))
        (number 0)))
    (number (1 : ℝ) - number 1)) = _
  rw [hheat, hroot, hfan]
  norm_num [SNorm.compute, TNorm.compute, htolerance, number_div]

theorem degree_mem_unit_oven : ∃ loaded, ovenAntecedent.load oven.clearOutputs = .ok loaded ∧
    loaded.degree (number (1 / 1000)) ovenCombinators oven = .ok (number (1 / 3)) ∧
    0 ≤ (1 / 3 : ℝ) ∧ (1 / 3 : ℝ) ≤ 1 ∧
    ∃ divisors, loaded.lifted.degree (plain (number (1 / 1000))) ovenCombinators.lifted
        oven.lifted = .ok { value := number (1 / 3), divisors } ∧
      ∀ d ∈ divisors, Scalar.lt Scalar.zero d = true := by
  have hsuit : ovenCombinators.Suit ovenExpression :=
    ⟨fun _ => ⟨.hamacherProduct, by simp [TNorm.builtins], rfl⟩,
      fun _ => ⟨.einsteinSum, by simp [SNorm.builtins], by simp, rfl⟩⟩
  have hextends : oven.clearOutputs.Extends oven := .of_signature oven.signature_clearOutputs.symm
  have hproper : ∀ e ∈ some ovenExpression,
      ovenCombinators.Suit e ∧ ∀ p ∈ e.propositions, p.IsProper oven := by
    rintro e ⟨⟩
    exact ⟨hsuit, fun p => isProper_of_mem_oven⟩
  obtain ⟨x, hdegree, hx₀, hx₁, hdivisors⟩ := degree_mem_unit SquareRoot.keepsUnit_real
    (number (1 / 1000)) load_oven hextends hproper
  cases hdegree.symm.trans degree_oven
  exact ⟨_, load_oven, hdegree, hx₀, hx₁, hdivisors⟩

end Antecedent

end FuzzyInference
